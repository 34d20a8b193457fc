import CoService.Crc16.Remainder
import CoService.Easn.Package
import CoService.Infra.ErrorPattern
import Mathlib.Tactic.NormNum.Prime

/-!
# Which errors `check_crc` detects

An error flips bits of a frame. Each bit of the frame stands for a power of `X`, and `check_crc`
accepts a frame exactly when the generator divides the sum of the powers of its set bits. So an
error goes unnoticed exactly when the generator divides the sum of the powers it flips.

* `checkCrc_iff`, `checkCrc_flipBits_iff` — `check_crc` as divisibility
* `detectsOdd` — errors of an odd number of bits
* `detectsDouble_iff` — errors of two bits

For bursts see `Easn.Properties.BurstDetection`.
-/

namespace Easn

open Infra Infra.Gf2 Crc16 Polynomial

/-! ## Error patterns -/

/-- Bit `p` of a frame, in the order in which the CRC takes the bits in. -/
def bitAt (frame : List UInt8) (p : Nat) : Bool :=
  (frame.getD (p / 8) 0).toBitVec.getLsbD (p % 8)

/-- The bits of byte `i` that are flipped. -/
def errorByte (E : Finset Nat) (i : Nat) : UInt8 :=
  UInt8.ofBitVec
    (BitVec.setWidth 8 (BitVec.ofBoolListLE ((List.range 8).map fun j => decide (8 * i + j ∈ E))))

/-- The frame with the bits in `E` flipped. -/
def flipBits (E : Finset Nat) (frame : List UInt8) : List UInt8 :=
  frame.mapIdx fun i b => b ^^^ errorByte E i

@[simp] theorem length_flipBits (E : Finset Nat) (frame : List UInt8) :
    (flipBits E frame).length = frame.length := by
  simp [flipBits]

theorem bitAt_flipBits (E : Finset Nat) {frame : List UInt8} {p : Nat}
    (hp : p < 8 * frame.length) :
    bitAt (flipBits E frame) p = (bitAt frame p ^^ decide (p ∈ E)) := by
  have hlt : p / 8 < frame.length := by omega
  have herror : (errorByte E (p / 8)).toBitVec.getLsbD (p % 8) = decide (p ∈ E) := by
    have hmod : p % 8 < 8 := Nat.mod_lt _ (by decide)
    have hdiv : 8 * (p / 8) + p % 8 = p := Nat.div_add_mod p 8
    show (BitVec.setWidth 8 _).getLsbD (p % 8) = _
    rw [BitVec.getLsbD_setWidth, BitVec.getLsbD_ofBoolListLE,
      List.getD_eq_getElem _ _ (by simpa using hmod), List.getElem_map, List.getElem_range, hdiv,
      decide_eq_true hmod, Bool.true_and]
  have hget : (flipBits E frame).getD (p / 8) 0
      = frame.getD (p / 8) 0 ^^^ errorByte E (p / 8) := by
    rw [List.getD_eq_getElem _ _ (by simpa using hlt), List.getD_eq_getElem _ _ hlt]
    simp [flipBits]
  rw [bitAt, hget, UInt8.toBitVec_xor, BitVec.getLsbD_xor, herror]
  rfl

/-! ## The polynomial of a frame -/

/-- The power of `X` that bit `p` of a frame of `n` bytes stands for. The high byte of the CRC is
stored before the low byte, so the last two bytes are the other way round. -/
def exponent (n p : Nat) : Nat :=
  if p < 8 * (n - 2) then 8 * n - 1 - p
  else if p < 8 * (n - 1) then 8 * (n - 1) - 1 - p
  else 8 * (n + 1) - 1 - p

/-- The polynomial of a frame. -/
noncomputable def framePoly (frame : List UInt8) : (ZMod 2)[X] :=
  ∑ p ∈ Finset.range (8 * frame.length),
    C (coef (bitAt frame p)) * X ^ exponent frame.length p

/-- **Flipping bits adds their powers of `X`.** -/
theorem framePoly_flipBits {E : Finset Nat} {frame : List UInt8}
    (hE : E ⊆ Finset.range (8 * frame.length)) : framePoly (flipBits E frame)
      = framePoly frame + ∑ p ∈ E, X ^ exponent frame.length p := by
  have herror : ∑ p ∈ E, (X : (ZMod 2)[X]) ^ exponent frame.length p
      = ∑ p ∈ Finset.range (8 * frame.length),
          C (coef (decide (p ∈ E))) * X ^ exponent frame.length p := by
    rw [← Finset.sum_subset hE]
    · refine Finset.sum_congr rfl fun p hp => ?_
      simp [hp]
    · intro p _ hp
      simp [hp]
  rw [framePoly, framePoly, length_flipBits, herror, ← Finset.sum_add_distrib]
  refine Finset.sum_congr rfl fun p hp => ?_
  rw [bitAt_flipBits E (Finset.mem_range.mp hp), coef_xor, C_add, add_mul]

theorem length_bits (d : List UInt8) : (bits d).length = 8 * d.length := by
  induction d with
  | nil => rfl
  | cons b d ih =>
    rw [bits, List.flatMap_cons, List.length_append, length_byteBits, List.length_cons, ← bits, ih]
    omega

theorem getD_byteBits (b : UInt8) (j : Nat) : (byteBits b).getD j false = b.toBitVec.getLsbD j := by
  by_cases hj : j < 8
  · simp [byteBits, hj]
  · rw [BitVec.getLsbD_of_ge _ _ (by omega), List.getD_eq_default _ _ (by simp; omega)]

theorem getD_bits (d : List UInt8) (p : Nat) : (bits d).getD p false = bitAt d p := by
  induction d generalizing p with
  | nil => simp [bits, bitAt]
  | cons b d ih =>
    rw [bits, List.flatMap_cons, ← bits]
    by_cases hp : p < 8
    · rw [List.getD_append _ _ _ _ (by simpa using hp), getD_byteBits, bitAt,
        Nat.div_eq_of_lt hp, Nat.mod_eq_of_lt hp]
      rfl
    · rw [List.getD_append_right _ _ _ _ (by simpa using hp), length_byteBits, ih, bitAt, bitAt,
        show p / 8 = (p - 8) / 8 + 1 by omega, show p % 8 = (p - 8) % 8 by omega]
      rfl

theorem ofBits_byteBits (b : UInt8) : ofBits (byteBits b)
    = ∑ j ∈ Finset.range 8, C (coef (b.toBitVec.getLsbD j)) * X ^ (7 - j) := by
  rw [ofBits_eq_sum, length_byteBits]
  refine Finset.sum_congr rfl fun j _ => ?_
  rw [getD_byteBits]

theorem bitAt_append_left {d : List UInt8} (e : List UInt8) {p : Nat} (hp : p < 8 * d.length) :
    bitAt (d ++ e) p = bitAt d p := by
  rw [bitAt, List.getD_append _ _ _ _ (by omega)]
  rfl

theorem bitAt_append_right (d e : List UInt8) (p : Nat) :
    bitAt (d ++ e) (8 * d.length + p) = bitAt e p := by
  rw [bitAt, List.getD_append_right _ _ _ _ (by omega),
    show (8 * d.length + p) / 8 - d.length = p / 8 by omega,
    show (8 * d.length + p) % 8 = p % 8 by omega]
  rfl

theorem bitAt_singleton (b : UInt8) {j : Nat} (hj : j < 8) : bitAt [b] j = b.toBitVec.getLsbD j := by
  rw [bitAt, Nat.div_eq_of_lt hj, Nat.mod_eq_of_lt hj]
  rfl

/-- The polynomial of a frame: its covered bytes, then the low and the high byte of the CRC. -/
theorem framePoly_append (d : List UInt8) (high low : UInt8) : framePoly (d ++ [high, low])
    = ofBits (bits d) * X ^ 16 + (ofBits (byteBits low) * X ^ 8 + ofBits (byteBits high)) := by
  have hlen : (d ++ [high, low]).length = d.length + 2 := by simp
  have hcovered : ∑ p ∈ Finset.range (8 * d.length),
      C (coef (bitAt (d ++ [high, low]) p)) * X ^ exponent (d.length + 2) p
        = ofBits (bits d) * X ^ 16 := by
    rw [ofBits_eq_sum, length_bits, Finset.sum_mul]
    refine Finset.sum_congr rfl fun p hp => ?_
    have hlt := Finset.mem_range.mp hp
    rw [bitAt_append_left _ hlt, getD_bits, mul_assoc, ← pow_add, exponent, if_pos (by omega)]
    congr 2
    omega
  have hhigh : ∑ j ∈ Finset.range 8, C (coef (bitAt (d ++ [high, low]) (8 * d.length + j)))
      * X ^ exponent (d.length + 2) (8 * d.length + j) = ofBits (byteBits high) := by
    rw [ofBits_byteBits]
    refine Finset.sum_congr rfl fun j hj => ?_
    have hlt := Finset.mem_range.mp hj
    rw [bitAt_append_right, ← List.singleton_append, bitAt_append_left _ (by simpa using hlt),
      bitAt_singleton _ hlt, exponent, if_neg (by omega), if_pos (by omega)]
    congr 2
    omega
  have hlow : ∑ j ∈ Finset.range 8, C (coef (bitAt (d ++ [high, low]) (8 * d.length + 8 + j)))
      * X ^ exponent (d.length + 2) (8 * d.length + 8 + j) = ofBits (byteBits low) * X ^ 8 := by
    rw [ofBits_byteBits, Finset.sum_mul]
    refine Finset.sum_congr rfl fun j hj => ?_
    have hlt := Finset.mem_range.mp hj
    have hbit : bitAt (d ++ [high, low]) (8 * d.length + 8 + j) = bitAt [low] j := by
      have hright := bitAt_append_right (d ++ [high]) [low] j
      rwa [List.append_assoc, List.length_append, List.length_singleton,
        show 8 * (d.length + 1) = 8 * d.length + 8 by omega] at hright
    rw [hbit, bitAt_singleton _ hlt, mul_assoc, ← pow_add, exponent, if_neg (by omega),
      if_neg (by omega)]
    congr 2
    omega
  rw [framePoly, hlen, show 8 * (d.length + 2) = 8 * d.length + 8 + 8 by omega,
    Finset.sum_range_add, Finset.sum_range_add, hcovered, hhigh, hlow]
  ring

/-! ## `check_crc` is divisibility -/

/-- A 16-bit number is given by its two bytes. -/
theorem eq_iff_bytes (a b : UInt16) :
    a = b ↔ a.toUInt8 = b.toUInt8 ∧ (a >>> 8).toUInt8 = (b >>> 8).toUInt8 := by
  refine ⟨fun h => by rw [h]; exact ⟨rfl, rfl⟩, fun ⟨hlow, hhigh⟩ => ?_⟩
  have hbits : (List.range 16).map a.toBitVec.getLsbD = (List.range 16).map b.toBitVec.getLsbD := by
    rw [map_getLsbD, map_getLsbD, hlow, hhigh]
  refine UInt16.toBitVec_inj.mp (BitVec.eq_of_getLsbD_eq fun i hi => ?_)
  exact List.map_inj_left.mp hbits i (List.mem_range.mpr hi)

theorem exists_bytes (high low : UInt8) :
    ∃ v : UInt16, v.toUInt8 = low ∧ (v >>> 8).toUInt8 = high := by
  have hhigh := high.toNat_lt
  have hlow := low.toNat_lt
  have hv : (UInt16.ofNat (high.toNat * 256 + low.toNat)).toNat = high.toNat * 256 + low.toNat :=
    UInt16.toNat_ofNat_of_lt' (show _ < 65536 by omega)
  refine ⟨UInt16.ofNat (high.toNat * 256 + low.toNat), ?_, ?_⟩
  · rw [← UInt8.toNat_inj, UInt16.toNat_toUInt8, hv]
    omega
  · rw [← UInt8.toNat_inj, UInt16.toNat_toUInt8, UInt16.toNat_shiftRight, hv,
      Nat.shiftRight_eq_div_pow]
    simp only [UInt16.reduceToNat, Nat.reduceMod, Nat.reducePow]
    omega

/-- The CRC is right exactly when the generator divides the polynomial of the frame. -/
theorem crc_eq_iff (d : List UInt8) (high low : UInt8) :
    ((crc16Compute d).toUInt8 = low ∧ (crc16Compute d >>> 8).toUInt8 = high) ↔
      modulus taps ∣ framePoly (d ++ [high, low]) := by
  obtain ⟨v, rfl, rfl⟩ := exists_bytes high low
  rw [← eq_iff_bytes, framePoly_append, ← toPoly_reverse, ← AdjoinRoot.mk_eq_zero, map_add,
    ← residue_reverse_crc16Compute, ← residue, toBitVec_reverse, add_eq_zero_iff]
  refine ⟨fun h => by rw [h], fun h => ?_⟩
  have hreverse := residue_injective h
  refine UInt16.toBitVec_inj.mp ?_
  rw [← BitVec.reverse_reverse_eq (x := (crc16Compute d).toBitVec), hreverse,
    BitVec.reverse_reverse_eq]

/-- **`check_crc` accepts the frames whose polynomial the generator divides.** -/
theorem checkCrc_iff {frame : List UInt8} {n : Nat} (hn : frame.length = n) (h2 : 2 ≤ n) :
    checkCrc frame n = some true ↔ modulus taps ∣ framePoly frame := by
  have hsplit : frame = frame.take (n - 2) ++ [frame.getD (n - 2) 0, frame.getD (n - 1) 0] := by
    rw [List.getD_eq_getElem _ _ (show n - 2 < frame.length by omega),
      List.getD_eq_getElem _ _ (show n - 1 < frame.length by omega)]
    conv_lhs => rw [← List.take_append_drop (n - 2) frame]
    rw [List.drop_eq_getElem_cons (by omega), List.drop_eq_getElem_cons (by omega),
      List.drop_eq_nil_of_le (by omega)]
    simp only [show n - 2 + 1 = n - 1 by omega]
  rw [checkCrc, if_pos ⟨h2, hn.ge⟩]
  conv_rhs => rw [hsplit]
  rw [← crc_eq_iff]
  simp [Bool.and_eq_true]

/-- An error pattern goes unnoticed exactly when the generator divides it. -/
theorem checkCrc_flipBits_iff {frame : List UInt8} {n : Nat} {E : Finset Nat}
    (hn : frame.length = n) (hcrc : checkCrc frame n = some true) (hE : E ⊆ Finset.range (8 * n)) :
    checkCrc (flipBits E frame) n = some true ↔
      modulus taps ∣ ∑ p ∈ E, X ^ exponent n p := by
  subst hn
  have h2 := two_le_of_checkCrc hcrc
  rw [checkCrc_iff (length_flipBits E frame) h2, framePoly_flipBits hE]
  exact dvd_add_right ((checkCrc_iff rfl h2).mp hcrc)

/-- What is not accepted is rejected. -/
theorem checkCrc_eq_false {frame : List UInt8} {n : Nat} {ok : Bool}
    (hcrc : checkCrc frame n = some ok) (E : Finset Nat)
    (h : checkCrc (flipBits E frame) n ≠ some true) :
    checkCrc (flipBits E frame) n = some false := by
  unfold checkCrc at hcrc h ⊢
  rw [length_flipBits] at h ⊢
  split at hcrc
  · next hn =>
    rw [if_pos hn] at h ⊢
    simpa using h
  · simp at hcrc

/-- Different bits stand for different powers of `X`. -/
theorem exponent_inj {n p q : Nat} (hp : p < 8 * n) (hq : q < 8 * n)
    (h : exponent n p = exponent n q) : p = q := by
  unfold exponent at h
  split_ifs at h <;> omega

theorem exponent_injOn {n : Nat} {E : Finset Nat} (hE : E ⊆ Finset.range (8 * n)) :
    Set.InjOn (exponent n) E := fun _ hp _ hq h =>
  exponent_inj (Finset.mem_range.mp (hE hp)) (Finset.mem_range.mp (hE hq)) h

theorem exponent_lt {n p : Nat} (hn : 2 ≤ n) (hp : p < 8 * n) : exponent n p < 8 * n := by
  unfold exponent
  split_ifs <;> omega

/-- There are frames of every size that `check_crc` accepts. -/
theorem exists_frame {n : Nat} (hn : 2 ≤ n) :
    ∃ frame : List UInt8, frame.length = n ∧ checkCrc frame n = some true :=
  ⟨fillCrc (List.replicate n 0) n, by rw [length_fillCrc, List.length_replicate],
    checkCrc_fillCrc hn (by rw [List.length_replicate])⟩

/-! ## Odd errors -/

/-- **Every error that flips an odd number of bits is detected.** -/
theorem detectsOdd {frame : List UInt8} {n : Nat} {E : Finset Nat} (hn : frame.length = n)
    (hcrc : checkCrc frame n = some true) (hE : E ⊆ Finset.range (8 * n)) (hodd : Odd E.card) :
    checkCrc (flipBits E frame) n = some false := by
  refine checkCrc_eq_false hcrc E fun h => ?_
  have hone : (modulus taps).eval 1 = 0 := by
    rw [modulus_taps]
    simp only [eval_add, eval_pow, eval_X, eval_one, one_pow]
    decide
  exact not_dvd_of_odd hone hodd ((checkCrc_flipBits_iff hn hcrc hE).mp h)

/-- Five bits of the frame of `test_check_crc` are flipped, in the covered bytes and in both bytes of
the CRC. -/
theorem detectsOdd_fiveBits : checkCrc (flipBits {16, 45, 87, 90, 97} [0xAA, 0x55, 0x01, 0x00, 0x0D,
    0x00, 0x00, 0x00, 0x02, 0x00, 0x01, 0xDB, 0x81]) 13 = some false :=
  detectsOdd rfl (by decide +kernel) (by decide) (by decide)

/-! ## Double errors -/

/-- The binary digits of a number below `2 ^ 15`, highest first. -/
def digits (n : Nat) : List Bool := (List.range 15).map fun i => n.testBit (14 - i)

theorem root_pow_eq_one_iff_digits {n : Nat} (h : ofDigits (digits n) = n) :
    AdjoinRoot.root (modulus taps) ^ n = 1 ↔ xPow taps (digits n) = 1#16 := by
  rw [← root_pow_eq_one_iff (by decide), h]

/-- The order of `X` modulo the generator. -/
theorem orderOf_root : orderOf (AdjoinRoot.root (modulus taps)) = 32767 := by
  refine orderOf_eq_of_pow_and_pow_div_prime (by decide) ?_ ?_
  · rw [root_pow_eq_one_iff_digits (by decide)]
    decide +kernel
  · intro p hp hdvd
    have hfactor : 32767 = 7 * 31 * 151 := rfl
    have hprimes : p = 7 ∨ p = 31 ∨ p = 151 := by
      rw [hfactor, hp.dvd_mul, hp.dvd_mul, Nat.prime_dvd_prime_iff_eq hp (by norm_num),
        Nat.prime_dvd_prime_iff_eq hp (by norm_num), Nat.prime_dvd_prime_iff_eq hp (by norm_num),
        or_assoc] at hdvd
      exact hdvd
    rcases hprimes with rfl | rfl | rfl
    · rw [ne_eq, root_pow_eq_one_iff_digits (by decide)]
      decide +kernel
    · rw [ne_eq, root_pow_eq_one_iff_digits (by decide)]
      decide +kernel
    · rw [ne_eq, root_pow_eq_one_iff_digits (by decide)]
      decide +kernel

/-- Two powers of `X` cancel at a distance of 32767. -/
theorem dvd_pair_iff {n p q : Nat} (hne : p ≠ q) :
    modulus taps ∣ ∑ p ∈ {p, q}, X ^ exponent n p ↔
      exponent n p ≡ exponent n q [MOD 32767] := by
  rw [← orderOf_root, ← root_pow_add_eq_zero_iff (by decide), Finset.sum_pair hne,
    ← AdjoinRoot.mk_eq_zero, map_add, map_pow, map_pow, AdjoinRoot.mk_X]

/-- **Every double error is detected exactly in frames of at most 4095 bytes.** -/
theorem detectsDouble_iff (n : Nat) :
    (∀ frame : List UInt8, frame.length = n → checkCrc frame n = some true → ∀ p q, p < 8 * n →
      q < 8 * n → p ≠ q → checkCrc (flipBits {p, q} frame) n = some false) ↔ n ≤ 4095 := by
  constructor
  · intro h
    by_contra hn
    -- the bits that stand for `1` and for `X ^ 32767`
    obtain ⟨frame, hlen, hcrc⟩ := exists_frame (show 2 ≤ n by omega)
    have hfalse := h frame hlen hcrc (8 * (n - 1) - 1) (8 * n - 32768) (by omega) (by omega)
      (by omega)
    have hpair : ({8 * (n - 1) - 1, 8 * n - 32768} : Finset Nat) ⊆ Finset.range (8 * n) := by
      intro p hp
      simp only [Finset.mem_insert, Finset.mem_singleton] at hp
      rw [Finset.mem_range]
      omega
    have htrue := (checkCrc_flipBits_iff hlen hcrc hpair).mpr
    rw [dvd_pair_iff (by omega)] at htrue
    have hmod : exponent n (8 * (n - 1) - 1) ≡ exponent n (8 * n - 32768) [MOD 32767] := by
      have h0 : exponent n (8 * (n - 1) - 1) = 0 := by
        unfold exponent
        split_ifs <;> omega
      have h1 : exponent n (8 * n - 32768) = 32767 := by
        unfold exponent
        split_ifs <;> omega
      rw [h0, h1]
      rfl
    rw [htrue hmod] at hfalse
    simp at hfalse
  · intro hn frame hlen hcrc p q hp hq hne
    have h2 := two_le_of_checkCrc hcrc
    refine checkCrc_eq_false hcrc _ fun h => ?_
    have hpair : ({p, q} : Finset Nat) ⊆ Finset.range (8 * n) := by
      intro r hr
      simp only [Finset.mem_insert, Finset.mem_singleton] at hr
      rw [Finset.mem_range]
      omega
    have hmod := (dvd_pair_iff hne).mp ((checkCrc_flipBits_iff hlen hcrc hpair).mp h)
    have hlt := exponent_lt h2 hp
    have hlt' := exponent_lt h2 hq
    exact hne (exponent_inj hp hq (Nat.ModEq.eq_of_lt_of_lt hmod (by omega) (by omega)))

end Easn
