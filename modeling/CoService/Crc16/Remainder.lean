import CoService.Crc16
import CoService.Infra.Gf2

/-!
# The CRC is a remainder

`crc16_compute` shifts the bits of the message through a register with feedback, then sixteen
zeros, and reads the register out reversed. So its value is, in reverse, the remainder of the
message times `X ^ 16` modulo the generator.
-/

namespace Crc16

open Infra.Gf2 Polynomial

/-- The feedback taps of the register. -/
def taps : BitVec 16 := crc16Generator.toBitVec

/-- The generator with all its terms. -/
theorem modulus_taps : modulus taps = X ^ 16 + X ^ 15 + X ^ 2 + 1 := by
  have htaps : toPoly taps = X ^ 15 + X ^ 2 + 1 := by
    have hbits : ∀ i < 16, taps.getLsbD i = decide (i = 0 ∨ i = 2 ∨ i = 15) := by decide
    rw [toPoly, Finset.sum_congr rfl fun i hi => by rw [hbits i (Finset.mem_range.mp hi)]]
    simp [Finset.sum_range_succ]
    ring
  rw [modulus, htaps]
  ring

/-- The bits of a byte in the order in which the register takes them in. -/
def byteBits (b : UInt8) : List Bool := (List.range 8).map b.toBitVec.getLsbD

/-- The bits of a message in the order in which the register takes them in. -/
def bits (data : List UInt8) : List Bool := data.flatMap byteBits

@[simp] theorem length_byteBits (b : UInt8) : (byteBits b).length = 8 := by simp [byteBits]

/-! ## The register -/

/-- The number that the code makes of a bit. -/
def ofBool (b : Bool) : UInt16 := if b then 1 else 0

theorem toBitVec_shiftLeft_or (reg : UInt16) (b : Bool) :
    ((reg <<< 1) ||| ofBool b).toBitVec = reg.toBitVec.shiftConcat b := by
  refine BitVec.eq_of_getLsbD_eq fun i hi => ?_
  rw [UInt16.toBitVec_or, BitVec.getLsbD_or, BitVec.getLsbD_shiftConcat]
  rcases i with _ | i <;> cases b <;> simp [ofBool]

theorem shiftRight_ne_zero_iff (reg : UInt16) : reg >>> 15 ≠ 0 ↔ reg.toBitVec.msb = true := by
  have hlt := reg.toNat_lt
  rw [BitVec.msb_eq_decide, decide_eq_true_eq, ne_eq, ← UInt16.toNat_inj, UInt16.toNat_shiftRight,
    UInt16.toNat_toBitVec, Nat.shiftRight_eq_div_pow]
  simp only [UInt16.reduceToNat, Nat.reduceMod, Nat.reducePow]
  omega

/-- The register of the code is the shift register with the generator as its taps. -/
theorem toBitVec_crc16Bit (reg : UInt16) (b : Bool) :
    (crc16Bit reg (ofBool b)).toBitVec = shiftIn taps reg.toBitVec b := by
  unfold crc16Bit crc16XorReg shiftIn
  simp only [shiftRight_ne_zero_iff]
  split
  · rw [UInt16.toBitVec_xor, toBitVec_shiftLeft_or]
    rfl
  · exact toBitVec_shiftLeft_or reg b

theorem crc16Augment_eq (reg : UInt16) : crc16Augment reg = crc16Bit reg (ofBool false) := by
  simp [crc16Augment, crc16Bit, ofBool]

/-- Bit `i` of a byte, as the code computes it. -/
theorem byte_bit (byte : UInt8) {i : Nat} (hi : i < 8) :
    ((byte >>> UInt8.ofNat i) &&& 1).toUInt16 = ofBool (byte.toBitVec.getLsbD i) := by
  have hbit : (byte >>> UInt8.ofNat i) &&& 1 = if byte.toBitVec.getLsbD i then 1 else 0 := by
    refine UInt8.toBitVec_inj.mp ?_
    rw [UInt8.toBitVec_and, UInt8.toBitVec_shiftRight]
    have hshift : ((UInt8.ofNat i).toBitVec % 8).toNat = i := by
      have hall : ∀ i ∈ List.range 8, ((UInt8.ofNat i).toBitVec % 8).toNat = i := by decide
      exact hall i (List.mem_range.mpr hi)
    show _ &&& 1#8 = _
    rw [BitVec.and_one_eq_setWidth_ofBool_getLsbD, BitVec.ushiftRight_eq', hshift,
      BitVec.getLsbD_ushiftRight, Nat.add_zero]
    cases byte.toBitVec.getLsbD i <;> rfl
  rw [hbit, ofBool]
  split <;> rfl

theorem toBitVec_foldl (reg : UInt16) (bs : List Bool) :
    (bs.foldl (fun reg b => crc16Bit reg (ofBool b)) reg).toBitVec
      = bs.foldl (shiftIn taps) reg.toBitVec := by
  induction bs generalizing reg with
  | nil => rfl
  | cons b bs ih => rw [List.foldl_cons, List.foldl_cons, ih, toBitVec_crc16Bit]

theorem crc16Byte_eq (reg : UInt16) (byte : UInt8) :
    crc16Byte reg byte = (byteBits byte).foldl (fun reg b => crc16Bit reg (ofBool b)) reg := by
  rw [byteBits, List.foldl_map, crc16Byte]
  refine List.foldl_ext _ _ _ fun reg i hi => ?_
  rw [byte_bit _ (List.mem_range.mp hi)]

theorem foldl_crc16Byte (reg : UInt16) (data : List UInt8) :
    data.foldl crc16Byte reg
      = (bits data).foldl (fun reg b => crc16Bit reg (ofBool b)) reg := by
  induction data generalizing reg with
  | nil => rfl
  | cons byte data ih =>
    rw [List.foldl_cons, ih, crc16Byte_eq, ← List.foldl_append]
    rfl

/-! ## Reading the register out -/

theorem toBitVec_one_shiftLeft {i : Nat} (hi : i < 16) :
    ((1 : UInt16) <<< UInt16.ofNat i).toBitVec = BitVec.twoPow 16 i := by
  have hall : ∀ i ∈ List.range 16,
      ((1 : UInt16) <<< UInt16.ofNat i).toBitVec = BitVec.twoPow 16 i := by decide
  exact hall i (List.mem_range.mpr hi)

/-- Bit `15 - k` of `value` is put at place `k`. -/
theorem getLsbD_readBit (value : UInt16) {k i : Nat} (hk : k < 16) :
    (if value &&& (1 <<< UInt16.ofNat (15 - k)) ≠ 0 then (1 : UInt16) <<< UInt16.ofNat k
      else 0).toBitVec.getLsbD i = (decide (i = k) && value.toBitVec.getLsbD (15 - i)) := by
  have hmask : value &&& (1 <<< UInt16.ofNat (15 - k)) ≠ 0 ↔
      value.toBitVec.getLsbD (15 - k) = true := by
    rw [ne_eq, ← UInt16.toBitVec_inj, UInt16.toBitVec_and, toBitVec_one_shiftLeft (by omega),
      BitVec.and_twoPow]
    cases value.toBitVec.getLsbD (15 - k) with
    | false => simp
    | true =>
      have hbit : (BitVec.twoPow 16 (15 - k)).getLsbD (15 - k) = true := by
        simp [show 15 - k < 16 by omega]
      refine iff_of_true (fun h => ?_) rfl
      rw [if_pos rfl] at h
      simp [h] at hbit
  simp only [hmask]
  by_cases hik : i = k
  · subst hik
    cases value.toBitVec.getLsbD (15 - i) <;>
      simp [toBitVec_one_shiftLeft hk, hk]
  · cases value.toBitVec.getLsbD (15 - k) <;>
      simp [toBitVec_one_shiftLeft hk, BitVec.getLsbD_twoPow, hik, Ne.symm hik]

/-- Bit `i` of the register after `k` turns of the loop in `reverse`. -/
theorem getLsbD_reverse_loop (value : UInt16) {k i : Nat} (hk : k ≤ 16) :
    ((List.range k).foldl (fun result bitIndex =>
      let valueMask : UInt16 := 1 <<< UInt16.ofNat (15 - bitIndex)
      result ||| if value &&& valueMask ≠ 0 then 1 <<< UInt16.ofNat bitIndex else 0)
        0).toBitVec.getLsbD i = (decide (i < k) && value.toBitVec.getLsbD (15 - i)) := by
  induction k with
  | zero => simp
  | succ k ih =>
    rw [List.range_succ, List.foldl_append, List.foldl_cons, List.foldl_nil]
    simp only [UInt16.toBitVec_or, BitVec.getLsbD_or]
    rw [ih (by omega), getLsbD_readBit _ (by omega)]
    rcases Nat.lt_trichotomy i k with hlt | rfl | hgt
    · simp [hlt, Nat.ne_of_lt hlt, Nat.lt_succ_of_lt hlt]
    · simp
    · simp [show ¬ i < k by omega, show i ≠ k by omega, show ¬ i < k + 1 by omega]

theorem toBitVec_reverse (value : UInt16) : (reverse value).toBitVec = value.toBitVec.reverse := by
  refine BitVec.eq_of_getLsbD_eq fun i hi => ?_
  rw [reverse, getLsbD_reverse_loop _ (Nat.le_refl 16), BitVec.getLsbD_reverse,
    BitVec.getMsbD_eq_getLsbD]

theorem reverse_reverse (value : UInt16) : reverse (reverse value) = value := by
  refine UInt16.toBitVec_inj.mp ?_
  rw [toBitVec_reverse, toBitVec_reverse, BitVec.reverse_reverse_eq]

/-- The bits of a 16-bit number are those of its low byte and those of its high byte. -/
theorem map_getLsbD (value : UInt16) : (List.range 16).map value.toBitVec.getLsbD
    = byteBits value.toUInt8 ++ byteBits (value >>> 8).toUInt8 := by
  have hlow : byteBits value.toUInt8 = (List.range 8).map value.toBitVec.getLsbD := by
    refine List.map_congr_left fun i hi => ?_
    have hlt := List.mem_range.mp hi
    rw [UInt16.toBitVec_toUInt8, BitVec.getLsbD_setWidth, decide_eq_true hlt, Bool.true_and]
  have hhigh : byteBits (value >>> 8).toUInt8
      = (List.range 8).map fun i => value.toBitVec.getLsbD (8 + i) := by
    refine List.map_congr_left fun i hi => ?_
    have hlt := List.mem_range.mp hi
    rw [UInt16.toBitVec_toUInt8, BitVec.getLsbD_setWidth, decide_eq_true hlt, Bool.true_and,
      UInt16.toBitVec_shiftRight, BitVec.ushiftRight_eq', BitVec.getLsbD_ushiftRight]
    rfl
  rw [hlow, hhigh]
  rfl

/-- A 16-bit number in reverse, as a polynomial: its low byte stands above its high byte. -/
theorem toPoly_reverse (value : UInt16) : toPoly value.toBitVec.reverse
    = ofBits (byteBits value.toUInt8) * X ^ 8 + ofBits (byteBits (value >>> 8).toUInt8) := by
  have hbits : (List.range 16).map value.toBitVec.reverse.getMsbD
      = (List.range 16).map value.toBitVec.getLsbD := by
    refine List.map_congr_left fun i hi => ?_
    rw [BitVec.getMsbD_reverse]
  rw [← ofBits_getMsbD, hbits, map_getLsbD, ofBits_append, length_byteBits]

/-- **`crc16_compute` is the remainder of the message times `X ^ 16`.** -/
theorem residue_reverse_crc16Compute (data : List UInt8) :
    residue taps (reverse (crc16Compute data)).toBitVec
      = AdjoinRoot.mk (modulus taps) (ofBits (bits data) * X ^ 16) := by
  have hzeros : ∀ reg : UInt16, (List.range 16).foldl (fun reg _ => crc16Augment reg) reg
      = (List.replicate 16 false).foldl (fun reg b => crc16Bit reg (ofBool b)) reg := by
    intro reg
    simp only [crc16Augment_eq]
    rfl
  rw [crc16Compute, reverse_reverse, foldl_crc16Byte, hzeros, ← List.foldl_append, toBitVec_foldl,
    residue_foldl _ _ _ (by decide), ofBits_append, ofBits_replicate_false, List.length_replicate]
  simp

end Crc16
