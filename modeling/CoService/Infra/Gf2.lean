import Mathlib.Data.List.GetD
import Mathlib.Algebra.Field.ZMod
import Mathlib.RingTheory.AdjoinRoot

/-!
# Shift registers and polynomials over GF(2)

A shift register with feedback computes with remainders of polynomials over GF(2). Its bits are
the coefficients of a polynomial of low degree, and taking in a bit multiplies by `X` modulo the
polynomial that the feedback taps form.

* `residue_shiftIn`, `residue_foldl` — what taking in one bit, and a message, does to the class of
  the register in `GF(2)[X] / (X ^ w + taps)`
* `toPoly_eq_modByMonic` — a register is the remainder of what it is congruent to
* `residue_mul`, `residue_xPow` — multiplication and powers of `X` on registers
-/

namespace Infra.Gf2

open Polynomial

/-! ## Bits as coefficients -/

/-- The coefficient that a bit stands for. -/
def coef (b : Bool) : ZMod 2 := if b then 1 else 0

@[simp] theorem coef_false : coef false = 0 := rfl
@[simp] theorem coef_true : coef true = 1 := rfl

theorem coef_xor (a b : Bool) : coef (a ^^ b) = coef a + coef b := by
  cases a <;> cases b <;> decide

theorem coef_injective : Function.Injective coef := by decide

section char

variable {R : Type*} [Ring R] [Algebra (ZMod 2) R]

theorem add_self (a : R) : a + a = 0 := by
  have htwo : (2 : ZMod 2) = 0 := rfl
  rw [← two_smul (ZMod 2) a, htwo, zero_smul]

/-- Two things are equal when their sum vanishes. -/
theorem add_eq_zero_iff {a b : R} : a + b = 0 ↔ a = b := by
  rw [add_eq_zero_iff_eq_neg, ← eq_neg_of_add_eq_zero_left (add_self b)]

end char

/-! ## Bit strings -/

/-- The polynomial of a bit string, highest coefficient first. -/
noncomputable def ofBits (bs : List Bool) : (ZMod 2)[X] :=
  bs.foldl (fun p b => X * p + C (coef b)) 0

@[simp] theorem ofBits_nil : ofBits [] = 0 := rfl

theorem ofBits_append_singleton (bs : List Bool) (b : Bool) :
    ofBits (bs ++ [b]) = X * ofBits bs + C (coef b) := by
  simp [ofBits]

theorem ofBits_append (as bs : List Bool) :
    ofBits (as ++ bs) = ofBits as * X ^ bs.length + ofBits bs := by
  induction bs using List.reverseRecOn with
  | nil => simp
  | append_singleton bs b ih =>
    rw [← List.append_assoc, ofBits_append_singleton, ofBits_append_singleton, ih,
      List.length_append, List.length_singleton, pow_succ]
    ring

theorem ofBits_replicate_false (n : Nat) : ofBits (List.replicate n false) = 0 := by
  induction n with
  | zero => rfl
  | succ n ih => rw [List.replicate_succ', ofBits_append_singleton, ih, coef_false, C_0, mul_zero,
      add_zero]

/-- The polynomial of a bit string, term by term. -/
theorem ofBits_eq_sum (bs : List Bool) :
    ofBits bs = ∑ i ∈ Finset.range bs.length,
      C (coef (bs.getD i false)) * X ^ (bs.length - 1 - i) := by
  induction bs using List.reverseRecOn with
  | nil => simp
  | append_singleton bs b ih =>
    rw [ofBits_append_singleton, List.length_append, List.length_singleton, Finset.sum_range_succ,
      ih, Finset.mul_sum]
    refine congrArg₂ (· + ·) (Finset.sum_congr rfl fun i hi => ?_) ?_
    · have hlt := Finset.mem_range.mp hi
      rw [List.getD_append _ _ _ _ hlt, show bs.length + 1 - 1 - i = bs.length - 1 - i + 1 by omega,
        pow_succ]
      ring
    · simp

/-! ## Registers -/

section register

variable {w : Nat}

/-- The polynomial of a register: bit `i` is the coefficient of `X ^ i`. -/
noncomputable def toPoly (reg : BitVec w) : (ZMod 2)[X] :=
  ∑ i ∈ Finset.range w, C (coef (reg.getLsbD i)) * X ^ i

@[simp] theorem coeff_toPoly (reg : BitVec w) (i : Nat) :
    (toPoly reg).coeff i = coef (reg.getLsbD i) := by
  simp only [toPoly, finsetSum_coeff, coeff_C_mul_X_pow]
  by_cases hi : i < w
  · simp [hi]
  · rw [BitVec.getLsbD_of_ge _ _ (by omega)]
    simp [hi]

theorem toPoly_injective : Function.Injective (toPoly : BitVec w → (ZMod 2)[X]) := by
  intro a b h
  refine BitVec.eq_of_getLsbD_eq fun i _ => coef_injective ?_
  rw [← coeff_toPoly, h, coeff_toPoly]

theorem toPoly_xor (a b : BitVec w) : toPoly (a ^^^ b) = toPoly a + toPoly b := by
  ext i
  rw [coeff_add, coeff_toPoly, coeff_toPoly, coeff_toPoly, BitVec.getLsbD_xor, coef_xor]

@[simp] theorem toPoly_zero : toPoly 0#w = 0 := by
  ext i
  simp

theorem degree_toPoly_lt (reg : BitVec w) : (toPoly reg).degree < w := by
  rw [degree_lt_iff_coeff_zero]
  intro i hi
  rw [coeff_toPoly, BitVec.getLsbD_of_ge _ _ hi, coef_false]

/-- A bit is shifted out at the top and one is shifted in at the bottom. -/
theorem toPoly_shiftConcat (reg : BitVec w) (b : Bool) (hw : 0 < w) :
    toPoly (reg.shiftConcat b) + C (coef reg.msb) * X ^ w = X * toPoly reg + C (coef b) := by
  ext i
  simp only [coeff_add, coeff_toPoly, coeff_C_mul_X_pow, BitVec.getLsbD_shiftConcat,
    BitVec.msb_eq_getLsbD_last]
  cases i with
  | zero =>
    have hne : w ≠ 0 := by omega
    simp [hw, hne.symm]
  | succ i =>
    rw [coeff_X_mul, coeff_toPoly, coeff_C_succ, add_zero]
    rcases Nat.lt_trichotomy (i + 1) w with hlt | heq | hgt
    · simp [hlt, Nat.ne_of_lt hlt]
    · simp [← heq]
    · rw [BitVec.getLsbD_of_ge _ _ (show w ≤ i by omega)]
      simp [show ¬ i + 1 < w by omega, show i + 1 ≠ w by omega]

end register

/-! ## The modulus -/

section modulus

variable {w : Nat}

/-- The polynomial that the feedback taps form. The highest term is not stored. -/
noncomputable def modulus (taps : BitVec w) : (ZMod 2)[X] := X ^ w + toPoly taps

variable {taps reg : BitVec w}

theorem monic_modulus : (modulus taps).Monic := monic_X_pow_add (degree_toPoly_lt taps)

theorem degree_modulus : (modulus taps).degree = w := by
  rw [modulus, degree_add_eq_left_of_degree_lt] <;> rw [degree_X_pow]
  exact degree_toPoly_lt taps

/-- The class of a register. -/
noncomputable def residue (taps reg : BitVec w) : AdjoinRoot (modulus taps) :=
  AdjoinRoot.mk (modulus taps) (toPoly reg)

@[simp] theorem residue_zero : residue taps 0#w = 0 := by
  rw [residue, toPoly_zero, map_zero]

theorem residue_xor (a b : BitVec w) :
    residue taps (a ^^^ b) = residue taps a + residue taps b := by
  rw [residue, toPoly_xor, map_add]
  rfl

/-- A register is the remainder of what it is congruent to. -/
theorem toPoly_eq_modByMonic {p : (ZMod 2)[X]}
    (h : residue taps reg = AdjoinRoot.mk (modulus taps) p) : toPoly reg = p %ₘ modulus taps := by
  rw [← modByMonic_eq_of_dvd_sub monic_modulus (AdjoinRoot.mk_eq_mk.mp h), eq_comm,
    modByMonic_eq_self_iff monic_modulus, degree_modulus]
  exact degree_toPoly_lt reg

theorem residue_injective : Function.Injective (residue taps) := by
  intro a b h
  have hb : residue taps b = AdjoinRoot.mk (modulus taps) (toPoly b) := rfl
  exact toPoly_injective ((toPoly_eq_modByMonic h).trans (toPoly_eq_modByMonic hb).symm)

/-! ## Taking in bits -/

/-- The register takes in a bit. When a bit falls out at the top, the taps are fed back. -/
def shiftIn (taps reg : BitVec w) (b : Bool) : BitVec w :=
  if reg.msb then reg.shiftConcat b ^^^ taps else reg.shiftConcat b

/-- **Taking in a bit multiplies by `X` and adds it.** -/
theorem residue_shiftIn (taps reg : BitVec w) (b : Bool) (hw : 0 < w) :
    residue taps (shiftIn taps reg b)
      = AdjoinRoot.mk (modulus taps) (X * toPoly reg + C (coef b)) := by
  have hshift := toPoly_shiftConcat reg b hw
  unfold residue shiftIn
  split
  · next hmsb =>
    rw [hmsb, coef_true, C_1, one_mul] at hshift
    rw [toPoly_xor, AdjoinRoot.mk_eq_mk, ← hshift, modulus]
    refine ⟨-1, ?_⟩
    have hneg : -toPoly taps = toPoly taps := (eq_neg_of_add_eq_zero_left (add_self _)).symm
    linear_combination (1 : (ZMod 2)[X]) * hneg.symm
  · next hmsb =>
    rw [Bool.not_eq_true] at hmsb
    rw [hmsb, coef_false, C_0, zero_mul, add_zero] at hshift
    rw [hshift]

/-- **Taking in a message.** -/
theorem residue_foldl (taps reg : BitVec w) (bs : List Bool) (hw : 0 < w) :
    residue taps (bs.foldl (shiftIn taps) reg)
      = AdjoinRoot.mk (modulus taps) (toPoly reg * X ^ bs.length + ofBits bs) := by
  induction bs using List.reverseRecOn with
  | nil => simp [residue]
  | append_singleton bs b ih =>
    rw [List.foldl_append, List.foldl_cons, List.foldl_nil, residue_shiftIn _ _ _ hw, map_add,
      map_mul, ← residue, ih, ofBits_append_singleton, List.length_append, List.length_singleton,
      ← map_mul, ← map_add]
    exact congrArg _ (by ring)

/-! ## Multiplication -/

/-- The product of two registers, bit by bit from the top of `b`. -/
def mul (taps a b : BitVec w) : BitVec w :=
  ((List.range w).map b.getMsbD).foldl
    (fun r c => shiftIn taps r false ^^^ if c then a else 0) 0

/-- The bits of a register from the top are its polynomial. -/
theorem ofBits_getMsbD (b : BitVec w) : ofBits ((List.range w).map b.getMsbD) = toPoly b := by
  rw [ofBits_eq_sum, List.length_map, List.length_range, toPoly, ← Finset.sum_range_reflect]
  refine Finset.sum_congr rfl fun i hi => ?_
  have hlt := Finset.mem_range.mp hi
  rw [List.getD_eq_getElem _ _ (by simpa using by omega), List.getElem_map, List.getElem_range,
    BitVec.getMsbD_eq_getLsbD, decide_eq_true (by omega), Bool.true_and,
    show w - 1 - (w - 1 - i) = i by omega]

theorem residue_mul (taps a b : BitVec w) (hw : 0 < w) :
    residue taps (mul taps a b) = residue taps a * residue taps b := by
  have hfold : ∀ bs : List Bool, residue taps
      (bs.foldl (fun r c => shiftIn taps r false ^^^ if c then a else 0) 0)
      = residue taps a * AdjoinRoot.mk (modulus taps) (ofBits bs) := by
    intro bs
    induction bs using List.reverseRecOn with
    | nil => simp
    | append_singleton bs c ih =>
      rw [List.foldl_append, List.foldl_cons, List.foldl_nil, residue_xor, residue_shiftIn _ _ _ hw,
        coef_false, C_0, add_zero, map_mul, ← residue, ih, ofBits_append_singleton, map_add, map_mul,
        mul_add]
      have hbit : residue taps (if c then a else 0)
          = residue taps a * AdjoinRoot.mk (modulus taps) (C (coef c)) := by
        cases c <;> simp
      rw [hbit]
      ring
  rw [mul, hfold, ofBits_getMsbD]
  rfl

/-- `X ^ n` as a register, where `bs` are the binary digits of `n`, highest first. -/
def xPow (taps : BitVec w) (bs : List Bool) : BitVec w :=
  bs.foldl (fun r b => if b then shiftIn taps (mul taps r r) false else mul taps r r) 1

/-- The number with the binary digits `bs`. -/
def ofDigits (bs : List Bool) : Nat := bs.foldl (fun n b => 2 * n + b.toNat) 0

theorem residue_one (taps : BitVec w) (hw : 0 < w) : residue taps 1#w = 1 := by
  have hone : toPoly 1#w = 1 := by
    ext i
    rw [coeff_toPoly, coeff_one]
    rcases i with _ | i <;> simp [hw]
  rw [residue, hone, map_one]

theorem residue_xPow (taps : BitVec w) (bs : List Bool) (hw : 0 < w) :
    residue taps (xPow taps bs) = AdjoinRoot.root (modulus taps) ^ ofDigits bs := by
  induction bs using List.reverseRecOn with
  | nil => simp [xPow, ofDigits, residue_one taps hw]
  | append_singleton bs b ih =>
    have hx : xPow taps (bs ++ [b]) = if b then shiftIn taps (mul taps (xPow taps bs)
        (xPow taps bs)) false else mul taps (xPow taps bs) (xPow taps bs) := by
      simp [xPow]
    have hn : ofDigits (bs ++ [b]) = 2 * ofDigits bs + b.toNat := by simp [ofDigits]
    rw [hx, hn]
    cases b with
    | false =>
      rw [if_neg (by simp), residue_mul _ _ _ hw, ih, ← pow_add, Bool.toNat_false, add_zero, two_mul]
    | true =>
      rw [if_pos rfl, residue_shiftIn _ _ _ hw, coef_false, C_0, add_zero, map_mul, ← residue,
        residue_mul _ _ _ hw, ih, AdjoinRoot.mk_X, ← pow_add, ← pow_succ', Bool.toNat_true, two_mul]

end modulus

end Infra.Gf2
