import CoService.Infra.Gf2
import Mathlib.GroupTheory.OrderOfElement

/-!
# Error patterns that a cyclic code detects

An error pattern flips bits of a code word, which adds a sum of powers of `X` to its polynomial.
The error goes unnoticed when that sum is a multiple of the modulus. Which sums are not:

* `not_dvd_of_odd` — an odd number of terms, when 1 is a root of the modulus
* `root_pow_add_eq_zero_iff` — two terms, unless the order of `X` divides their distance
* `not_dvd_of_window` — terms within a window as wide as the register
-/

namespace Infra.Gf2

open Polynomial

variable {w : Nat} {taps : BitVec w} {ι : Type*} {s : Finset ι} {f : ι → Nat}

/-- **An odd number of errors is noticed.** -/
theorem not_dvd_of_odd (hone : (modulus taps).eval 1 = 0) (hodd : Odd s.card) :
    ¬ modulus taps ∣ ∑ i ∈ s, X ^ f i := by
  intro h
  have heval := eval_dvd (x := 1) h
  rw [hone, zero_dvd_iff, eval_finsetSum] at heval
  simp only [eval_pow, eval_X, one_pow, Finset.sum_const, nsmul_eq_mul, mul_one] at heval
  have heven := (ZMod.natCast_eq_zero_iff_even).mp heval
  exact Nat.not_even_iff_odd.mpr hodd heven

/-! ## The order of `X` -/

/-- `X` is invertible when the lowest tap is set. -/
theorem isUnit_root (h0 : taps.getLsbD 0 = true) : IsUnit (AdjoinRoot.root (modulus taps)) := by
  have hw : 0 ≠ w := by
    rintro rfl
    simp at h0
  have hcoeff : (modulus taps).coeff 0 = 1 := by
    rw [modulus, coeff_add, coeff_X_pow, if_neg hw, coeff_toPoly, h0, coef_true, zero_add]
  have hroot : AdjoinRoot.mk (modulus taps) (divX (modulus taps)) * AdjoinRoot.root (modulus taps)
      + 1 = 0 := by
    have hdiv := divX_mul_X_add (modulus taps)
    rw [hcoeff, C_1] at hdiv
    rw [← AdjoinRoot.mk_X, ← map_mul, ← map_one (AdjoinRoot.mk (modulus taps)), ← map_add, hdiv,
      AdjoinRoot.mk_self]
  exact IsUnit.of_mul_eq_one_right _ (add_eq_zero_iff.mp hroot)

/-- Whether a power of `X` is 1 can be computed. -/
theorem root_pow_eq_one_iff (hw : 0 < w) (bs : List Bool) :
    AdjoinRoot.root (modulus taps) ^ ofDigits bs = 1 ↔ xPow taps bs = 1#w := by
  rw [← residue_xPow taps bs hw, ← residue_one taps hw]
  exact residue_injective.eq_iff

/-- **Two errors go unnoticed only at a distance that the order of `X` divides.** -/
theorem root_pow_add_eq_zero_iff (h0 : taps.getLsbD 0 = true) (i j : Nat) :
    AdjoinRoot.root (modulus taps) ^ i + AdjoinRoot.root (modulus taps) ^ j = 0 ↔
      i ≡ j [MOD orderOf (AdjoinRoot.root (modulus taps))] := by
  obtain ⟨u, hu⟩ := isUnit_root h0
  rw [add_eq_zero_iff, ← hu, ← Units.val_pow_eq_pow_val, ← Units.val_pow_eq_pow_val, Units.val_inj,
    orderOf_units]
  exact pow_eq_pow_iff_modEq

/-! ## Bursts -/

theorem coeff_sum_X_pow (hinj : Set.InjOn f s) {i : ι} (hi : i ∈ s) :
    (∑ i ∈ s, (X : (ZMod 2)[X]) ^ f i).coeff (f i) = 1 := by
  rw [finsetSum_coeff, Finset.sum_eq_single_of_mem i hi, coeff_X_pow_self]
  intro j hj hne
  rw [coeff_X_pow, if_neg fun heq => hne (hinj hj hi heq.symm)]

theorem degree_sum_X_pow_lt {n : Nat} (h : ∀ i ∈ s, f i < n) :
    (∑ i ∈ s, (X : (ZMod 2)[X]) ^ f i).degree < n := by
  rw [degree_lt_iff_coeff_zero]
  intro k hk
  rw [finsetSum_coeff]
  refine Finset.sum_eq_zero fun i hi => ?_
  have hlt := h i hi
  rw [coeff_X_pow, if_neg (by omega)]

/-- **Errors within a window as wide as the register are noticed.** -/
theorem not_dvd_of_window (h0 : taps.getLsbD 0 = true) (hs : s.Nonempty) (hinj : Set.InjOn f s)
    {a : Nat} (hwin : ∀ i ∈ s, a ≤ f i ∧ f i < a + w) : ¬ modulus taps ∣ ∑ i ∈ s, X ^ f i := by
  intro h
  -- the window is moved down to the constant term
  have hmove : ∑ i ∈ s, (X : (ZMod 2)[X]) ^ f i = X ^ a * ∑ i ∈ s, X ^ (f i - a) := by
    rw [Finset.mul_sum]
    refine Finset.sum_congr rfl fun i hi => ?_
    rw [← pow_add, Nat.add_sub_cancel' (hwin i hi).1]
  have hzero : AdjoinRoot.mk (modulus taps) (∑ i ∈ s, X ^ (f i - a)) = 0 := by
    rw [hmove, ← AdjoinRoot.mk_eq_zero, map_mul, map_pow, AdjoinRoot.mk_X] at h
    exact ((isUnit_root h0).pow a).mul_right_eq_zero.mp h
  have hdegree : (∑ i ∈ s, (X : (ZMod 2)[X]) ^ (f i - a)).degree < (modulus taps).degree := by
    rw [degree_modulus]
    exact degree_sum_X_pow_lt fun i hi => by have := hwin i hi; omega
  have hsum : ∑ i ∈ s, (X : (ZMod 2)[X]) ^ (f i - a) = 0 := by
    by_contra hne
    exact monic_modulus.not_dvd_of_degree_lt hne hdegree (AdjoinRoot.mk_eq_zero.mp hzero)
  obtain ⟨i, hi⟩ := hs
  have hinj' : Set.InjOn (fun i => f i - a) s := by
    intro j hj k hk heq
    have h1 := (hwin j hj).1
    have h2 := (hwin k hk).1
    exact hinj hj hk (by simp only [] at heq; omega)
  have hcoeff := coeff_sum_X_pow hinj' hi
  rw [hsum] at hcoeff
  simp at hcoeff

end Infra.Gf2
