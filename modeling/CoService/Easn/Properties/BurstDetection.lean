import CoService.Easn.Properties.ErrorDetection

/-!
# Which bursts `check_crc` detects

A CRC of 16 bits detects every burst of at most 16 bits, if its own bits follow the covered bits in
the order in which the register would take them in. `fill_crc` stores the high byte first, so at
the boundary between the covered bytes and the CRC the order is broken, and some bursts across it
go unnoticed. `detectsBurst_iff` says for which windows.
-/

namespace Easn

open Infra Infra.Gf2 Crc16 Polynomial

/-- All errors are noticed in a window of at most 16 bits that begins `k` bits before the CRC and
ends behind its first `m` bits. Without the two cases `k = 0` and `m = 0` it reaches across the
boundary. -/
def NoticedWindow (k m : Nat) : Prop := k = 0 ∨ m ≤ 2 ∨ m ≤ 8 ∧ (k ≤ 1 ∨ k + m ≤ 8)

/-! ## Windows that do not reach across -/

section window

variable {n a w : Nat} {E : Finset Nat}

theorem not_dvd_of_exponents (hE : E ⊆ Finset.range (8 * n)) (hs : E.Nonempty) {b : Nat}
    (hwin : ∀ p ∈ E, b ≤ exponent n p ∧ exponent n p < b + 16) :
    ¬ modulus taps ∣ ∑ p ∈ E, X ^ exponent n p :=
  not_dvd_of_window (by decide) hs (exponent_injOn hE) hwin

/-! ## Windows that reach across -/

/-- The coefficients of a multiple of the generator. -/
theorem coeff_modulus_mul (q : (ZMod 2)[X]) (j : Nat) : (modulus taps * q).coeff j
    = (if 16 ≤ j then q.coeff (j - 16) else 0) + (if 15 ≤ j then q.coeff (j - 15) else 0)
      + (if 2 ≤ j then q.coeff (j - 2) else 0) + q.coeff j := by
  rw [modulus_taps, add_mul, add_mul, add_mul, one_mul, coeff_add, coeff_add, coeff_add,
    coeff_X_pow_mul', coeff_X_pow_mul', coeff_X_pow_mul']

/-- A multiple of the generator with coefficients only where a window across the boundary has
them is zero, if the window is a noticed one. -/
theorem eq_zero_of_coeffs {q : (ZMod 2)[X]} {k m : Nat} (hk : 1 ≤ k) (hm : 1 ≤ m)
    (hkm : k + m ≤ 16) (hmul : ∀ j, (modulus taps * q).coeff j ≠ 0 →
      (8 ≤ j + m ∧ j ≤ 7) ∨ (16 ≤ j ∧ j ≤ 15 + k))
    (h : m ≤ 2 ∨ m ≤ 8 ∧ k ≤ 1) : q = 0 := by
  have hz : ∀ j, ¬ ((8 ≤ j + m ∧ j ≤ 7) ∨ (16 ≤ j ∧ j ≤ 15 + k)) →
      (modulus taps * q).coeff j = 0 := fun j hj => by
    by_contra hne
    exact hj (hmul j hne)
  have hdeg : ∀ j, k ≤ j → q.coeff j = 0 := by
    intro j hj
    refine coeff_eq_zero_of_natDegree_lt (lt_of_lt_of_le ?_ hj)
    by_contra hge
    -- the highest coefficient of the product would lie above the window
    have htop := hz (16 + q.natDegree) (by omega)
    rw [coeff_modulus_mul, if_pos (by omega), if_pos (by omega), if_pos (by omega),
      Nat.add_sub_cancel_left, coeff_eq_zero_of_natDegree_lt (n := 16 + q.natDegree - 15) (by omega),
      coeff_eq_zero_of_natDegree_lt (n := 16 + q.natDegree - 2) (by omega),
      coeff_eq_zero_of_natDegree_lt (n := 16 + q.natDegree) (by omega), add_zero, add_zero, add_zero,
      coeff_natDegree, leadingCoeff_eq_zero] at htop
    rw [htop, natDegree_zero] at hge
    omega
  have hstart : ∀ j < 2, j + m < 8 → q.coeff j = 0 := by
    intro j hj hjm
    have hj0 := hz j (by omega)
    rwa [coeff_modulus_mul, if_neg (by omega), if_neg (by omega), if_neg (by omega), zero_add,
      zero_add, zero_add] at hj0
  have hstep : ∀ j, j < 13 → 6 ≤ j ∨ j + 2 + m < 8 → q.coeff (j + 2) = q.coeff j := by
    intro j hj hjm
    have hj0 := hz (j + 2) (by omega)
    rw [coeff_modulus_mul, if_neg (by omega), if_neg (by omega), if_pos (by omega), zero_add,
      zero_add, Nat.add_sub_cancel, add_eq_zero_iff] at hj0
    exact hj0.symm
  have hlast : q.coeff 13 = q.coeff 0 := by
    have h15 := hz 15 (by omega)
    rw [coeff_modulus_mul, if_neg (by omega), if_pos (by omega), if_pos (by omega), hdeg 15 (by omega),
      zero_add, add_zero, add_eq_zero_iff] at h15
    exact h15.symm
  ext j
  rw [coeff_zero]
  rcases h with hm2 | ⟨_, hk1⟩
  · have h0 := hstart 0 (by omega) (by omega)
    have h1 := hstart 1 (by omega) (by omega)
    have h2 := (hstep 0 (by omega) (by omega)).trans h0
    have h3 := (hstep 1 (by omega) (by omega)).trans h1
    have h4 := (hstep 2 (by omega) (by omega)).trans h2
    have h5 := (hstep 3 (by omega) (by omega)).trans h3
    -- the coefficients from 6 on are two constants, and both chains end in a zero
    have h13 := hlast.trans h0
    have h11 := (hstep 11 (by omega) (by omega)).symm.trans h13
    have h9 := (hstep 9 (by omega) (by omega)).symm.trans h11
    have h7 := (hstep 7 (by omega) (by omega)).symm.trans h9
    have h6 : q.coeff 6 = 0 := by
      rcases Nat.lt_or_ge m 2 with hlt | hge
      · exact (hstep 4 (by omega) (by omega)).trans h4
      · have h12 := (hstep 12 (by omega) (by omega)).symm.trans (hdeg 14 (by omega))
        have h10 := (hstep 10 (by omega) (by omega)).symm.trans h12
        have h8 := (hstep 8 (by omega) (by omega)).symm.trans h10
        exact (hstep 6 (by omega) (by omega)).symm.trans h8
    have h8 := (hstep 6 (by omega) (by omega)).trans h6
    have h10 := (hstep 8 (by omega) (by omega)).trans h8
    have h12 := (hstep 10 (by omega) (by omega)).trans h10
    have h14 := (hstep 12 (by omega) (by omega)).trans h12
    rcases Nat.lt_or_ge j 15 with hj | hj
    · interval_cases j <;> assumption
    · exact hdeg j (by omega)
  · cases j with
    | zero => exact hlast.symm.trans (hdeg 13 (by omega))
    | succ j => exact hdeg (j + 1) (by omega)

/-- The powers of `X` of a window across the boundary: the covered bits stand above 16, the bits of
the first byte of the CRC below 8. -/
theorem exponent_across {k m p : Nat} (hn : 3 ≤ n) (hm : m ≤ 8)
    (hp : 8 * (n - 2) ≤ p + k ∧ p < 8 * (n - 2) + m) :
    (8 ≤ exponent n p + m ∧ exponent n p ≤ 7) ∨ (16 ≤ exponent n p ∧ exponent n p ≤ 15 + k) := by
  unfold exponent
  split_ifs <;> omega

theorem not_dvd_across {k m : Nat} (hn : 3 ≤ n) (hk : 1 ≤ k) (hm : 1 ≤ m) (hkm : k + m ≤ 16)
    (h : NoticedWindow k m) (hE : E ⊆ Finset.range (8 * n)) (hs : E.Nonempty)
    (hwin : ∀ p ∈ E, 8 * (n - 2) ≤ p + k ∧ p < 8 * (n - 2) + m) :
    ¬ modulus taps ∣ ∑ p ∈ E, X ^ exponent n p := by
  have hm8 : m ≤ 8 := by
    unfold NoticedWindow at h
    omega
  by_cases hshort : k + m ≤ 8
  · refine not_dvd_of_exponents (b := 8 - m) hE hs fun p hp => ?_
    have := exponent_across hn hm8 (hwin p hp)
    omega
  · rintro ⟨q, hq⟩
    have hzero : q = 0 := by
      refine eq_zero_of_coeffs hk hm hkm (fun j hj => ?_) ?_
      · rw [← hq, finsetSum_coeff] at hj
        obtain ⟨p, hp, hne⟩ := Finset.exists_ne_zero_of_sum_ne_zero hj
        rw [coeff_X_pow] at hne
        obtain rfl : j = exponent n p := by
          by_contra hne'
          exact hne (if_neg hne')
        exact exponent_across hn hm8 (hwin p hp)
      · unfold NoticedWindow at h
        omega
    obtain ⟨p, hp⟩ := hs
    have hcoeff := coeff_sum_X_pow (exponent_injOn hE) hp
    rw [hq, hzero, mul_zero, coeff_zero] at hcoeff
    exact absurd hcoeff (by decide)

/-! ## Bursts that go unnoticed -/

/-- Four bits across the boundary that stand for a multiple of the generator. -/
def unnoticed (n s : Nat) : Finset Nat :=
  {8 * (n - 2) - 1 - s, if s = 0 then 8 * (n - 2) + 8 else 8 * (n - 2) - s,
    8 * (n - 2) + 5 - s, 8 * (n - 2) + 7 - s}

theorem dvd_unnoticed {s : Nat} (hn : 3 ≤ n) (hs : s ≤ 5) :
    modulus taps ∣ ∑ p ∈ unnoticed n s, X ^ exponent n p := by
  have h16 : exponent n (8 * (n - 2) - 1 - s) = 16 + s := by
    unfold exponent
    split_ifs <;> omega
  have h15 : exponent n (if s = 0 then 8 * (n - 2) + 8 else 8 * (n - 2) - s) = 15 + s := by
    unfold exponent
    split_ifs <;> omega
  have h2 : exponent n (8 * (n - 2) + 5 - s) = 2 + s := by
    unfold exponent
    split_ifs <;> omega
  have h0 : exponent n (8 * (n - 2) + 7 - s) = s := by
    unfold exponent
    split_ifs <;> omega
  refine ⟨X ^ s, ?_⟩
  rw [unnoticed, Finset.sum_insert, Finset.sum_insert, Finset.sum_pair, h16, h15, h2, h0,
    modulus_taps]
  · ring
  · omega
  · simp only [Finset.mem_insert, Finset.mem_singleton]
    split_ifs <;> omega
  · simp only [Finset.mem_insert, Finset.mem_singleton]
    split_ifs <;> omega

end window

/-- **Which bursts are detected.** All those in a window of at most 16 bits, if the window does not
reach across the boundary between the covered bytes and the CRC, or reaches across in one of the
ways of `NoticedWindow`. -/
theorem detectsBurst_iff (n a w : Nat) (hn : 3 ≤ n) (hw : w ≤ 16) (haw : a + w ≤ 8 * n) :
    (∀ (frame : List UInt8) (E : Finset Nat), frame.length = n → checkCrc frame n = some true →
      E.Nonempty → (∀ p ∈ E, a ≤ p ∧ p < a + w) → checkCrc (flipBits E frame) n = some false) ↔
      NoticedWindow (8 * (n - 2) - a) (a + w - 8 * (n - 2)) := by
  constructor
  · intro h
    by_contra hnot
    obtain ⟨s, hs, hk, hm, hs0⟩ : ∃ s ≤ 5, a + s + 1 ≤ 8 * (n - 2) ∧ 8 * n ≤ a + w + s + 8 ∧
        (s = 0 → 8 * n ≤ a + w + 7) := by
      unfold NoticedWindow at hnot
      by_cases h9 : 8 * n ≤ a + w + 7
      · exact ⟨0, by omega, by omega, by omega, fun _ => h9⟩
      · exact ⟨max 1 (8 * n - 8 - (a + w)), by omega, by omega, by omega, by omega⟩
    have hwin : ∀ p ∈ unnoticed n s, a ≤ p ∧ p < a + w := by
      intro p hp
      simp only [unnoticed, Finset.mem_insert, Finset.mem_singleton] at hp
      split_ifs at hp <;> omega
    have hE : unnoticed n s ⊆ Finset.range (8 * n) := by
      intro p hp
      have := hwin p hp
      rw [Finset.mem_range]
      omega
    obtain ⟨frame, hlen, hcrc⟩ := exists_frame (show 2 ≤ n by omega)
    have hfalse := h frame (unnoticed n s) hlen hcrc ⟨_, Finset.mem_insert_self ..⟩ hwin
    rw [(checkCrc_flipBits_iff hlen hcrc hE).mpr (dvd_unnoticed hn hs)] at hfalse
    simp at hfalse
  · intro h frame E hlen hcrc hs hwin
    have hE : E ⊆ Finset.range (8 * n) := by
      intro p hp
      have := hwin p hp
      rw [Finset.mem_range]
      omega
    refine checkCrc_eq_false hcrc E fun htrue => ?_
    have hdvd := (checkCrc_flipBits_iff hlen hcrc hE).mp htrue
    rcases Nat.lt_or_ge a (8 * (n - 2)) with hbefore | hcrcOnly
    · rcases Nat.lt_or_ge (8 * (n - 2)) (a + w) with hacross | hcovered
      · refine not_dvd_across hn (by omega) (by omega) (by omega) h hE hs (fun p hp => ?_) hdvd
        have := hwin p hp
        omega
      · refine not_dvd_of_exponents (b := 8 * n - (a + w)) hE hs (fun p hp => ?_) hdvd
        have := hwin p hp
        unfold exponent
        split_ifs <;> omega
    · refine not_dvd_of_exponents (b := 0) hE hs (fun p hp => ?_) hdvd
      have := hwin p hp
      unfold exponent
      split_ifs <;> omega

/-- A window of 8 bits in a frame of 12 bytes: 4 of them are covered, and 4 are bits of the CRC. -/
theorem detectsBurst_iff_across :
    (∀ (frame : List UInt8) (E : Finset Nat), frame.length = 12 → checkCrc frame 12 = some true →
      E.Nonempty → (∀ p ∈ E, 76 ≤ p ∧ p < 76 + 8) → checkCrc (flipBits E frame) 12 = some false) ↔
      NoticedWindow (8 * (12 - 2) - 76) (76 + 8 - 8 * (12 - 2)) :=
  detectsBurst_iff 12 76 8 (by decide) (by decide) (by decide)

/-- Four flipped bits within nine turn a frame into another one, over the boundary to the CRC. -/
theorem not_detectsBurst :
    ¬ ∀ (n a : Nat) (frame : List UInt8) (E : Finset Nat), 3 ≤ n → frame.length = n →
      checkCrc frame n = some true → E.Nonempty → a + 16 ≤ 8 * n → (∀ p ∈ E, a ≤ p ∧ p < a + 16) →
      checkCrc (flipBits E frame) n = some false := by
  intro h
  have hfalse := h 12 72 [0xaa, 0x55, 0x01, 0x00, 0x00, 0x00, 0x01, 0x00, 0x0c, 0x00, 0xc1, 0x20]
    {78, 79, 84, 86} (by decide) rfl (by decide +kernel) ⟨78, by decide⟩ (by decide)
    (by decide)
  revert hfalse
  decide +kernel

end Easn
