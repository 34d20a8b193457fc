import CoService.Infra.Resync
import Mathlib.Data.Finset.Card
import Mathlib.Order.Interval.Finset.Nat

/-!
# How often a scanner looks

A rejected frame makes two calls, and both go to the end of the buffer. So the number of headers
looked at may double with every rejected frame.

* `length_run_lt` — fewer than `2 ^ n` visits, when there are `n` headers
* `visits_of_tiled`, `count_revisits` — the bound is reached: when the frames lie one behind the
  other, a frame is looked at `2 ^ k` times, where `k` counts the rejected frames before it
-/

namespace Infra.Scanner

variable {σ : Type*} {S : Scanner σ}

/-- The headers from `pos` on. -/
def headersFrom (S : Scanner σ) (pos : Nat) : Finset Nat :=
  {q ∈ Finset.Ico pos S.stop | S.header q = true}

/-- The headers behind the first one are fewer. -/
theorem card_headersFrom_lt {pos s q : Nat} (h : S.find pos = some s) (hq : s < q) :
    (S.headersFrom q).card < (S.headersFrom pos).card := by
  have hpos := pos_le_of_find h
  refine Finset.card_lt_card (Finset.ssubset_iff_subset_ne.mpr ⟨?_, ?_⟩)
  · intro i hi
    simp only [headersFrom, Finset.mem_filter, Finset.mem_Ico] at hi ⊢
    exact ⟨⟨by omega, hi.1.2⟩, hi.2⟩
  · intro heq
    have hs : s ∈ S.headersFrom pos := by
      simp only [headersFrom, Finset.mem_filter, Finset.mem_Ico]
      exact ⟨⟨hpos, lt_stop_of_find h⟩, header_of_find h⟩
    rw [← heq] at hs
    simp only [headersFrom, Finset.mem_filter, Finset.mem_Ico] at hs
    omega

/-- **Fewer than `2 ^ n` visits, when there are `n` headers.** -/
theorem length_run_lt (st : σ) (pos : Nat) :
    (S.run st pos).events.length < 2 ^ (S.headersFrom pos).card := by
  induction st, pos using S.call_induction with
  | none st pos hs =>
    rw [run_none hs]
    exact Nat.two_pow_pos _
  | fault st pos s hs hv =>
    rw [run_fault hs hv]
    exact Nat.one_lt_two_pow (Nat.ne_zero_of_lt (card_headersFrom_lt hs (Nat.lt_succ_self s)))
  | accept st pos s hs hv ih =>
    have hsize := S.size_pos st s (by simp [hv])
    have hcard := card_headersFrom_lt hs (Nat.lt_add_of_pos_right hsize)
    have hpow := Nat.pow_le_pow_right Nat.two_pos hcard
    rw [run_accept hs hv, Run.events_emit_andThen, List.length_append, List.length_singleton]
    rw [Nat.pow_succ] at hpow
    omega
  | reject st pos s hs hv ih1 ih2 =>
    have hsize := S.size_pos st s (by simp [hv])
    -- each of the two calls finds fewer headers
    have hskip := Nat.pow_le_pow_right Nat.two_pos
      (card_headersFrom_lt hs (Nat.lt_add_of_pos_right S.skip_pos))
    have hnext := Nat.pow_le_pow_right Nat.two_pos
      (card_headersFrom_lt hs (Nat.lt_add_of_pos_right hsize))
    rw [Nat.pow_succ] at hskip hnext
    have hboth : ((S.run (S.child .resync st) (s + S.skip)).andThen
        (S.run (S.child .next st) (s + (S.look st s).size))).events.length
        ≤ (S.run (S.child .resync st) (s + S.skip)).events.length
          + (S.run (S.child .next st) (s + (S.look st s).size)).events.length := by
      rw [Run.events_andThen, List.length_append]
      split
      · exact Nat.le_refl _
      · exact Nat.add_le_add_left (Nat.zero_le _) _
    rw [run_reject hs hv, Run.events_emit_andThen, List.length_append, List.length_singleton]
    omega

/-! ## Frames one behind the other -/

/-- From `pos` on there are the frames at these positions, one behind the other, each with what
looking at it says, in every environment. Inside a rejected one there is no header. -/
inductive Tiled (S : Scanner σ) : Nat → List (Nat × Bool) → Prop
  | nil {pos : Nat} (h : S.find pos = none) : Tiled S pos []
  | cons {pos s size : Nat} {ok : Bool} {tiles : List (Nat × Bool)} (hs : S.find pos = some s)
    (hlook : ∀ st, S.look st s = ⟨size, some ok⟩)
    (hinside : ok = false → S.find (s + S.skip) = S.find (s + size))
    (h : Tiled S (s + size) tiles) : Tiled S pos ((s, ok) :: tiles)

/-- What is looked at, and how it turns out, when the frames lie one behind the other. -/
def revisits : List (Nat × Bool) → List (Nat × Bool)
  | [] => []
  | (s, true) :: tiles => (s, true) :: revisits tiles
  | (s, false) :: tiles => (s, false) :: (revisits tiles ++ revisits tiles)

/-- Only the first header from there on matters. -/
theorem Tiled.congr {pos pos' : Nat} {tiles : List (Nat × Bool)} (h : S.Tiled pos tiles)
    (hfind : S.find pos' = S.find pos) : S.Tiled pos' tiles := by
  cases h with
  | nil hs => exact .nil (hfind.trans hs)
  | cons hs hlook hinside h => exact .cons (hfind.trans hs) hlook hinside h

/-- **The visits of frames that lie one behind the other.** -/
theorem visits_of_tiled {pos : Nat} {tiles : List (Nat × Bool)} (h : S.Tiled pos tiles) (st : σ) :
    (S.run st pos).returned = true ∧
      (S.run st pos).events.map (fun v => (v.start, S.accepts v)) = revisits tiles := by
  induction st, pos using S.call_induction generalizing tiles with
  | none st pos hs =>
    cases h with
    | nil _ =>
      rw [run_none hs]
      exact ⟨rfl, rfl⟩
    | cons hs' _ _ _ => simp [hs] at hs'
  | fault st pos s hs hv =>
    cases h with
    | nil hs' => simp [hs] at hs'
    | cons hs' hlook _ _ =>
      obtain rfl := Option.some.inj (hs.symm.trans hs')
      simp [hlook] at hv
  | accept st pos s hs hv ih =>
    cases h with
    | nil hs' => simp [hs] at hs'
    | @cons _ _ size ok tiles hs' hlook _ h =>
      obtain rfl := Option.some.inj (hs.symm.trans hs')
      obtain rfl : ok = true := by simpa [hlook] using hv
      rw [hlook] at ih
      obtain ⟨hreturned, hevents⟩ := ih h
      rw [run_accept hs hv, hlook, Run.returned_andThen, hreturned, Run.events_emit_andThen,
        List.map_append, hevents]
      exact ⟨rfl, by rw [List.map_singleton, accepts_of_true hv]; rfl⟩
  | reject st pos s hs hv ih1 ih2 =>
    cases h with
    | nil hs' => simp [hs] at hs'
    | @cons _ _ size ok tiles hs' hlook hinside h =>
      obtain rfl := Option.some.inj (hs.symm.trans hs')
      obtain rfl : ok = false := by simpa [hlook] using hv
      rw [hlook] at ih2
      -- both calls find the same frame next
      obtain ⟨hreturned, hevents⟩ := ih1 (h.congr (hinside rfl))
      obtain ⟨hreturned', hevents'⟩ := ih2 h
      rw [run_reject hs hv, hlook, Run.returned_andThen, Run.returned_andThen, hreturned,
        hreturned', Run.events_emit_andThen, Run.andThen_of_returned hreturned, List.map_append,
        List.map_append, hevents, hevents']
      exact ⟨rfl, by rw [List.map_singleton, accepts_of_false hv]; rfl⟩

/-- The frames come in increasing order. -/
theorem Tiled.pairwise {pos : Nat} {tiles : List (Nat × Bool)} (h : S.Tiled pos tiles) (st : σ) :
    (∀ t ∈ tiles, pos ≤ t.1) ∧ tiles.Pairwise fun t t' => t.1 < t'.1 := by
  induction h with
  | nil _ => exact ⟨by simp, List.Pairwise.nil⟩
  | @cons pos s size ok tiles hs hlook _ _ ih =>
    have hpos := pos_le_of_find hs
    have hsize := S.size_pos st s (by simp [hlook])
    rw [hlook] at hsize
    have hbehind : ∀ t ∈ tiles, s < t.1 := fun t ht =>
      Nat.lt_of_lt_of_le (Nat.lt_add_of_pos_right hsize) (ih.1 t ht)
    refine ⟨?_, List.Pairwise.cons hbehind ih.2⟩
    intro t ht
    rcases List.mem_cons.mp ht with rfl | ht
    · exact hpos
    · exact hpos.trans (Nat.le_of_lt (hbehind t ht))

/-- Every frame is looked at. -/
theorem mem_revisits {t : Nat × Bool} {tiles : List (Nat × Bool)} :
    t ∈ revisits tiles ↔ t ∈ tiles := by
  induction tiles with
  | nil => rfl
  | cons u tiles ih =>
    obtain ⟨s, ok⟩ := u
    cases ok with
    | true => rw [revisits, List.mem_cons, List.mem_cons, ih]
    | false => rw [revisits, List.mem_cons, List.mem_cons, List.mem_append, ih, or_self]

/-- A frame is looked at no more often when it comes before the others. -/
theorem count_revisits_of_notMem {s : Nat} {tiles : List (Nat × Bool)}
    (h : ∀ t ∈ tiles, t.1 ≠ s) : ((revisits tiles).map Prod.fst).count s = 0 := by
  rw [List.count_eq_zero, List.mem_map]
  rintro ⟨t, ht, hs⟩
  exact h t (mem_revisits.mp ht) hs

/-- **A frame is looked at `2 ^ k` times**, where `k` counts the rejected frames before it. -/
theorem count_revisits {before after : List (Nat × Bool)} {t : Nat × Bool}
    (h : (before ++ t :: after).Pairwise fun t t' => t.1 < t'.1) :
    ((revisits (before ++ t :: after)).map Prod.fst).count t.1
      = 2 ^ before.countP fun u => !u.2 := by
  induction before with
  | nil =>
    have hafter : ((revisits after).map Prod.fst).count t.1 = 0 :=
      count_revisits_of_notMem fun u hu => Nat.ne_of_gt ((List.pairwise_cons.mp h).1 u hu)
    obtain ⟨s, ok⟩ := t
    cases ok with
    | true => simpa [revisits] using hafter
    | false => simpa [revisits] using hafter
  | cons u before ih =>
    rw [List.cons_append, List.pairwise_cons] at h
    have hne : u.1 ≠ t.1 := Nat.ne_of_lt (h.1 t (by simp))
    have hcount := ih h.2
    obtain ⟨s, ok⟩ := u
    cases ok with
    | true =>
      rw [List.cons_append, revisits, List.map_cons, List.count_cons_of_ne hne, hcount,
        List.countP_cons_of_neg (by simp)]
    | false =>
      rw [List.cons_append, revisits, List.map_cons, List.count_cons_of_ne hne, List.map_append,
        List.count_append, hcount, List.countP_cons_of_pos (by simp), Nat.pow_succ, Nat.mul_two]

/-- When all frames are rejected, the bound is reached. -/
theorem length_revisits {tiles : List (Nat × Bool)} (h : ∀ t ∈ tiles, t.2 = false) :
    (revisits tiles).length + 1 = 2 ^ tiles.length := by
  induction tiles with
  | nil => rfl
  | cons t tiles ih =>
    obtain ⟨s, ok⟩ := t
    obtain rfl : ok = false := h (s, ok) List.mem_cons_self
    have hrest := ih fun t ht => h t (List.mem_cons_of_mem _ ht)
    rw [revisits, List.length_cons, List.length_append, List.length_cons, Nat.pow_succ]
    omega

end Infra.Scanner
