import CoService.Infra.Run
import Mathlib.Data.List.Pairwise
import Mathlib.Data.List.Nodup

/-!
# Scanning for frames with resynchronisation

A buffer holds frames at positions marked by a header. A scanner looks at the first header from
where it stands. If it accepts the frame there, it goes on after it. If it rejects it, it goes on
`skip` positions further **and then again** after the rejected frame, so the two scans may
overlap. This file separates what such a scanner does into the plain descent (`scan`) and the
scans that start after rejected frames (`rescans`), and says exactly when no header is visited
twice (`once_iff`).

What is outside the buffer (memory that the program does not control) enters through the
environment `σ`: every call has one, and a call's two continuations get those of its `child`ren.
-/

namespace Infra

/-! ## The first marked position -/

/-- The first `i` with `pos ≤ i < stop` that `p` marks. -/
def firstFrom (p : Nat → Bool) (pos stop : Nat) : Option Nat :=
  (List.range' pos (stop - pos)).find? p

theorem firstFrom_eq_some {p : Nat → Bool} {pos stop s : Nat} :
    firstFrom p pos stop = some s ↔
      p s = true ∧ pos ≤ s ∧ s < stop ∧ ∀ q, pos ≤ q → q < s → p q = false := by
  unfold firstFrom
  rw [List.find?_range'_eq_some]
  simp only [List.mem_range'_1, Bool.not_eq_true']
  constructor
  · rintro ⟨hp, hs, hq⟩
    exact ⟨hp, hs.1, by omega, hq⟩
  · rintro ⟨hp, hpos, hstop, hq⟩
    exact ⟨hp, ⟨hpos, by omega⟩, hq⟩

theorem firstFrom_eq_none {p : Nat → Bool} {pos stop : Nat} :
    firstFrom p pos stop = none ↔ ∀ q, pos ≤ q → q < stop → p q = false := by
  unfold firstFrom
  rw [List.find?_range'_eq_none]
  simp only [Bool.not_eq_true']
  exact ⟨fun h q hpos hstop => h q hpos (by omega), fun h q hpos hq => h q hpos (by omega)⟩

/-- The search may begin behind positions that are not marked. -/
theorem firstFrom_skip {p : Nat → Bool} {pos pos' stop : Nat} (hle : pos ≤ pos')
    (h : ∀ q, pos ≤ q → q < pos' → p q = false) : firstFrom p pos stop = firstFrom p pos' stop := by
  cases hs : firstFrom p pos' stop with
  | none =>
    rw [firstFrom_eq_none] at hs ⊢
    intro q hq hlt
    by_cases hbefore : q < pos'
    · exact h q hq hbefore
    · exact hs q (Nat.not_lt.mp hbefore) hlt
  | some s =>
    rw [firstFrom_eq_some] at hs ⊢
    obtain ⟨hp, hpos, hstop, hq⟩ := hs
    refine ⟨hp, Nat.le_trans hle hpos, hstop, fun q hq' hlt => ?_⟩
    by_cases hbefore : q < pos'
    · exact h q hq' hbefore
    · exact hq q (Nat.not_lt.mp hbefore) hlt

/-! ## Scanners -/

/-- The two continuations of a call. -/
inductive Branch
  | resync
  | next
deriving DecidableEq, Repr

/-- What looking at a header tells: the frame's declared size and whether the frame is accepted.
There is no verdict when looking faults. -/
structure Look where
  size : Nat
  verdict : Option Bool

structure Scanner (σ : Type*) where
  /-- The positions where a frame may start. -/
  header : Nat → Bool
  /-- Headers are looked for below this position. -/
  stop : Nat
  /-- How far behind a rejected header the scan resumes. -/
  skip : Nat
  look : σ → Nat → Look
  child : Branch → σ → σ
  skip_pos : 0 < skip
  size_pos : ∀ st s, (look st s).verdict ≠ none → 0 < (look st s).size
  /-- Headers do not overlap. -/
  apart : ∀ s q, header s = true → s < q → q < s + skip → header q = false

/-- A header looked at, with the environment of the call that looked. -/
structure Visit (σ : Type*) where
  env : σ
  start : Nat

namespace Scanner

variable {σ : Type*} (S : Scanner σ)

/-- The first header from `pos` on. -/
def find (pos : Nat) : Option Nat := firstFrom S.header pos S.stop

/-- The declared size of the frame that was looked at. -/
def size (v : Visit σ) : Nat := (S.look v.env v.start).size

/-- Where the frame that was looked at ends. -/
def behind (v : Visit σ) : Nat := v.start + S.size v

/-- The frame that was looked at was accepted. -/
def accepts (v : Visit σ) : Bool := (S.look v.env v.start).verdict == some true

variable {S}

theorem pos_le_of_find {pos s : Nat} (h : S.find pos = some s) : pos ≤ s :=
  (firstFrom_eq_some.mp h).2.1

theorem lt_stop_of_find {pos s : Nat} (h : S.find pos = some s) : s < S.stop :=
  (firstFrom_eq_some.mp h).2.2.1

theorem header_of_find {pos s : Nat} (h : S.find pos = some s) : S.header s = true :=
  (firstFrom_eq_some.mp h).1

/-- Where there is a header, the search does not come back empty. -/
theorem find_ne_none {pos q : Nat} (hq : S.header q = true) (hpos : pos ≤ q) (hstop : q < S.stop) :
    S.find pos ≠ none := by
  intro hs
  have hmiss := firstFrom_eq_none.mp hs q hpos hstop
  exact absurd hq (by rw [hmiss]; decide)

/-- The search goes past no header. -/
theorem le_of_find {pos s q : Nat} (h : S.find pos = some s) (hq : S.header q = true)
    (hpos : pos ≤ q) : s ≤ q := by
  by_contra hlt
  have hmiss := (firstFrom_eq_some.mp h).2.2.2 q hpos (Nat.lt_of_not_le hlt)
  exact absurd hq (by rw [hmiss]; decide)

/-- The next header is behind the one found, and does not overlap it. -/
theorem skip_le_of_find {pos s q : Nat} (h : S.find pos = some s) (hq : S.header q = true)
    (hlt : s < q) : s + S.skip ≤ q := by
  by_contra hin
  have hmiss := S.apart s q (header_of_find h) hlt (Nat.lt_of_not_le hin)
  exact absurd hq (by rw [hmiss]; decide)

theorem accepts_of_true {st : σ} {s : Nat} (hv : (S.look st s).verdict = some true) :
    S.accepts ⟨st, s⟩ = true := by
  rw [accepts, hv]
  rfl

theorem accepts_of_false {st : σ} {s : Nat} (hv : (S.look st s).verdict = some false) :
    S.accepts ⟨st, s⟩ = false := by
  rw [accepts, hv]
  rfl

variable (S)

/-! ### Calls

Every function of a call is given by what it is in the four ways a call can go.
-/

/-- The function of calls with the given four cases. -/
def fold {α : Type*} (none : α) (fault : Visit σ → α) (accept : Visit σ → α → α)
    (reject : Visit σ → α → α → α) (st : σ) (pos : Nat) : α :=
  match _hs : S.find pos with
  | .none => none
  | some s =>
    match _hv : (S.look st s).verdict with
    | .none => fault ⟨st, s⟩
    | some true =>
      accept ⟨st, s⟩
        (fold none fault accept reject (S.child .next st) (s + (S.look st s).size))
    | some false =>
      reject ⟨st, s⟩ (fold none fault accept reject (S.child .resync st) (s + S.skip))
        (fold none fault accept reject (S.child .next st) (s + (S.look st s).size))
termination_by S.stop - pos
decreasing_by
  all_goals
    have h1 := pos_le_of_find _hs
    have h2 := lt_stop_of_find _hs
    have h3 := S.skip_pos
    have h4 := S.size_pos st s (by simp [_hv])
    omega

/-- Induction along the calls of a scanner. -/
theorem call_induction {P : σ → Nat → Prop}
    (none : ∀ st pos, S.find pos = none → P st pos)
    (fault : ∀ st pos s, S.find pos = some s → (S.look st s).verdict = .none → P st pos)
    (accept : ∀ st pos s, S.find pos = some s → (S.look st s).verdict = some true →
      P (S.child .next st) (s + (S.look st s).size) → P st pos)
    (reject : ∀ st pos s, S.find pos = some s → (S.look st s).verdict = some false →
      P (S.child .resync st) (s + S.skip) → P (S.child .next st) (s + (S.look st s).size) →
      P st pos)
    (st : σ) (pos : Nat) : P st pos :=
  match hs : S.find pos with
  | .none => none st pos hs
  | some s =>
    match hv : (S.look st s).verdict with
    | .none => fault st pos s hs hv
    | some true => accept st pos s hs hv (call_induction none fault accept reject _ _)
    | some false => reject st pos s hs hv (call_induction none fault accept reject _ _)
        (call_induction none fault accept reject _ _)
termination_by S.stop - pos
decreasing_by
  all_goals
    have h1 := pos_le_of_find hs
    have h2 := lt_stop_of_find hs
    have h3 := S.skip_pos
    have h4 := S.size_pos st s (by simp [hv])
    omega

section fold

variable {S} {α : Type*} {none : α} {fault : Visit σ → α} {accept : Visit σ → α → α}
  {reject : Visit σ → α → α → α} {st : σ} {pos s : Nat}

theorem fold_none (h : S.find pos = .none) : S.fold none fault accept reject st pos = none := by
  rw [fold]
  split <;> simp_all

theorem fold_fault (h : S.find pos = some s) (hv : (S.look st s).verdict = .none) :
    S.fold none fault accept reject st pos = fault ⟨st, s⟩ := by
  rw [fold]
  split
  · simp_all
  · next s' hs' =>
    obtain rfl : s' = s := by simpa [h] using hs'.symm
    split <;> simp_all

theorem fold_accept (h : S.find pos = some s) (hv : (S.look st s).verdict = some true) :
    S.fold none fault accept reject st pos = accept ⟨st, s⟩
      (S.fold none fault accept reject (S.child .next st) (s + (S.look st s).size)) := by
  rw [fold]
  split
  · simp_all
  · next s' hs' =>
    obtain rfl : s' = s := by simpa [h] using hs'.symm
    split <;> simp_all

theorem fold_reject (h : S.find pos = some s) (hv : (S.look st s).verdict = some false) :
    S.fold none fault accept reject st pos = reject ⟨st, s⟩
      (S.fold none fault accept reject (S.child .resync st) (s + S.skip))
      (S.fold none fault accept reject (S.child .next st) (s + (S.look st s).size)) := by
  rw [fold]
  split
  · simp_all
  · next s' hs' =>
    obtain rfl : s' = s := by simpa [h] using hs'.symm
    split <;> simp_all

end fold

/-- The visits of a call, in order. -/
def run : σ → Nat → Run (Visit σ) :=
  S.fold .done (fun v => .fault [v]) (fun v next => (Run.emit [v]).andThen next)
    (fun v resync next => (Run.emit [v]).andThen (resync.andThen next))

/-- The visits of the plain left-to-right scan: the call's descent, which goes on behind an accepted
frame and `skip` further on after a rejected one. -/
def scan : σ → Nat → List (Visit σ) :=
  S.fold [] (fun v => [v]) (fun v next => v :: next) (fun v resync _ => v :: resync)

/-- The calls that the descent leaves behind, after rejected frames, and that still find a header.
They are made in this order, the deepest first. -/
def rescans : σ → Nat → List (σ × Nat) :=
  S.fold [] (fun _ => []) (fun _ next => next) (fun v resync _ =>
    resync ++ if (S.find (S.behind v)).isSome then [(S.child .next v.env, S.behind v)] else [])

variable {S} {st : σ} {pos s : Nat}

theorem run_none (h : S.find pos = none) : S.run st pos = .done := fold_none h

theorem run_fault (h : S.find pos = some s) (hv : (S.look st s).verdict = none) :
    S.run st pos = .fault [⟨st, s⟩] := fold_fault h hv

theorem run_accept (h : S.find pos = some s) (hv : (S.look st s).verdict = some true) :
    S.run st pos = (Run.emit [⟨st, s⟩]).andThen
      (S.run (S.child .next st) (s + (S.look st s).size)) := fold_accept h hv

theorem run_reject (h : S.find pos = some s) (hv : (S.look st s).verdict = some false) :
    S.run st pos = (Run.emit [⟨st, s⟩]).andThen ((S.run (S.child .resync st) (s + S.skip)).andThen
      (S.run (S.child .next st) (s + (S.look st s).size))) := fold_reject h hv

theorem scan_none (h : S.find pos = none) : S.scan st pos = [] := fold_none h

theorem scan_fault (h : S.find pos = some s) (hv : (S.look st s).verdict = none) :
    S.scan st pos = [⟨st, s⟩] := fold_fault h hv

theorem scan_accept (h : S.find pos = some s) (hv : (S.look st s).verdict = some true) :
    S.scan st pos = ⟨st, s⟩ :: S.scan (S.child .next st) (s + (S.look st s).size) :=
  fold_accept h hv

theorem scan_reject (h : S.find pos = some s) (hv : (S.look st s).verdict = some false) :
    S.scan st pos = ⟨st, s⟩ :: S.scan (S.child .resync st) (s + S.skip) := fold_reject h hv

theorem rescans_none (h : S.find pos = none) : S.rescans st pos = [] := fold_none h

theorem rescans_accept (h : S.find pos = some s) (hv : (S.look st s).verdict = some true) :
    S.rescans st pos = S.rescans (S.child .next st) (s + (S.look st s).size) := fold_accept h hv

theorem rescans_reject (h : S.find pos = some s) (hv : (S.look st s).verdict = some false) :
    S.rescans st pos = S.rescans (S.child .resync st) (s + S.skip) ++
      if (S.find (S.behind ⟨st, s⟩)).isSome then
        [(S.child .next st, S.behind ⟨st, s⟩)]
      else [] := fold_reject h hv

/-! ### The scan goes forward -/

theorem pos_le_of_mem_scan {v : Visit σ} (h : v ∈ S.scan st pos) : pos ≤ v.start := by
  induction st, pos using S.call_induction with
  | none st pos hs => simp [scan_none hs] at h
  | fault st pos s hs hv =>
    obtain rfl : v = ⟨st, s⟩ := by simpa [scan_fault hs hv] using h
    exact pos_le_of_find hs
  | accept st pos s hs hv ih =>
    have h1 := pos_le_of_find hs
    rw [scan_accept hs hv, List.mem_cons] at h
    rcases h with rfl | h
    · exact h1
    · have h2 := ih h
      omega
  | reject st pos s hs hv ih _ =>
    have h1 := pos_le_of_find hs
    rw [scan_reject hs hv, List.mem_cons] at h
    rcases h with rfl | h
    · exact h1
    · have h2 := ih h
      omega

theorem header_of_mem_scan {v : Visit σ} (h : v ∈ S.scan st pos) :
    S.header v.start = true ∧ v.start < S.stop := by
  induction st, pos using S.call_induction with
  | none st pos hs => simp [scan_none hs] at h
  | fault st pos s hs hv =>
    obtain rfl : v = ⟨st, s⟩ := by simpa [scan_fault hs hv] using h
    exact ⟨header_of_find hs, lt_stop_of_find hs⟩
  | accept st pos s hs hv ih =>
    rw [scan_accept hs hv, List.mem_cons] at h
    rcases h with rfl | h
    · exact ⟨header_of_find hs, lt_stop_of_find hs⟩
    · exact ih h
  | reject st pos s hs hv ih _ =>
    rw [scan_reject hs hv, List.mem_cons] at h
    rcases h with rfl | h
    · exact ⟨header_of_find hs, lt_stop_of_find hs⟩
    · exact ih h

/-- After an accepted frame the scan visits nothing before that frame's end. -/
theorem scan_pairwise (st : σ) (pos : Nat) :
    (S.scan st pos).Pairwise fun a b =>
      a.start < b.start ∧ (S.accepts a = true → S.behind a ≤ b.start) := by
  induction st, pos using S.call_induction with
  | none st pos hs => simp [scan_none hs]
  | fault st pos s hs hv => simp [scan_fault hs hv]
  | accept st pos s hs hv ih =>
    rw [scan_accept hs hv, List.pairwise_cons]
    refine ⟨fun b hb => ?_, ih⟩
    have h1 := pos_le_of_mem_scan hb
    have h2 := S.size_pos st s (by simp [hv])
    exact ⟨by simp only []; omega, fun _ => h1⟩
  | reject st pos s hs hv ih _ =>
    rw [scan_reject hs hv, List.pairwise_cons]
    refine ⟨fun b hb => ?_, ih⟩
    have h1 := pos_le_of_mem_scan hb
    have h2 := S.skip_pos
    exact ⟨by simp only []; omega, fun ha => by simp [accepts, hv] at ha⟩

/-- No header of the buffer makes looking fault. -/
def Total (S : Scanner σ) : Prop :=
  ∀ st s, S.header s = true → s < S.stop → (S.look st s).verdict ≠ none

theorem Total.of_find (hT : S.Total) (st : σ) (h : S.find pos = some s) :
    (S.look st s).verdict ≠ none :=
  hT st s (header_of_find h) (lt_stop_of_find h)

/-- **A scan misses only the headers inside the frames it accepts.** -/
theorem header_scanned (hT : S.Total) (st : σ) {pos q : Nat} (hq : S.header q = true)
    (hstop : q < S.stop) (hpos : pos ≤ q) :
    (∃ v ∈ S.scan st pos, v.start = q) ∨
      ∃ v ∈ S.scan st pos, S.accepts v = true ∧ v.start < q ∧ q < S.behind v := by
  induction st, pos using S.call_induction with
  | none st pos hs => exact absurd hs (find_ne_none hq hpos hstop)
  | fault st pos s hs hv => exact absurd hv (hT.of_find st hs)
  | accept st pos s hs hv ih =>
    have hle := le_of_find hs hq hpos
    rw [scan_accept hs hv]
    rcases Nat.eq_or_lt_of_le hle with rfl | hlt
    · exact Or.inl ⟨⟨st, s⟩, by simp, rfl⟩
    by_cases hin : q < s + (S.look st s).size
    · exact Or.inr ⟨⟨st, s⟩, by simp, by simp [accepts, hv], hlt, hin⟩
    · rcases ih (by omega) with ⟨v, hv, h⟩ | ⟨v, hv, h⟩
      · exact Or.inl ⟨v, List.mem_cons_of_mem _ hv, h⟩
      · exact Or.inr ⟨v, List.mem_cons_of_mem _ hv, h⟩
  | reject st pos s hs hv ih _ =>
    have hle := le_of_find hs hq hpos
    rw [scan_reject hs hv]
    rcases Nat.eq_or_lt_of_le hle with rfl | hlt
    · exact Or.inl ⟨⟨st, s⟩, by simp, rfl⟩
    -- two headers cannot overlap
    rcases ih (skip_le_of_find hs hq hlt) with ⟨v, hv, h⟩ | ⟨v, hv, h⟩
    · exact Or.inl ⟨v, List.mem_cons_of_mem _ hv, h⟩
    · exact Or.inr ⟨v, List.mem_cons_of_mem _ hv, h⟩

/-- A scan that accepts nothing visits every header from where it starts. -/
theorem header_scanned_of_rejects (hT : S.Total) (hr : ∀ v ∈ S.scan st pos, S.accepts v = false)
    {q : Nat} (hq : S.header q = true) (hstop : q < S.stop) (hpos : pos ≤ q) :
    ∃ v ∈ S.scan st pos, v.start = q := by
  rcases header_scanned hT st hq hstop hpos with h | ⟨v, hv, ha, _⟩
  · exact h
  · simp [hr v hv] at ha

/-- Behind a rejected last visit there is no header. -/
theorem find_of_getLast_rejected (hT : S.Total) {v : Visit σ}
    (hl : (S.scan st pos).getLast? = some v) (hr : S.accepts v = false) {q : Nat}
    (hq : v.start < q) : S.find q = none := by
  rw [find, firstFrom_eq_none]
  intro h hqh hstop
  by_contra hh
  have hmem : v ∈ S.scan st pos := List.mem_of_getLast? hl
  have hpos := pos_le_of_mem_scan hmem
  obtain ⟨l, hsplit⟩ := List.getLast?_eq_some_iff.mp hl
  have hpw := scan_pairwise (S := S) st pos
  rw [hsplit, List.pairwise_append] at hpw
  -- whatever is visited comes no later than `v`
  have hlast : ∀ w ∈ S.scan st pos, w = v ∨ w.start < v.start ∧
      (S.accepts w = true → S.behind w ≤ v.start) := by
    intro w hw
    rw [hsplit, List.mem_append, List.mem_singleton] at hw
    rcases hw with hw | rfl
    · exact Or.inr (hpw.2.2 w hw v (by simp))
    · exact Or.inl rfl
  rcases header_scanned hT st (by simpa using hh) hstop
    (show pos ≤ h by omega) with ⟨w, hw, rfl⟩ | ⟨w, hw, ha, h1, h2⟩
  · rcases hlast w hw with rfl | h3
    · omega
    · omega
  · rcases hlast w hw with rfl | h3
    · simp [hr] at ha
    · have := h3.2 ha
      omega

/-! ### The scan, then the rescans -/

/-- A call of a total scanner comes back. -/
theorem run_returned (hT : S.Total) (st : σ) (pos : Nat) : (S.run st pos).returned = true := by
  induction st, pos using S.call_induction with
  | none st pos hs => simp [run_none hs]
  | fault st pos s hs hv => exact absurd hv (hT.of_find st hs)
  | accept st pos s hs hv ih => simp [run_accept hs hv, ih]
  | reject st pos s hs hv ih1 ih2 => simp [run_reject hs hv, ih1, ih2]

/-- Whatever happens, the visits of a call begin with those of its scan. -/
theorem scan_prefix_run (st : σ) (pos : Nat) : S.scan st pos <+: (S.run st pos).events := by
  induction st, pos using S.call_induction with
  | none st pos hs => simp [scan_none hs]
  | fault st pos s hs hv => simp [scan_fault hs hv, run_fault hs hv]
  | accept st pos s hs hv ih =>
    rw [scan_accept hs hv, run_accept hs hv, Run.events_emit_andThen]
    exact List.cons_prefix_cons.mpr ⟨rfl, ih⟩
  | reject st pos s hs hv ih _ =>
    rw [scan_reject hs hv, run_reject hs hv, Run.events_emit_andThen, Run.events_andThen]
    exact List.cons_prefix_cons.mpr ⟨rfl, ih.trans (List.prefix_append _ _)⟩

/-- **A call is its scan, followed by the rescans.** -/
theorem run_events (hT : S.Total) (st : σ) (pos : Nat) :
    (S.run st pos).events =
      S.scan st pos ++ (S.rescans st pos).flatMap fun q => (S.run q.1 q.2).events := by
  induction st, pos using S.call_induction with
  | none st pos hs => simp [run_none hs, scan_none hs, rescans_none hs]
  | fault st pos s hs hv => exact absurd hv (hT.of_find st hs)
  | accept st pos s hs hv ih =>
    rw [run_accept hs hv, scan_accept hs hv, rescans_accept hs hv, Run.events_emit_andThen, ih]
    rfl
  | reject st pos s hs hv ih _ =>
    rw [run_reject hs hv, scan_reject hs hv, rescans_reject hs hv, Run.events_emit_andThen,
      Run.andThen_of_returned (run_returned hT _ _), ih]
    have hlast : (S.run (S.child .next st) (s + (S.look st s).size)).events =
        (if (S.find (S.behind ⟨st, s⟩)).isSome then [(S.child .next st, S.behind ⟨st, s⟩)]
          else []).flatMap fun q => (S.run q.1 q.2).events := by
      cases hf : S.find (S.behind ⟨st, s⟩) with
      | none =>
        rw [show s + (S.look st s).size = S.behind ⟨st, s⟩ from rfl, run_none hf]
        simp
      | some _ => simp [behind, size]
    rw [hlast]
    simp

theorem find_isSome_of_mem_rescans {q : σ × Nat} (h : q ∈ S.rescans st pos) :
    (S.find q.2).isSome = true := by
  induction st, pos using S.call_induction with
  | none st pos hs => simp [rescans_none hs] at h
  | fault st pos s hs hv =>
    have : S.rescans st pos = [] := fold_fault hs hv
    simp [this] at h
  | accept st pos s hs hv ih => exact ih (by rwa [rescans_accept hs hv] at h)
  | reject st pos s hs hv ih _ =>
    rw [rescans_reject hs hv, List.mem_append] at h
    rcases h with h | h
    · exact ih h
    · split at h
      · next hf =>
        obtain rfl : q = (S.child .next st, S.behind ⟨st, s⟩) := by simpa using h
        exact hf
      · simp at h

/-- A rescan starts behind a visit of the scan. -/
theorem exists_scan_of_mem_rescans {q : σ × Nat} (h : q ∈ S.rescans st pos) :
    ∃ v ∈ S.scan st pos, v.start < q.2 := by
  induction st, pos using S.call_induction with
  | none st pos hs => simp [rescans_none hs] at h
  | fault st pos s hs hv =>
    have : S.rescans st pos = [] := fold_fault hs hv
    simp [this] at h
  | accept st pos s hs hv ih =>
    rw [rescans_accept hs hv] at h
    obtain ⟨v, hm, hlt⟩ := ih h
    exact ⟨v, by rw [scan_accept hs hv]; exact List.mem_cons_of_mem _ hm, hlt⟩
  | reject st pos s hs hv ih _ =>
    rw [rescans_reject hs hv, List.mem_append] at h
    rw [scan_reject hs hv]
    rcases h with h | h
    · obtain ⟨v, hm, hlt⟩ := ih h
      exact ⟨v, List.mem_cons_of_mem _ hm, hlt⟩
    · split at h
      · obtain rfl : q = (S.child .next st, S.behind ⟨st, s⟩) := by simpa using h
        have hpos := S.size_pos st s (by simp [hv])
        exact ⟨⟨st, s⟩, List.mem_cons_self, by simp only [behind, size]; omega⟩
      · simp at h

/-! ### Big-step description of a call

`Returns` and `Examines` say with the search and the verdicts alone which calls come back and which
headers a call gets to look at.
-/

variable (S)

/-- The call comes back. -/
inductive Returns : σ → Nat → Prop
  | none {st : σ} {pos : Nat} : S.find pos = none → Returns st pos
  | accept {st : σ} {pos s : Nat} : S.find pos = some s → (S.look st s).verdict = some true →
      Returns (S.child .next st) (s + (S.look st s).size) → Returns st pos
  | reject {st : σ} {pos s : Nat} : S.find pos = some s → (S.look st s).verdict = some false →
      Returns (S.child .resync st) (s + S.skip) →
      Returns (S.child .next st) (s + (S.look st s).size) → Returns st pos

/-- The call looks at the header of the visit, itself or further down. -/
inductive Examines : σ → Nat → Visit σ → Prop
  | here {st : σ} {pos s : Nat} : S.find pos = some s → Examines st pos ⟨st, s⟩
  | accept {st : σ} {pos s : Nat} {v : Visit σ} :
      S.find pos = some s → (S.look st s).verdict = some true →
      Examines (S.child .next st) (s + (S.look st s).size) v → Examines st pos v
  | resync {st : σ} {pos s : Nat} {v : Visit σ} :
      S.find pos = some s → (S.look st s).verdict = some false →
      Examines (S.child .resync st) (s + S.skip) v → Examines st pos v
  | next {st : σ} {pos s : Nat} {v : Visit σ} :
      S.find pos = some s → (S.look st s).verdict = some false →
      Returns S (S.child .resync st) (s + S.skip) →
      Examines (S.child .next st) (s + (S.look st s).size) v → Examines st pos v

variable {S}

/-- Whatever a call looks at is a header. -/
theorem Examines.header {v : Visit σ} (h : S.Examines st pos v) : S.header v.start = true := by
  induction h with
  | here hs => exact header_of_find hs
  | accept _ _ _ ih => exact ih
  | resync _ _ _ ih => exact ih
  | next _ _ _ _ ih => exact ih

theorem returned_run_iff : (S.run st pos).returned = true ↔ S.Returns st pos := by
  induction st, pos using S.call_induction with
  | none st pos hs => simp [run_none hs, Returns.none hs]
  | fault st pos s hs hv =>
    rw [run_fault hs hv]
    refine ⟨fun h => by simp at h, fun h => ?_⟩
    cases h with
    | none hs' => simp [hs] at hs'
    | accept hs' hv' => simp_all
    | reject hs' hv' => simp_all
  | accept st pos s hs hv ih =>
    rw [run_accept hs hv, Run.returned_andThen, Run.returned_emit, Bool.true_and, ih]
    refine ⟨.accept hs hv, fun h => ?_⟩
    cases h with
    | none hs' => simp [hs] at hs'
    | accept hs' _ h' => obtain rfl := Option.some.inj (hs.symm.trans hs'); exact h'
    | reject hs' hv' => simp_all
  | reject st pos s hs hv ih1 ih2 =>
    rw [run_reject hs hv, Run.returned_andThen, Run.returned_emit, Bool.true_and,
      Run.returned_andThen, Bool.and_eq_true, ih1, ih2]
    refine ⟨fun h => .reject hs hv h.1 h.2, fun h => ?_⟩
    cases h with
    | none hs' => simp [hs] at hs'
    | accept hs' hv' => simp_all
    | reject hs' _ h1 h2 => obtain rfl := Option.some.inj (hs.symm.trans hs'); exact ⟨h1, h2⟩

theorem mem_run_iff {v : Visit σ} : v ∈ (S.run st pos).events ↔ S.Examines st pos v := by
  constructor
  · intro h
    induction st, pos using S.call_induction with
    | none st pos hs => simp [run_none hs] at h
    | fault st pos s hs hv =>
      obtain rfl : v = ⟨st, s⟩ := by simpa [run_fault hs hv] using h
      exact .here hs
    | accept st pos s hs hv ih =>
      rw [run_accept hs hv, Run.events_emit_andThen, List.singleton_append, List.mem_cons] at h
      rcases h with rfl | h
      · exact .here hs
      · exact .accept hs hv (ih h)
    | reject st pos s hs hv ih1 ih2 =>
      rw [run_reject hs hv, Run.events_emit_andThen, List.singleton_append, List.mem_cons,
        Run.mem_andThen] at h
      rcases h with rfl | h | ⟨hr, h⟩
      · exact .here hs
      · exact .resync hs hv (ih1 h)
      · exact .next hs hv (returned_run_iff.mp hr) (ih2 h)
  · intro h
    induction h with
    | @here st pos s hs =>
      cases hv : (S.look st s).verdict with
      | none => simp [run_fault hs hv]
      | some ok =>
        cases ok with
        | true => simp [run_accept hs hv]
        | false => simp [run_reject hs hv]
    | accept hs hv _ ih =>
      rw [run_accept hs hv, Run.events_emit_andThen]
      exact List.mem_cons_of_mem _ ih
    | resync hs hv _ ih =>
      rw [run_reject hs hv, Run.events_emit_andThen]
      exact List.mem_cons_of_mem _ (Run.mem_andThen_left ih)
    | next hs hv hr _ ih =>
      rw [run_reject hs hv, Run.events_emit_andThen]
      exact List.mem_cons_of_mem _ (Run.mem_andThen.mpr (.inr ⟨returned_run_iff.mpr hr, ih⟩))

/-- A call comes back unless one of the headers it looks at makes it fault. -/
theorem returned_iff_forall :
    (S.run st pos).returned = true ↔
      ∀ v ∈ (S.run st pos).events, (S.look v.env v.start).verdict ≠ none := by
  induction st, pos using S.call_induction with
  | none st pos hs => simp [run_none hs]
  | fault st pos s hs hv => simp [run_fault hs hv, hv]
  | accept st pos s hs hv ih => simp [run_accept hs hv, hv, ih]
  | reject st pos s hs hv ih1 ih2 =>
    rw [run_reject hs hv]
    simp only [Run.returned_andThen, Run.returned_emit, Bool.true_and, Bool.and_eq_true,
      Run.events_emit_andThen, List.singleton_append, List.mem_cons, Run.mem_andThen]
    constructor
    · rintro ⟨h1, h2⟩ v (rfl | h | ⟨_, h⟩)
      · simp [hv]
      · exact ih1.mp h1 v h
      · exact ih2.mp h2 v h
    · intro h
      have h1 := ih1.mpr fun v hm => h v (.inr (.inl hm))
      exact ⟨h1, ih2.mpr fun v hm => h v (.inr (.inr ⟨h1, hm⟩))⟩

/-! ### Visiting nothing twice -/

variable (S)

/-- No header is visited twice, and the accepted frames are disjoint and in increasing order. -/
structure Once (vs : List (Visit σ)) : Prop where
  nodup : (vs.map Visit.start).Nodup
  disjoint : (vs.filter S.accepts).Pairwise fun a b => S.behind a ≤ b.start

/-- The rescans of a call do no harm: there are none, or a single one, which begins inside the
frame that the scan accepted last, accepts nothing and leaves no further rescans. -/
def RescansHarmless (st : σ) (pos : Nat) : Prop :=
  S.rescans st pos = [] ∨
    ∃ q, S.rescans st pos = [q] ∧
      (∃ v, (S.scan st pos).getLast? = some v ∧ S.accepts v = true ∧ v.start < q.2) ∧
      (∀ w ∈ S.scan q.1 q.2, S.accepts w = false) ∧
      S.rescans q.1 q.2 = []

variable {S}

/-- A plain scan visits nothing twice. -/
theorem once_scan (st : σ) (pos : Nat) : S.Once (S.scan st pos) where
  nodup := by
    rw [List.Nodup, List.pairwise_map]
    exact (scan_pairwise st pos).imp fun h => Nat.ne_of_lt h.1
  disjoint := by
    have h := (scan_pairwise (S := S) st pos).filter S.accepts
    refine (List.Pairwise.and_mem.mp h).imp ?_
    rintro a b ⟨ha, -, -, hab⟩
    exact hab (List.mem_filter.mp ha).2

/-- A scan that is visited once together with what follows cannot share a start with it. -/
theorem Once.start_ne {vs ws : List (Visit σ)} (h : S.Once (vs ++ ws)) {v w : Visit σ}
    (hv : v ∈ vs) (hw : w ∈ ws) : v.start ≠ w.start := by
  have hn := h.nodup
  rw [List.map_append, List.nodup_append] at hn
  exact hn.2.2 _ (List.mem_map_of_mem hv) _ (List.mem_map_of_mem hw)

theorem Once.behind_le {vs ws : List (Visit σ)} (h : S.Once (vs ++ ws)) {v w : Visit σ}
    (hv : v ∈ vs) (hw : w ∈ ws) (hva : S.accepts v = true) (hwa : S.accepts w = true) :
    S.behind v ≤ w.start := by
  have hd := h.disjoint
  rw [List.filter_append, List.pairwise_append] at hd
  exact hd.2.2 v (List.mem_filter.mpr ⟨hv, hva⟩) w (List.mem_filter.mpr ⟨hw, hwa⟩)

/-- A call that visits nothing twice: its rescans accept nothing, so they visit every header from
where they start. -/
theorem rescan_rejects (hT : S.Total) (h : S.Once (S.run st pos).events) {q : σ × Nat}
    (hq : q ∈ S.rescans st pos) : ∀ w ∈ S.scan q.1 q.2, S.accepts w = false := by
  intro w hw
  rw [run_events hT] at h
  have hw' : w ∈ (S.rescans st pos).flatMap fun q => (S.run q.1 q.2).events :=
    List.mem_flatMap.mpr ⟨q, hq, (scan_prefix_run q.1 q.2).subset hw⟩
  obtain ⟨v0, hv0, hlt⟩ := exists_scan_of_mem_rescans hq
  have hpos := pos_le_of_mem_scan hv0
  have hwpos := pos_le_of_mem_scan hw
  have hwh := header_of_mem_scan hw
  by_contra ha
  have ha : S.accepts w = true := by simpa using ha
  rcases header_scanned hT st hwh.1 hwh.2 (show pos ≤ w.start by omega)
    with ⟨v, hv, he⟩ | ⟨v, hv, hva, _, hlt'⟩
  · exact h.start_ne hv hw' he
  · have := h.behind_le hv hw' hva ha
    omega

/-- The header that a rescan finds, and every later one, is among the visits of the rescan. -/
theorem rescan_visits (hT : S.Total) (h : S.Once (S.run st pos).events) {q : σ × Nat}
    (hq : q ∈ S.rescans st pos) {x : Nat} (hx : S.header x = true) (hstop : x < S.stop)
    (hle : q.2 ≤ x) : ∃ w ∈ S.scan q.1 q.2, w.start = x :=
  header_scanned_of_rejects hT (rescan_rejects hT h hq) hx hstop hle

theorem rescans_unique (hT : S.Total) (h : S.Once (S.run st pos).events) {q : σ × Nat}
    {rest : List (σ × Nat)} (hR : S.rescans st pos = q :: rest) : rest = [] := by
  cases rest with
  | nil => rfl
  | cons q' rest =>
    exfalso
    have hq : q ∈ S.rescans st pos := by simp [hR]
    have hq' : q' ∈ S.rescans st pos := by simp [hR]
    -- both rescans visit the headers from the later of the two starts on
    obtain ⟨x, hx, hstop, hle, hle'⟩ : ∃ x, S.header x = true ∧ x < S.stop ∧ q.2 ≤ x ∧ q'.2 ≤ x := by
      obtain ⟨a, ha⟩ := Option.isSome_iff_exists.mp (find_isSome_of_mem_rescans hq)
      obtain ⟨b, hb⟩ := Option.isSome_iff_exists.mp (find_isSome_of_mem_rescans hq')
      have ha1 := pos_le_of_find ha
      have hb1 := pos_le_of_find hb
      rcases Nat.le_total q.2 q'.2 with hqq | hqq
      · exact ⟨b, header_of_find hb, lt_stop_of_find hb, by omega, hb1⟩
      · exact ⟨a, header_of_find ha, lt_stop_of_find ha, ha1, by omega⟩
    obtain ⟨w, hw, hws⟩ := rescan_visits hT h hq hx hstop hle
    obtain ⟨w', hw', hws'⟩ := rescan_visits hT h hq' hx hstop hle'
    rw [run_events hT, hR, List.flatMap_cons, ← List.append_assoc] at h
    refine h.start_ne (List.mem_append_right _ ((scan_prefix_run q.1 q.2).subset hw)) ?_
      (hws.trans hws'.symm)
    exact List.mem_flatMap.mpr ⟨q', by simp, (scan_prefix_run q'.1 q'.2).subset hw'⟩

theorem rescan_inside_last (hT : S.Total) (h : S.Once (S.run st pos).events) {q : σ × Nat}
    (hq : q ∈ S.rescans st pos) :
    ∃ v, (S.scan st pos).getLast? = some v ∧ S.accepts v = true ∧ v.start < q.2 := by
  obtain ⟨v0, hv0, _⟩ := exists_scan_of_mem_rescans hq
  obtain ⟨v, hv⟩ : ∃ v, (S.scan st pos).getLast? = some v := by
    cases hl : (S.scan st pos).getLast? with
    | some v => exact ⟨v, rfl⟩
    | none => simp [List.getLast?_eq_none_iff.mp hl] at hv0
  have hmem : v ∈ S.scan st pos := List.mem_of_getLast? hv
  have hlt : v.start < q.2 := by
    by_contra hle
    have hvh := header_of_mem_scan hmem
    obtain ⟨w, hw, hws⟩ := rescan_visits hT h hq hvh.1 hvh.2 (by omega)
    rw [run_events hT] at h
    refine h.start_ne hmem ?_ hws.symm
    exact List.mem_flatMap.mpr ⟨q, hq, (scan_prefix_run q.1 q.2).subset hw⟩
  refine ⟨v, hv, ?_, hlt⟩
  -- behind a rejected last visit there would be no header left to find
  by_contra hacc
  have hnone := find_of_getLast_rejected hT hv (by simpa using hacc) hlt
  have hsome := find_isSome_of_mem_rescans hq
  simp [hnone] at hsome

theorem rescans_of_rescan (hT : S.Total) (h : S.Once (S.run st pos).events) {q : σ × Nat}
    (hq : q ∈ S.rescans st pos) : S.rescans q.1 q.2 = [] := by
  cases hR : S.rescans q.1 q.2 with
  | nil => rfl
  | cons q' rest =>
    exfalso
    have hq' : q' ∈ S.rescans q.1 q.2 := by simp [hR]
    obtain ⟨x, hx⟩ := Option.isSome_iff_exists.mp (find_isSome_of_mem_rescans hq')
    have hle : q.2 ≤ x := by
      obtain ⟨v, hv, hlt⟩ := exists_scan_of_mem_rescans hq'
      have h1 := pos_le_of_mem_scan hv
      have h2 := pos_le_of_find hx
      omega
    obtain ⟨w, hw, hws⟩ := rescan_visits hT h hq (header_of_find hx) (lt_stop_of_find hx) hle
    -- the inner rescan visits `x` again
    obtain ⟨w', hw', hws'⟩ : ∃ w' ∈ (S.run q'.1 q'.2).events, w'.start = x := by
      cases hv : (S.look q'.1 x).verdict with
      | none => exact absurd hv (hT.of_find q'.1 hx)
      | some ok =>
        cases ok with
        | true => exact ⟨⟨q'.1, x⟩, by simp [run_accept hx hv], rfl⟩
        | false => exact ⟨⟨q'.1, x⟩, by simp [run_reject hx hv], rfl⟩
    obtain ⟨pre, post, hsplit⟩ := List.append_of_mem hq
    rw [run_events hT, hsplit, List.flatMap_append, List.flatMap_cons, run_events hT q.1 q.2,
      ← List.append_assoc, ← List.append_assoc, ← List.append_assoc, List.append_assoc _ _
        (post.flatMap _)] at h
    refine h.start_ne (List.mem_append_right _ hw) (List.mem_append_left _ ?_) (hws.trans hws'.symm)
    exact List.mem_flatMap.mpr ⟨q', hq', hw'⟩

theorem once_of_rescansHarmless (hT : S.Total) (h : S.RescansHarmless st pos) :
    S.Once (S.run st pos).events := by
  rw [run_events hT]
  rcases h with hR | ⟨q, hR, ⟨v, hv, _, hlt⟩, hrej, hR'⟩
  · simpa [hR] using once_scan st pos
  have hscan := once_scan (S := S) st pos
  have hrun : (S.run q.1 q.2).events = S.scan q.1 q.2 := by
    rw [run_events hT, hR', List.flatMap_nil, List.append_nil]
  rw [hR, List.flatMap_singleton, hrun]
  have hnil : (S.scan q.1 q.2).filter S.accepts = [] := by simpa using hrej
  refine ⟨?_, by rw [List.filter_append, hnil, List.append_nil]; exact hscan.disjoint⟩
  rw [List.map_append, List.nodup_append]
  refine ⟨hscan.nodup, (once_scan q.1 q.2).nodup, ?_⟩
  intro a ha b hb
  obtain ⟨x, hx, rfl⟩ := List.mem_map.mp ha
  obtain ⟨y, hy, rfl⟩ := List.mem_map.mp hb
  have hy1 := pos_le_of_mem_scan hy
  obtain ⟨l, hsplit⟩ := List.getLast?_eq_some_iff.mp hv
  have hpw := scan_pairwise (S := S) st pos
  rw [hsplit, List.pairwise_append] at hpw
  rw [hsplit, List.mem_append, List.mem_singleton] at hx
  rcases hx with hx | rfl
  · have := (hpw.2.2 x hx v (by simp)).1
    omega
  · omega

/-- **When a call visits nothing twice.** -/
theorem once_iff (hT : S.Total) (st : σ) (pos : Nat) :
    S.Once (S.run st pos).events ↔ S.RescansHarmless st pos := by
  refine ⟨fun h => ?_, once_of_rescansHarmless hT⟩
  cases hR : S.rescans st pos with
  | nil => exact Or.inl hR
  | cons q rest =>
    have hq : q ∈ S.rescans st pos := by simp [hR]
    refine Or.inr ⟨q, ?_, rescan_inside_last hT h hq, rescan_rejects hT h hq,
      rescans_of_rescan hT h hq⟩
    rw [hR, rescans_unique hT h hR]

end Scanner

end Infra
