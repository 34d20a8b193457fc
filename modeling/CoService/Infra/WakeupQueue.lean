import CoService.Infra.Transition
import Mathlib.Data.List.TakeWhile

/-!
# A queue that wakes its consumer

A producer enqueues items at any time. A consumer waits for a signal, takes one signal and then takes
items until the queue is empty. A signal is given only when an item comes into an empty queue, and
only after the signals are enabled.

* `taken_append_queue` — every item is taken at most once, in order, and none gets lost
* `taken_eq_enqueued_iff` — a consumer that has nothing more to do has taken everything, exactly if the
  queue was empty when the signals were enabled
* `work_le` — the consumer does not spin
-/

namespace Infra

/-- Where the consumer stands. -/
inductive WakeupPc
  | setup
  | waiting
  | draining
deriving DecidableEq

/-- The items in the queue, and the signals that were given and not yet taken. -/
structure WakeupQueue (α : Type*) where
  pc : WakeupPc
  queue : List α
  signals : Nat

/-- What happens. `take` looks into the queue once. -/
inductive WakeupInput (α : Type*)
  | enqueue (a : α)
  | enable
  | wake
  | take
deriving DecidableEq

namespace WakeupQueue

variable {α : Type*}

def init : WakeupQueue α := ⟨.setup, [], 0⟩

/-- An item comes. -/
def enqueue (s : WakeupQueue α) (a : α) : WakeupQueue α :=
  { s with
    queue := s.queue ++ [a]
    signals := if s.pc ≠ .setup ∧ s.queue.isEmpty then s.signals + 1 else s.signals }

/-- The next item is taken, or there is none and the consumer waits. -/
def take (s : WakeupQueue α) : WakeupQueue α :=
  match s.queue with
  | [] => { s with pc := .waiting }
  | _ :: queue => { s with queue := queue }

def step (s : WakeupQueue α) : WakeupInput α → Option (WakeupQueue α)
  | .enqueue a => some (s.enqueue a)
  | .enable => if s.pc = .setup then some { s with pc := .waiting } else none
  | .wake =>
    if s.pc = .waiting ∧ 0 < s.signals then
      some { s with pc := .draining, signals := s.signals - 1 }
    else none
  | .take => if s.pc = .draining then some s.take else none

/-- Any interleaving of the producer and the consumer. -/
def machine (α : Type*) : Machine (WakeupQueue α) (WakeupInput α) := ⟨init, step⟩

/-- The item that a step takes. -/
def takes (s : WakeupQueue α) : WakeupInput α → List α
  | .take => s.queue.head?.toList
  | _ => []

/-- The items that were taken in a run, in order. -/
def taken (is : List (WakeupInput α)) : List α := (machine α).trace takes is

/-- The items that came. -/
def enqueued (is : List (WakeupInput α)) : List α :=
  is.filterMap fun
    | .enqueue a => some a
    | .enable => none
    | .wake => none
    | .take => none

def isEnable : WakeupInput α → Bool
  | .enqueue _ => false
  | .enable => true
  | .wake => false
  | .take => false

/-- The items that came before the signals were enabled. -/
def early (is : List (WakeupInput α)) : List α := enqueued (is.takeWhile fun i => !isEnable i)

/-- The consumer cannot take a step: it waits, and there is no signal. -/
def Idle (s : WakeupQueue α) : Prop := s.step .wake = none ∧ s.step .take = none

/-- The step is one of the consumer. -/
def isWork : WakeupInput α → Bool
  | .enqueue _ => false
  | .enable => false
  | .wake => true
  | .take => true

variable {is : List (WakeupInput α)} {i : WakeupInput α} {s s' : WakeupQueue α}

/-! ## What a step can do -/

/-- **The steps.** -/
inductive Acts (s : WakeupQueue α) : WakeupInput α → WakeupQueue α → Prop
  | enqueue (a : α) : Acts s (.enqueue a) (s.enqueue a)
  | enable (hpc : s.pc = .setup) : Acts s .enable { s with pc := .waiting }
  | wake (hpc : s.pc = .waiting) (hpos : 0 < s.signals) :
    Acts s .wake { s with pc := .draining, signals := s.signals - 1 }
  | take (hpc : s.pc = .draining) (a : α) (queue : List α) (hqueue : s.queue = a :: queue) :
    Acts s .take { s with queue := queue }
  | stop (hpc : s.pc = .draining) (hqueue : s.queue = []) : Acts s .take { s with pc := .waiting }

theorem step_acts (h : s.step i = some s') : Acts s i s' := by
  cases i with
  | enqueue a =>
    obtain rfl := Option.some.inj h
    exact Acts.enqueue a
  | enable =>
    simp only [step, Option.ite_none_right_eq_some, Option.some.injEq] at h
    obtain ⟨hpc, rfl⟩ := h
    exact Acts.enable hpc
  | wake =>
    simp only [step, Option.ite_none_right_eq_some, Option.some.injEq] at h
    obtain ⟨⟨hpc, hpos⟩, rfl⟩ := h
    exact Acts.wake hpc hpos
  | take =>
    simp only [step, Option.ite_none_right_eq_some, Option.some.injEq] at h
    obtain ⟨hpc, rfl⟩ := h
    rw [take]
    split
    · next hqueue => exact Acts.stop hpc hqueue
    · next a queue hqueue => exact Acts.take hpc a queue hqueue

theorem idle_iff : s.Idle ↔ s.pc ≠ .draining ∧ (s.pc = .waiting → s.signals = 0) := by
  simp only [Idle, step, ite_eq_right_iff, reduceCtorEq, imp_false, not_and, Nat.pos_iff_ne_zero,
    not_not]
  exact And.comm

theorem taken_append_singleton (h : (machine α).run is = some s) (i : WakeupInput α) :
    taken (is ++ [i]) = taken is ++ s.takes i := Machine.trace_append_singleton h i

theorem enqueued_append (is js : List (WakeupInput α)) :
    enqueued (is ++ js) = enqueued is ++ enqueued js := List.filterMap_append ..

/-! ## The items -/

/-- One step keeps the items together. -/
theorem Acts.items (h : Acts s i s') : s.takes i ++ s'.queue = s.queue ++ enqueued [i] := by
  cases h with
  | enqueue a => rfl
  | enable hpc => exact (List.append_nil _).symm
  | wake hpc hpos => exact (List.append_nil _).symm
  | take hpc a queue hqueue => simp [takes, hqueue, enqueued]
  | stop hpc hqueue => simp [takes, hqueue, enqueued]

/-- **Every item that came is taken or still in the queue**, once and in order. -/
theorem taken_append_queue (h : (machine α).run is = some s) :
    taken is ++ s.queue = enqueued is := by
  refine Machine.invariant (P := fun is s => taken is ++ s.queue = enqueued is) rfl ?_ h
  intro is s i s' hrun hitems hs
  rw [taken_append_singleton hrun, List.append_assoc, (step_acts hs).items, ← List.append_assoc,
    hitems, enqueued_append]

/-! ## The signals -/

/-- A consumer that waits while there are items has a signal. -/
def Signalled (s : WakeupQueue α) : Prop := s.pc = .waiting → s.queue ≠ [] → 0 < s.signals

/-- The consumer waits for a signal that never comes. -/
structure Lost (s : WakeupQueue α) : Prop where
  pc : s.pc = .waiting
  queue : s.queue ≠ []
  signals : s.signals = 0

theorem Signalled.acts (h : s.Signalled) (ha : Acts s i s') (hi : i = .enable → s.queue = []) :
    s'.Signalled := by
  cases ha with
  | enqueue a =>
    intro hpc _
    have hpc' : s.pc = .waiting := hpc
    by_cases hqueue : s.queue = []
    · simp [WakeupQueue.enqueue, hpc', hqueue]
    · have hpos := h hpc' hqueue
      simp [WakeupQueue.enqueue, hqueue, hpos]
  | enable hpc => exact fun _ hqueue => absurd (hi rfl) hqueue
  | wake hpc hpos => exact fun hpc' => by simp at hpc'
  | take hpc a queue hqueue => exact fun hpc' => by simp [hpc] at hpc'
  | stop hpc hqueue => exact fun _ hne => absurd hqueue hne

/-- A consumer that has lost its signal does not get another one. -/
theorem Lost.acts (h : s.Lost) (ha : Acts s i s') : s'.Lost ∧ s.takes i = [] := by
  have hwaiting := h.pc
  cases ha with
  | enqueue a => exact ⟨⟨h.pc, by simp [WakeupQueue.enqueue],
      by simp [WakeupQueue.enqueue, h.queue, h.signals]⟩, rfl⟩
  | enable hpc => simp [hpc] at hwaiting
  | wake hpc hpos => exact absurd hpos (by simp [h.signals])
  | take hpc a queue hqueue => simp [hpc] at hwaiting
  | stop hpc hqueue => simp [hpc] at hwaiting

/-- What becomes of the signals depends on what came before they were enabled. -/
inductive Fate (is : List (WakeupInput α)) (s : WakeupQueue α) : Prop
  | setup (hpc : s.pc = .setup) (hsignals : s.signals = 0) (hnew : ∀ i ∈ is, isEnable i = false)
    (htaken : taken is = [])
  | served (hpc : s.pc ≠ .setup) (hmem : ∃ i ∈ is, isEnable i = true) (hearly : early is = [])
    (hsignalled : s.Signalled)
  | lost (hmem : ∃ i ∈ is, isEnable i = true) (hearly : early is ≠ []) (hlost : s.Lost)
    (htaken : taken is = [])

/-- Once the signals are enabled, nothing is early any more. -/
theorem early_append (h : ∃ i ∈ is, isEnable i = true) (js : List (WakeupInput α)) :
    early (is ++ js) = early is := by
  have hne : (is.takeWhile fun i => !isEnable i).length ≠ is.length := by
    intro heq
    obtain ⟨i, hi, hen⟩ := h
    have hself := (List.takeWhile_prefix fun i => !isEnable i).eq_of_length heq
    have hi' := List.takeWhile_eq_self_iff.mp hself i hi
    simp [hen] at hi'
  rw [early, List.takeWhile_append, if_neg hne, early]

theorem early_enable (h : ∀ i ∈ is, isEnable i = false) :
    early (is ++ [.enable]) = enqueued is := by
  have hself : (is.takeWhile fun i => !isEnable i) = is :=
    List.takeWhile_eq_self_iff.mpr fun i hi => by simp [h i hi]
  rw [early, List.takeWhile_append, hself, if_pos rfl]
  simp [isEnable]

theorem Fate.step (h : Fate is s) (hrun : (machine α).run is = some s) (ha : Acts s i s') :
    Fate (is ++ [i]) s' := by
  cases h with
  | setup hpc hsignals hnew htaken =>
    have hqueue : s.queue = enqueued is := by rw [← taken_append_queue hrun, htaken, List.nil_append]
    have htaken' : s.takes i = [] → taken (is ++ [i]) = [] := fun htakes => by
      rw [taken_append_singleton hrun, htaken, htakes, List.nil_append]
    cases ha with
    | enqueue a =>
      refine Fate.setup hpc (by simp [WakeupQueue.enqueue, hpc, hsignals]) (fun j hj => ?_)
        (htaken' rfl)
      rcases List.mem_append.mp hj with hj | hj
      · exact hnew j hj
      · rw [List.mem_singleton.mp hj]
        rfl
    | enable _ =>
      have hmem : ∃ j ∈ is ++ [WakeupInput.enable], isEnable (α := α) j = true :=
        ⟨.enable, by simp, rfl⟩
      have hearly : early (is ++ [.enable]) = s.queue := by rw [early_enable hnew, hqueue]
      by_cases hempty : s.queue = []
      · exact Fate.served (by simp) hmem (hearly.trans hempty) fun _ hne => absurd hempty hne
      · exact Fate.lost hmem (by rwa [hearly]) ⟨rfl, hempty, hsignals⟩ (htaken' rfl)
    | wake hpc' => simp [hpc] at hpc'
    | take hpc' => simp [hpc] at hpc'
    | stop hpc' => simp [hpc] at hpc'
  | served hpc hmem hearly hsignalled =>
    obtain ⟨j, hj, hen⟩ := hmem
    refine Fate.served ?_ ⟨j, List.mem_append_left _ hj, hen⟩ ?_ (hsignalled.acts ha ?_)
    · cases ha <;> simp_all [WakeupQueue.enqueue]
    · rw [early_append ⟨j, hj, hen⟩, hearly]
    · rintro rfl
      cases ha with
      | enable hpc' => exact absurd hpc' hpc
  | lost hmem hearly hlost htaken =>
    obtain ⟨j, hj, hen⟩ := hmem
    obtain ⟨hlost', htakes⟩ := hlost.acts ha
    refine Fate.lost ⟨j, List.mem_append_left _ hj, hen⟩ ?_ hlost' ?_
    · rwa [early_append ⟨j, hj, hen⟩]
    · rw [taken_append_singleton hrun, htaken, htakes]
      rfl

theorem Fate.of_run (h : (machine α).run is = some s) : Fate is s :=
  Machine.invariant (P := Fate) (Fate.setup rfl rfl (by simp) rfl)
    (fun _ _ _ _ hrun hfate hs => hfate.step hrun (step_acts hs)) h

/-- The signals are enabled if the consumer is set up. -/
theorem exists_enable_iff (h : (machine α).run is = some s) :
    (∃ i ∈ is, isEnable i = true) ↔ s.pc ≠ .setup := by
  cases Fate.of_run h with
  | setup hpc _ hnew _ =>
    refine iff_of_false ?_ (not_not.mpr hpc)
    rintro ⟨i, hi, hen⟩
    exact Bool.false_ne_true ((hnew i hi).symm.trans hen)
  | served hpc hmem _ _ => exact iff_of_true hmem hpc
  | lost hmem _ hlost _ => exact iff_of_true hmem (by simp [hlost.pc])

/--
**When everything is taken.**

The signals are enabled and the consumer has nothing more to do. It has taken every item, exactly if
none came before the signals were enabled.
-/
theorem taken_eq_enqueued_iff (h : (machine α).run is = some s) (hpc : s.pc ≠ .setup)
    (hidle : s.Idle) : taken is = enqueued is ↔ early is = [] := by
  have hitems := taken_append_queue h
  obtain ⟨hdraining, hsignals⟩ := idle_iff.mp hidle
  cases Fate.of_run h with
  | setup hpc' _ _ _ => exact absurd hpc' hpc
  | served _ _ hearly hsignalled =>
    have hwaiting : s.pc = .waiting := by
      cases hs : s.pc with
      | setup => exact absurd hs hpc
      | waiting => rfl
      | draining => exact absurd hs hdraining
    have hempty : s.queue = [] := by
      by_contra hne
      exact absurd (hsignalled hwaiting hne) (by simp [hsignals hwaiting])
    rw [hempty, List.append_nil] at hitems
    exact iff_of_true hitems hearly
  | lost _ hearly hlost htaken =>
    refine iff_of_false (fun heq => ?_) hearly
    rw [htaken, List.nil_append] at hitems
    rw [htaken, ← hitems] at heq
    exact hlost.queue heq.symm

/-! ## The work -/

/-- The steps that the consumer can still take. -/
def pending (s : WakeupQueue α) : Nat :=
  2 * s.signals + s.queue.length + if s.pc = .draining then 1 else 0

/-- A step of the consumer uses up one of them, and an item adds three at most. -/
theorem Acts.pending_le (h : Acts s i s') :
    (if isWork i then 1 else 0) + s'.pending ≤ s.pending + 3 * (enqueued [i]).length := by
  cases h with
  | enqueue a =>
    have hsignals : (s.enqueue a).signals ≤ s.signals + 1 := by
      unfold WakeupQueue.enqueue
      simp only []
      split <;> omega
    have hqueue : (s.enqueue a).queue.length = s.queue.length + 1 := by
      simp [WakeupQueue.enqueue]
    have hpc : (s.enqueue a).pc = s.pc := rfl
    simp only [isWork, pending, hqueue, hpc, enqueued, List.filterMap_cons, List.filterMap_nil,
      List.length_cons, List.length_nil, Bool.false_eq_true, if_false]
    omega
  | enable hpc => simp [isWork, pending, enqueued, hpc]
  | wake hpc hpos =>
    simp only [isWork, pending, hpc, enqueued, List.filterMap_cons, List.filterMap_nil,
      List.length_nil, if_true, reduceCtorEq, if_false]
    omega
  | take hpc a queue hqueue =>
    simp only [isWork, pending, hpc, hqueue, enqueued, List.filterMap_cons, List.filterMap_nil,
      List.length_cons, List.length_nil, if_true]
    omega
  | stop hpc hqueue =>
    simp only [isWork, pending, hpc, hqueue, enqueued, List.filterMap_cons, List.filterMap_nil,
      List.length_nil, if_true, reduceCtorEq, if_false]
    omega

/-- **The consumer does not spin**: it takes three steps for an item at most. -/
theorem work_le (h : (machine α).run is = some s) :
    (is.filter isWork).length + s.pending ≤ 3 * (enqueued is).length := by
  refine Machine.invariant
    (P := fun is s => (is.filter isWork).length + s.pending ≤ 3 * (enqueued is).length)
    (Nat.le_refl _) ?_ h
  intro is s i s' _ hle hs
  have hstep := (step_acts hs).pending_le
  have hwork : ([i].filter isWork).length = if isWork i then 1 else 0 := by
    cases hi : isWork i <;> simp [hi]
  rw [List.filter_append, List.length_append, hwork, enqueued_append, List.length_append]
  omega

/-- A step of the consumer by itself. -/
theorem Acts.pending_lt (h : Acts s i s') (hi : isWork i = true) : s'.pending < s.pending := by
  have hle := h.pending_le
  have hnone : enqueued [i] = [] := by cases i <;> simp_all [isWork, enqueued]
  rw [if_pos hi, hnone, List.length_nil] at hle
  omega

/-- A consumer that is not idle can take a step. -/
theorem exists_step_of_not_idle (h : ¬ s.Idle) :
    ∃ i s', isWork i = true ∧ s.step i = some s' := by
  rw [Idle, not_and_or] at h
  rcases h with h | h
  · obtain ⟨s', hs⟩ := Option.ne_none_iff_exists'.mp h
    exact ⟨.wake, s', rfl, hs⟩
  · obtain ⟨s', hs⟩ := Option.ne_none_iff_exists'.mp h
    exact ⟨.take, s', rfl, hs⟩

/-- **By itself the consumer comes to rest.** -/
theorem exists_idle (h : (machine α).run is = some s) :
    ∃ js s', (∀ j ∈ js, isWork j = true) ∧ js.length ≤ s.pending ∧
      (machine α).run (is ++ js) = some s' ∧ s'.Idle := by
  induction hn : s.pending using Nat.strong_induction_on generalizing is s with
  | _ n ih =>
    subst hn
    by_cases hidle : s.Idle
    · exact ⟨[], s, by simp, Nat.zero_le _, by rwa [List.append_nil], hidle⟩
    · obtain ⟨i, s₁, hi, hs⟩ := exists_step_of_not_idle hidle
      have hlt := (step_acts hs).pending_lt hi
      have hrun := Machine.run_append_singleton_eq_some.mpr ⟨s, h, hs⟩
      obtain ⟨js, s', hjs, hlen, hrun', hidle'⟩ := ih _ hlt hrun rfl
      refine ⟨i :: js, s', fun j hj => ?_, ?_, ?_, hidle'⟩
      · rcases List.mem_cons.mp hj with rfl | hj
        · exact hi
        · exact hjs j hj
      · rw [List.length_cons]
        omega
      · rwa [List.append_cons]

/-- Its steps bring no items. -/
theorem enqueued_of_work {js : List (WakeupInput α)} (h : ∀ j ∈ js, isWork j = true) :
    enqueued js = [] := by
  refine List.filterMap_eq_nil_iff.mpr fun j hj => ?_
  have hwork := h j hj
  cases j <;> simp_all [isWork]

end WakeupQueue

end Infra
