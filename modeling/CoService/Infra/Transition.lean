import Mathlib.Data.List.Infix

/-!
# Runs of a state machine

A machine starts in its initial state and takes a step for every input. A step that is not possible
there, or that ends the machine, leads to no state. `Machine.run` is the state after a list of
inputs.

An invariant is proved once for a single step and then holds after every run. `invariant` is the
rule; `Along` is for runs whose steps all meet a condition. `trace` is what the steps of a run put
out.
-/

namespace Infra

/-- A deterministic machine with inputs. -/
structure Machine (σ ι : Type*) where
  init : σ
  step : σ → ι → Option σ

namespace Machine

variable {σ ι : Type*} {M : Machine σ ι}

/-- The state after the inputs, if the machine gets there. -/
def run (M : Machine σ ι) (is : List ι) : Option σ := is.foldlM M.step M.init

@[simp] theorem run_nil : M.run [] = some M.init := rfl

theorem run_append_singleton (is : List ι) (i : ι) :
    M.run (is ++ [i]) = (M.run is).bind fun s => M.step s i := by
  simp [run, List.foldlM_append]

/-- The last step of a run. -/
theorem run_append_singleton_eq_some {is : List ι} {i : ι} {s' : σ} :
    M.run (is ++ [i]) = some s' ↔ ∃ s, M.run is = some s ∧ M.step s i = some s' := by
  rw [run_append_singleton, Option.bind_eq_some_iff]

/-- What holds of the inputs and the state they lead to, when it holds initially and every step
keeps it. -/
theorem invariant {P : List ι → σ → Prop} (hinit : P [] M.init)
    (hstep : ∀ is s i s', M.run is = some s → P is s → M.step s i = some s' → P (is ++ [i]) s')
    {is : List ι} {s : σ} (h : M.run is = some s) : P is s := by
  induction is using List.reverseRecOn generalizing s with
  | nil =>
    obtain rfl : M.init = s := by simpa using h
    exact hinit
  | append_singleton is i ih =>
    obtain ⟨s₀, h₀, hs⟩ := run_append_singleton_eq_some.mp h
    exact hstep is s₀ i s h₀ (ih h₀) hs

/-! ## What a run puts out -/

section trace

variable {ω : Type*} {out : σ → ι → List ω}

/-- What the steps from a state on put out, in order. A step that is not possible, or that ends the
machine, puts out what it did on the way. -/
def traceFrom (M : Machine σ ι) (out : σ → ι → List ω) : σ → List ι → List ω
  | _, [] => []
  | s, i :: is =>
    out s i ++ match M.step s i with
      | some s' => M.traceFrom out s' is
      | none => []

/-- What a run puts out. -/
def trace (M : Machine σ ι) (out : σ → ι → List ω) (is : List ι) : List ω :=
  M.traceFrom out M.init is

@[simp] theorem trace_nil : M.trace out [] = [] := rfl

theorem traceFrom_append (s : σ) (is js : List ι) : M.traceFrom out s (is ++ js) =
    M.traceFrom out s is ++ match is.foldlM M.step s with
      | some s' => M.traceFrom out s' js
      | none => [] := by
  induction is generalizing s with
  | nil => rfl
  | cons i is ih =>
    rw [List.cons_append, traceFrom, traceFrom, List.foldlM_cons]
    cases hs : M.step s i with
    | none => simp
    | some s' => simp only [Option.bind_eq_bind, Option.bind_some, ih, List.append_assoc]

/-- One more step. -/
theorem trace_append_singleton {is : List ι} {s : σ} (h : M.run is = some s) (i : ι) :
    M.trace out (is ++ [i]) = M.trace out is ++ out s i := by
  rw [run] at h
  rw [trace, traceFrom_append, h]
  simp only [traceFrom]
  split <;> simp [trace]

/-- What a run puts out, some step put out. -/
theorem exists_of_mem_traceFrom {s : σ} {is : List ι} {w : ω} (h : w ∈ M.traceFrom out s is) :
    ∃ s' i, w ∈ out s' i := by
  induction is generalizing s with
  | nil => simp [traceFrom] at h
  | cons i is ih =>
    rw [traceFrom, List.mem_append] at h
    rcases h with h | h
    · exact ⟨s, i, h⟩
    · split at h
      · exact ih h
      · simp at h

/-- A machine that has ended puts out nothing more. -/
theorem trace_append_of_run_eq_none {is : List ι} (h : M.run is = none) (js : List ι) :
    M.trace out (is ++ js) = M.trace out is := by
  rw [run] at h
  rw [trace, traceFrom_append, h]
  exact List.append_nil _

theorem run_append_of_eq_none {is : List ι} (h : M.run is = none) (js : List ι) :
    M.run (is ++ js) = none := by
  rw [run] at h ⊢
  rw [List.foldlM_append, h]
  rfl

end trace

/-! ## Runs whose steps meet a condition -/

/-- Every step of the run meets `C`, a condition on its input and the state before it. -/
def Along (M : Machine σ ι) (C : σ → ι → Prop) (is : List ι) : Prop :=
  ∀ before i, before ++ [i] <+: is → ∀ s s', M.run before = some s → M.step s i = some s' → C s i

/-- Every state of the run meets `P`. -/
def Always (M : Machine σ ι) (P : σ → Prop) (is : List ι) : Prop :=
  ∀ before, before <+: is → ∀ s, M.run before = some s → P s

variable {C : σ → ι → Prop} {P J : σ → Prop}

theorem Along.of_prefix {is is' : List ι} (h : M.Along C is') (hp : is <+: is') :
    M.Along C is :=
  fun before i hb => h before i (hb.trans hp)

theorem along_append_singleton {is : List ι} {i : ι} :
    M.Along C (is ++ [i]) ↔
      M.Along C is ∧ ∀ s s', M.run is = some s → M.step s i = some s' → C s i := by
  constructor
  · intro h
    exact ⟨h.of_prefix (List.prefix_append is [i]), h is i (List.prefix_refl _)⟩
  · rintro ⟨h, hlast⟩ before j hb
    rcases List.prefix_concat_iff.mp hb with heq | hb
    · obtain ⟨rfl, hj⟩ := List.append_inj' heq rfl
      obtain rfl : j = i := by simpa using hj
      exact hlast
    · exact h before j hb

/-- What holds along the runs whose steps meet `C`. -/
theorem invariant_along (hinit : J M.init)
    (hstep : ∀ s i s', J s → M.step s i = some s' → C s i → J s') {is : List ι} {s : σ}
    (halong : M.Along C is) (h : M.run is = some s) : J s := by
  refine invariant (P := fun is s => M.Along C is → J s) (fun _ => hinit) ?_ h halong
  intro is s i s' hrun ih hs hal
  obtain ⟨h1, h2⟩ := along_append_singleton.mp hal
  exact hstep s i s' (ih h1) hs (h2 s s' hrun hs)

/-- **When `P` holds in every state of a run**: exactly when every step meets `C`, if `C` keeps an
invariant `J` that implies `P`, and a step that ends in `P` meets `C`. -/
theorem always_iff_along (hinit : J M.init) (hJ : ∀ s, J s → P s)
    (hstep : ∀ s i s', J s → M.step s i = some s' → C s i → J s')
    (hconv : ∀ s i s', J s → M.step s i = some s' → P s' → C s i) (is : List ι) :
    M.Always P is ↔ M.Along C is := by
  constructor
  · intro h
    induction is using List.reverseRecOn with
    | nil =>
      intro before i hb
      simp at hb
    | append_singleton is i ih =>
      have hal := ih fun before hb => h before (hb.trans (List.prefix_append is [i]))
      refine along_append_singleton.mpr ⟨hal, fun s s' hrun hs => ?_⟩
      have hnext := run_append_singleton_eq_some.mpr ⟨s, hrun, hs⟩
      exact hconv s i s' (invariant_along hinit hstep hal hrun) hs
        (h _ (List.prefix_refl _) s' hnext)
  · intro h before hb s hrun
    exact hJ s (invariant_along hinit hstep (h.of_prefix hb) hrun)

end Machine

end Infra
