import CoService.Infra.Transition

/-!
# Machines made of others

A component of a machine is a machine itself: what `view` shows of each state. A step of the whole is
some steps of the component, those that `inputs` lists, or none.

* `run_trace` — a run of the whole is a run of the component
* `exists_run` — what the component can do next, the whole can do, where nothing keeps it from it

`run_view` and `exists_run_view` are the case where the component takes the same inputs: then `view`
is an abstraction of the machine.

`exists_run` needs `Follows`: from the states in `G` on, the whole has a step for each one of the
component. What the step leaves alone is said by `G`.
-/

namespace Infra.Machine

variable {σ ι σ' ι' : Type*} {M : Machine σ ι} {N : Machine σ' ι'} {view : σ → σ'}
  {inputs : σ → ι → List ι'}

/-- A run, continued. -/
theorem run_append (is js : List ι) :
    M.run (is ++ js) = (M.run is).bind fun s => js.foldlM M.step s := by
  rw [run, List.foldlM_append]
  rfl

/-- What `view` shows of the machine is the machine `N`. -/
structure Component (M : Machine σ ι) (N : Machine σ' ι') (view : σ → σ')
    (inputs : σ → ι → List ι') : Prop where
  init : view M.init = N.init
  step : ∀ is s i s', M.run is = some s → M.step s i = some s' →
    (inputs s i).foldlM N.step (view s) = some (view s')

/-- **A run of the whole is a run of the component.** -/
theorem Component.run_trace (h : Component M N view inputs) {is : List ι} {s : σ}
    (hrun : M.run is = some s) : N.run (M.trace inputs is) = some (view s) := by
  refine invariant (P := fun is s => N.run (M.trace inputs is) = some (view s)) ?_ ?_ hrun
  · rw [trace_nil, run_nil, h.init]
  · intro is s i s' hrun ih hs
    rw [trace_append_singleton hrun, run_append, ih, Option.bind_some]
    exact h.step is s i s' hrun hs

/-- From the states in `G` on, the machine has a step for each step of the component that `A`
allows, and stays in `G`. -/
structure Follows (M : Machine σ ι) (N : Machine σ' ι') (view : σ → σ')
    (inputs : σ → ι → List ι') (G : σ → Prop) (A : ι' → Prop) (lift : ι' → ι) : Prop where
  step : ∀ s j t, G s → A j → N.step (view s) j = some t →
    ∃ s', M.step s (lift j) = some s' ∧ view s' = t ∧ G s'
  inputs : ∀ s j, G s → A j → inputs s (lift j) = [j]

variable {G : σ → Prop} {A : ι' → Prop} {lift : ι' → ι}

/-- **The whole goes on as the component does.** -/
theorem Component.exists_run (h : Component M N view inputs)
    (hf : Follows M N view inputs G A lift) {is : List ι} {s : σ} (hrun : M.run is = some s)
    (hG : G s) {js : List ι'} (hA : ∀ j ∈ js, A j) {t : σ'}
    (ht : N.run (M.trace inputs is ++ js) = some t) :
    ∃ s', M.run (is ++ js.map lift) = some s' ∧ view s' = t ∧ G s' ∧
      M.trace inputs (is ++ js.map lift) = M.trace inputs is ++ js := by
  induction js using List.reverseRecOn generalizing t with
  | nil =>
    have hview := h.run_trace hrun
    rw [List.append_nil, hview] at ht
    refine ⟨s, by simpa using hrun, Option.some.inj ht, hG, by simp⟩
  | append_singleton js j ih =>
    rw [← List.append_assoc, run_append_singleton_eq_some] at ht
    obtain ⟨t₁, ht₁, hstep⟩ := ht
    obtain ⟨s₁, hrun₁, rfl, hG₁, htrace⟩ := ih (fun k hk => hA k (by simp [hk])) ht₁
    have hj := hA j (by simp)
    obtain ⟨s', hs, hview, hG'⟩ := hf.step s₁ j t hG₁ hj hstep
    refine ⟨s', ?_, hview, hG', ?_⟩
    · rw [List.map_append, ← List.append_assoc, List.map_singleton]
      exact run_append_singleton_eq_some.mpr ⟨s₁, hrun₁, hs⟩
    · rw [List.map_append, ← List.append_assoc, List.map_singleton,
        trace_append_singleton hrun₁, htrace, hf.inputs s₁ j hG₁ hj, List.append_assoc]

/-! ## The same inputs -/

/-- A run that goes on puts out its inputs. -/
theorem trace_inputs {is : List ι} {s : σ} (h : M.run is = some s) :
    M.trace (fun _ i => [i]) is = is := by
  refine invariant (P := fun is _ => M.trace (fun _ i => [i]) is = is) rfl ?_ h
  intro is s i _ hrun ih _
  rw [trace_append_singleton hrun, ih]

section

variable {N : Machine σ' ι} {A : ι → Prop}

/-- What takes the same inputs as the machine, is in the same run. -/
theorem Component.run_view (h : Component M N view fun _ i => [i]) {is : List ι} {s : σ}
    (hrun : M.run is = some s) : N.run is = some (view s) := by
  have hview := h.run_trace hrun
  rwa [trace_inputs hrun] at hview

/-- And where nothing keeps the machine from it, it goes on like this. -/
theorem Component.exists_run_view (h : Component M N view fun _ i => [i])
    (hf : Follows M N view (fun _ i => [i]) G A id) {is : List ι} {s : σ}
    (hrun : M.run is = some s) (hG : G s) {js : List ι} (hA : ∀ j ∈ js, A j) {t : σ'}
    (ht : N.run (is ++ js) = some t) : ∃ s', M.run (is ++ js) = some s' ∧ view s' = t ∧ G s' := by
  rw [← trace_inputs hrun] at ht
  obtain ⟨s', hrun', hview, hG', _⟩ := h.exists_run hf hrun hG hA ht
  rw [List.map_id] at hrun'
  exact ⟨s', hrun', hview, hG'⟩

end

end Infra.Machine
