import Mathlib.Data.List.Basic

/-!
# Runs of a procedure that may fault

A procedure is observed through the events it produces, in order. It either comes back to its
caller or faults on the way (an out-of-bounds access, say); after a fault nothing else happens.
-/

namespace Infra

/-- What a call did, and whether it came back. -/
structure Run (ε : Type*) where
  events : List ε
  returned : Bool

namespace Run

variable {ε δ : Type*}

/-- The call that does nothing. -/
def done : Run ε := ⟨[], true⟩

/-- The call that does `es` and comes back. -/
def emit (es : List ε) : Run ε := ⟨es, true⟩

/-- The call that does `es` and faults. -/
def fault (es : List ε) : Run ε := ⟨es, false⟩

/-- `r`, then `k` if `r` came back. -/
def andThen (r k : Run ε) : Run ε :=
  if r.returned then ⟨r.events ++ k.events, k.returned⟩ else r

/-- The run seen through `f`. -/
def filterMap (f : ε → Option δ) (r : Run ε) : Run δ := ⟨r.events.filterMap f, r.returned⟩

@[ext] theorem ext {r k : Run ε} (he : r.events = k.events) (hr : r.returned = k.returned) :
    r = k := by
  cases r; cases k; simp_all

@[simp] theorem events_done : (done : Run ε).events = [] := rfl
@[simp] theorem returned_done : (done : Run ε).returned = true := rfl
@[simp] theorem events_emit (es : List ε) : (emit es).events = es := rfl
@[simp] theorem returned_emit (es : List ε) : (emit es).returned = true := rfl
@[simp] theorem events_fault (es : List ε) : (fault es).events = es := rfl
@[simp] theorem returned_fault (es : List ε) : (fault es).returned = false := rfl
@[simp] theorem events_filterMap (f : ε → Option δ) (r : Run ε) :
    (r.filterMap f).events = r.events.filterMap f := rfl
@[simp] theorem returned_filterMap (f : ε → Option δ) (r : Run ε) :
    (r.filterMap f).returned = r.returned := rfl

/-! ## `andThen` -/

theorem andThen_of_returned {r : Run ε} (h : r.returned = true) (k : Run ε) :
    r.andThen k = ⟨r.events ++ k.events, k.returned⟩ := by
  simp [andThen, h]

@[simp] theorem andThen_done (r : Run ε) : r.andThen done = r := by
  cases r with
  | mk es b => cases b <;> simp [andThen, done]

@[simp] theorem done_andThen (k : Run ε) : done.andThen k = k := by
  rw [andThen_of_returned returned_done]
  rfl

@[simp] theorem returned_andThen (r k : Run ε) :
    (r.andThen k).returned = (r.returned && k.returned) := by
  cases h : r.returned <;> simp [andThen, h]

@[simp] theorem events_emit_andThen (es : List ε) (k : Run ε) :
    ((emit es).andThen k).events = es ++ k.events := by
  simp [andThen, emit]

theorem events_andThen (r k : Run ε) :
    (r.andThen k).events = r.events ++ if r.returned then k.events else [] := by
  cases h : r.returned <;> simp [andThen, h]

theorem mem_andThen_left {r k : Run ε} {e : ε} (h : e ∈ r.events) : e ∈ (r.andThen k).events := by
  rw [events_andThen]
  exact List.mem_append_left _ h

theorem mem_andThen {r k : Run ε} {e : ε} :
    e ∈ (r.andThen k).events ↔ e ∈ r.events ∨ r.returned = true ∧ e ∈ k.events := by
  rw [events_andThen, List.mem_append]
  cases r.returned <;> simp

theorem andThen_assoc (r k l : Run ε) : (r.andThen k).andThen l = r.andThen (k.andThen l) := by
  cases hr : r.returned <;> cases hk : k.returned <;> simp [andThen, hr, hk]

/-- Looking at a run through `f` commutes with sequencing. -/
@[simp] theorem filterMap_andThen (f : ε → Option δ) (r k : Run ε) :
    (r.andThen k).filterMap f = (r.filterMap f).andThen (k.filterMap f) := by
  cases hr : r.returned <;> simp [andThen, filterMap, hr]

end Run

end Infra
