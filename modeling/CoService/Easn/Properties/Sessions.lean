import CoService.Easn.ClientManager
import CoService.Infra.Transition
import Mathlib.Data.List.Nodup

/-!
# Are sessions told apart by their `sid`?

`new_connection` takes the clock reading in milliseconds as the key and does not look at whether
`insert` took the new entry. Two connections of one millisecond get the same `sid`: the second is
not in the map, and removing it frees the first.

`sessionIdentity_iff` says that this is all that goes wrong. The invariant is `Table.Inv`: the map
holds exactly the live sessions.
-/

namespace Easn

open Infra

/-- A session that was created and not removed: its cell and the `sid` it was given. -/
structure Live where
  ptr : Ptr
  sid : UInt64
deriving DecidableEq

/-- A call of `client_manager`, with what the clock and `malloc` say to it. -/
inductive Call
  | newConnection (tv : Timeval) (p : Ptr) (socketFd : Int)
  | getConnection (sid : UInt64)
  | removeConnection (c : Live)

/-- The clock reading of a call. -/
def Call.reading : Call → Option UInt64
  | .newConnection tv _ _ => some (timestamp tv)
  | _ => none

/-- `client_manager`, and which sessions are live. -/
structure Table where
  manager : ClientManager
  live : List Live

/-- One call. `malloc` returns a cell that is not in use, and only live sessions are removed. -/
def Table.step (t : Table) : Call → Option Table
  | .newConnection tv p socketFd =>
    if t.manager.heap p = none then
      some ⟨t.manager.newConnection tv p socketFd, ⟨p, timestamp tv⟩ :: t.live⟩
    else none
  | .getConnection _ => some t
  | .removeConnection c =>
    if c ∈ t.live then some ⟨t.manager.removeConnection c.sid, t.live.erase c⟩ else none

/-- Sequences of calls. -/
def Table.machine : Machine Table Call := ⟨⟨.init, []⟩, Table.step⟩

/-- `get_connection(c->sid)` returns `c`. -/
def Retrievable (m : ClientManager) (c : Live) : Prop :=
  m.getConnection c.sid = some c.ptr ∧ (m.heap c.ptr).map EasnConnT.sid = some c.sid

/-- The live sessions have different sids, each is retrievable under its own, and removing one
removes it and no other. -/
structure SessionIdentity (t : Table) : Prop where
  sids_nodup : (t.live.map Live.sid).Nodup
  retrievable : ∀ c ∈ t.live, Retrievable t.manager c
  removed : ∀ c ∈ t.live, (t.manager.removeConnection c.sid).getConnection c.sid = none ∧
    (t.manager.removeConnection c.sid).heap c.ptr = none
  others : ∀ c ∈ t.live, ∀ c' ∈ t.live, c' ≠ c →
    Retrievable (t.manager.removeConnection c.sid) c'

/-- The map holds exactly the live sessions, each under a key of its own. -/
structure Table.Inv (t : Table) : Prop where
  sids_nodup : (t.live.map Live.sid).Nodup
  entries : ∀ sid p, t.manager.getConnection sid = some p → ⟨p, sid⟩ ∈ t.live
  retrievable : ∀ c ∈ t.live, Retrievable t.manager c

namespace Table.Inv

variable {t : Table} {c c' : Live}

theorem eq_of_sid (h : t.Inv) (hc : c ∈ t.live) (hc' : c' ∈ t.live) (heq : c.sid = c'.sid) :
    c = c' :=
  List.inj_on_of_nodup_map h.sids_nodup hc hc' heq

/-- Two sessions do not share a cell. -/
theorem eq_of_ptr (h : t.Inv) (hc : c ∈ t.live) (hc' : c' ∈ t.live) (heq : c.ptr = c'.ptr) :
    c = c' := by
  refine h.eq_of_sid hc hc' ?_
  have h1 := (h.retrievable c hc).2
  have h2 := (h.retrievable c' hc').2
  rw [heq, h2] at h1
  exact (Option.some.inj h1).symm

/-- Removing a session leaves the others alone. -/
theorem retrievable_removeConnection (h : t.Inv) (hc : c ∈ t.live) (hc' : c' ∈ t.live)
    (hne : c' ≠ c) : Retrievable (t.manager.removeConnection c.sid) c' := by
  have hsid : c'.sid ≠ c.sid := fun heq => hne (h.eq_of_sid hc' hc heq)
  have hptr : c'.ptr ≠ c.ptr := fun heq => hne (h.eq_of_ptr hc' hc heq)
  rw [Retrievable, ClientManager.getConnection_removeConnection, if_neg hsid,
    ClientManager.heap_removeConnection (h.retrievable c hc).1, if_neg hptr]
  exact h.retrievable c' hc'

theorem toSessionIdentity (h : t.Inv) : SessionIdentity t where
  sids_nodup := h.sids_nodup
  retrievable := h.retrievable
  removed c hc := by
    rw [ClientManager.getConnection_removeConnection, if_pos rfl,
      ClientManager.heap_removeConnection (h.retrievable c hc).1, if_pos rfl]
    exact ⟨rfl, rfl⟩
  others _ hc _ hc' hne := h.retrievable_removeConnection hc hc' hne

theorem init : Table.machine.init.Inv where
  sids_nodup := List.nodup_nil
  entries sid p h := by simp [Table.machine] at h
  retrievable c hc := by simp [Table.machine] at hc

/-- A new session under a free key. -/
theorem newConnection (h : t.Inv) {tv : Timeval} {p : Ptr} {fd : Int}
    (hp : t.manager.heap p = none) (hfresh : ∀ c ∈ t.live, c.sid ≠ timestamp tv) :
    Table.Inv ⟨t.manager.newConnection tv p fd, ⟨p, timestamp tv⟩ :: t.live⟩ := by
  have hfree : t.manager.getConnection (timestamp tv) = none := by
    by_contra hne
    obtain ⟨q, hq⟩ := Option.ne_none_iff_exists'.mp hne
    exact hfresh _ (h.entries _ _ hq) rfl
  refine ⟨?_, ?_, ?_⟩
  · rw [List.map_cons, List.nodup_cons]
    refine ⟨?_, h.sids_nodup⟩
    intro hmem
    obtain ⟨c, hc, heq⟩ := List.mem_map.mp hmem
    exact hfresh c hc heq
  · intro sid q hq
    rw [ClientManager.getConnection_newConnection] at hq
    split at hq
    · next hs =>
      obtain rfl : p = q := by simpa using hq
      rw [hs.1]
      exact List.mem_cons_self
    · exact List.mem_cons_of_mem _ (h.entries sid q hq)
  · intro c hc
    rcases List.mem_cons.mp hc with rfl | hc
    · rw [Retrievable, ClientManager.getConnection_newConnection, if_pos ⟨rfl, hfree⟩,
        ClientManager.heap_newConnection_self]
      exact ⟨rfl, rfl⟩
    · have hne : c.ptr ≠ p := by
        intro heq
        have hcell := (h.retrievable c hc).2
        simp [heq, hp] at hcell
      rw [Retrievable, ClientManager.getConnection_newConnection,
        if_neg (fun hs => hfresh c hc hs.1), ClientManager.heap_newConnection_of_ne hne]
      exact h.retrievable c hc

theorem removeConnection (h : t.Inv) (hc : c ∈ t.live) :
    Table.Inv ⟨t.manager.removeConnection c.sid, t.live.erase c⟩ := by
  have hmem : ∀ c', c' ∈ t.live.erase c ↔ c' ≠ c ∧ c' ∈ t.live := fun c' =>
    (List.Nodup.of_map _ h.sids_nodup).mem_erase_iff
  refine ⟨h.sids_nodup.sublist (List.erase_sublist.map _), ?_, ?_⟩
  · intro sid p hp
    rw [ClientManager.getConnection_removeConnection] at hp
    split at hp
    · simp at hp
    · next hne =>
      refine (hmem _).mpr ⟨?_, h.entries sid p hp⟩
      intro heq
      exact hne (congrArg Live.sid heq)
  · intro c' hc'
    obtain ⟨hne, hc'⟩ := (hmem c').mp hc'
    exact h.retrievable_removeConnection hc hc' hne

end Table.Inv

/-- The clock does not show the `sid` of a live session when a new one is created. -/
def FreshSid (t : Table) : Call → Prop
  | .newConnection tv _ _ => ∀ c ∈ t.live, c.sid ≠ timestamp tv
  | _ => True

theorem Table.Inv.step {t t' : Table} {call : Call} (h : t.Inv) (hs : t.step call = some t')
    (hfresh : FreshSid t call) : t'.Inv := by
  cases call with
  | newConnection tv p fd =>
    simp only [Table.step, Option.ite_none_right_eq_some, Option.some.injEq] at hs
    obtain ⟨hp, rfl⟩ := hs
    exact h.newConnection hp hfresh
  | getConnection sid =>
    obtain rfl : t = t' := by simpa [Table.step] using hs
    exact h
  | removeConnection c =>
    simp only [Table.step, Option.ite_none_right_eq_some, Option.some.injEq] at hs
    obtain ⟨hc, rfl⟩ := hs
    exact h.removeConnection hc

/-- A session that is created under the `sid` of a live one is not told apart from it. -/
theorem freshSid_of_sessionIdentity {t t' : Table} {call : Call} (hs : t.step call = some t')
    (h : SessionIdentity t') : FreshSid t call := by
  cases call with
  | newConnection tv p fd =>
    simp only [Table.step, Option.ite_none_right_eq_some, Option.some.injEq] at hs
    obtain ⟨_, rfl⟩ := hs
    intro c hc heq
    have hnodup := h.sids_nodup
    rw [List.map_cons, List.nodup_cons] at hnodup
    exact hnodup.1 (List.mem_map.mpr ⟨c, hc, heq⟩)
  | getConnection sid => trivial
  | removeConnection c => trivial

/-- **When sessions are told apart**: in every state of a run exactly if the clock never shows the
`sid` of a live session to `new_connection`. -/
theorem sessionIdentity_iff (calls : List Call) :
    Table.machine.Always SessionIdentity calls ↔ Table.machine.Along FreshSid calls :=
  Machine.always_iff_along Table.Inv.init (fun _ h => h.toSessionIdentity)
    (fun _ _ _ h hs hfresh => h.step hs hfresh)
    (fun _ _ _ _ hs h => freshSid_of_sessionIdentity hs h) calls

/-- Two connections in the millisecond 1600000000123. -/
def sameMillisecond : List Call :=
  [.newConnection ⟨1600000000, 123400⟩ 1 5, .newConnection ⟨1600000000, 123900⟩ 2 6]

/-- The two sessions of `sameMillisecond` share their `sid`, though the clock does not go back. -/
theorem not_sessionIdentity :
    ¬ ∀ calls, (calls.filterMap Call.reading).Pairwise (· ≤ ·) →
      Table.machine.Always SessionIdentity calls := by
  intro h
  have hclock : (sameMillisecond.filterMap Call.reading).Pairwise (· ≤ ·) := by decide +kernel
  have hsome : (Table.machine.run sameMillisecond).isSome = true := by decide +kernel
  obtain ⟨t, ht⟩ := Option.isSome_iff_exists.mp hsome
  have hnodup := (h _ hclock _ (List.prefix_refl _) t ht).sids_nodup
  have hsids : (Table.machine.run sameMillisecond).map (fun t => t.live.map Live.sid)
      = some [1600000000123, 1600000000123] := by decide +kernel
  rw [ht, Option.map_some, Option.some.injEq] at hsids
  rw [hsids] at hnodup
  exact absurd hnodup (by decide)

end Easn
