import Mathlib.Logic.Function.Basic
import Std.Data.TreeMap.Lemmas

/-!
# Sessions and `client_manager`

A session is a heap cell. `client_manager` keeps a `std::map` from session ids to these cells. A
session id is the clock reading of its creation, in milliseconds, and `std::map::insert` keeps the
old entry of a key that is there already.

The heap cells stand beside the map, since `new_connection` returns the pointer to its caller.
`appid` is left out: nothing reads or writes it.
-/

namespace Easn

/-- `easn_conn_t`. -/
structure EasnConnT where
  sid : UInt64
  socketFd : Int
  auth : Int
deriving DecidableEq

/-- A session as `new_connection` fills it in after the `memset`. -/
def EasnConnT.init (sid : UInt64) (socketFd : Int) : EasnConnT := ⟨sid, socketFd, 0⟩

/-- What `gettimeofday` returns. -/
structure Timeval where
  tvSec : Nat
  tvUsec : Nat

/-- `wf::time::timestamp`. -/
def timestamp (tv : Timeval) : UInt64 := UInt64.ofNat (tv.tvSec * 1000 + tv.tvUsec / 1000)

/-- The address of a heap cell. -/
abbrev Ptr := Nat

/-- `client_manager` and the heap cells of its sessions. -/
structure ClientManager where
  connections : Std.TreeMap UInt64 Ptr
  heap : Ptr → Option EasnConnT

namespace ClientManager

/-- `client_manager::client_manager`. -/
def init : ClientManager := ⟨∅, fun _ => none⟩

/-- A write to a heap cell. -/
def store (m : ClientManager) (p : Ptr) (conn : Option EasnConnT) : ClientManager :=
  { m with heap := Function.update m.heap p conn }

/-- `new_connection`, where `tv` is what the clock says and `p` the cell that `malloc` returns. -/
def newConnection (m : ClientManager) (tv : Timeval) (p : Ptr) (socketFd : Int) : ClientManager :=
  let sid := timestamp tv
  let m := m.store p (some (.init sid socketFd))
  { m with connections := m.connections.insertIfNew sid p }

/-- `get_connection`. -/
def getConnection (m : ClientManager) (sid : UInt64) : Option Ptr := m.connections[sid]?

/-- `remove_connection`. -/
def removeConnection (m : ClientManager) (sid : UInt64) : ClientManager :=
  match m.getConnection sid with
  | some p =>
    let m := m.store p none
    { m with connections := m.connections.erase sid }
  | none => m

/-- An entry that is erased makes the map smaller. -/
theorem size_erase_lt {connections : Std.TreeMap UInt64 Ptr} {sid : UInt64} {p : Ptr}
    (h : connections[sid]? = some p) : (connections.erase sid).size < connections.size := by
  have hmem : sid ∈ connections := Std.TreeMap.isSome_getElem?_iff_mem.mp (by rw [h]; rfl)
  have hpos : connections.size ≠ 0 := by
    intro hzero
    have hempty : connections.isEmpty = true := by
      rw [Std.TreeMap.isEmpty_eq_size_eq_zero, hzero]
      rfl
    exact Std.TreeMap.isEmpty_iff_forall_not_mem.mp hempty sid hmem
  rw [Std.TreeMap.size_erase, if_pos (Std.TreeMap.contains_iff_mem.mpr hmem)]
  omega

/-- The loop of `client_manager::~client_manager`, where `iter` is at an entry or at the end. It frees
the session and erases the entry. `iter` is not moved on, so it is at an entry that is gone then, and
to use it once more is undefined. -/
def destroyFrom (m : ClientManager) (iter : Option UInt64) : Option ClientManager :=
  match iter with
  | none => some m
  | some sid =>
    match _hget : m.getConnection sid with
    | none => none
    | some p =>
      match m.heap p with
      | none => none
      | some _ => destroyFrom { m.store p none with connections := m.connections.erase sid } iter
termination_by m.connections.size
decreasing_by exact size_erase_lt _hget

/-- `client_manager::~client_manager`, but for the map itself. -/
def destroy (m : ClientManager) : Option ClientManager := m.destroyFrom m.connections.minKey?

variable {m : ClientManager} {p q : Ptr} {sid sid' : UInt64} {tv : Timeval} {fd : Int}
  {conn : Option EasnConnT}

@[simp] theorem getConnection_init : init.getConnection sid = none := by
  simp [init, getConnection]

/-! ## Heap cells -/

@[simp] theorem heap_store_self : (m.store p conn).heap p = conn := Function.update_self ..

theorem heap_store_of_ne (h : q ≠ p) : (m.store p conn).heap q = m.heap q :=
  Function.update_of_ne h ..

@[simp] theorem getConnection_store : (m.store p conn).getConnection sid = m.getConnection sid := rfl

/-! ## `new_connection` -/

@[simp] theorem heap_newConnection_self :
    (m.newConnection tv p fd).heap p = some (.init (timestamp tv) fd) := heap_store_self

theorem heap_newConnection_of_ne (h : q ≠ p) : (m.newConnection tv p fd).heap q = m.heap q :=
  heap_store_of_ne h

theorem getConnection_eq_none_iff : m.getConnection sid = none ↔ sid ∉ m.connections :=
  ⟨fun h => by simpa [getConnection] using h, Std.TreeMap.getElem?_eq_none⟩

/-- A new session takes its entry only if the key is free. -/
theorem getConnection_newConnection : (m.newConnection tv p fd).getConnection sid =
    if sid = timestamp tv ∧ m.getConnection sid = none then some p else m.getConnection sid := by
  have hinsert : (m.newConnection tv p fd).getConnection sid
      = if compare (timestamp tv) sid = .eq ∧ timestamp tv ∉ m.connections then some p
        else m.getConnection sid := Std.TreeMap.getElem?_insertIfNew
  have hkey : (compare (timestamp tv) sid = .eq ∧ timestamp tv ∉ m.connections) ↔
      (sid = timestamp tv ∧ m.getConnection sid = none) := by
    rw [getConnection_eq_none_iff, Std.LawfulEqOrd.compare_eq_iff_eq]
    constructor <;> rintro ⟨rfl, hs⟩ <;> exact ⟨rfl, hs⟩
  rw [hinsert]
  exact if_congr hkey rfl rfl

/-! ## `remove_connection` -/

theorem getConnection_removeConnection (sid sid' : UInt64) :
    (m.removeConnection sid).getConnection sid' =
      if sid' = sid then none else m.getConnection sid' := by
  unfold removeConnection
  split
  · simp only [getConnection, store, Std.TreeMap.getElem?_erase]
    by_cases h : sid' = sid
    · simp [h]
    · rw [if_neg h, if_neg (by simp [Ne.symm h])]
  · next h =>
    by_cases hs : sid' = sid
    · rw [hs, if_pos rfl, h]
    · rw [if_neg hs]

theorem heap_removeConnection (h : m.getConnection sid = some p) (q : Ptr) :
    (m.removeConnection sid).heap q = if q = p then none else m.heap q := by
  rw [removeConnection, h]
  by_cases hq : q = p
  · rw [hq, if_pos rfl]
    exact heap_store_self
  · rw [if_neg hq]
    exact heap_store_of_ne hq

/-! ## The destructor -/

/-- What is left when `iter` is at an entry: `iter` is used once more. -/
theorem destroyFrom_some (m : ClientManager) (sid : UInt64) :
    m.destroyFrom (some sid) = none := by
  induction hn : m.connections.size using Nat.strongRecOn generalizing m with
  | ind n ih =>
    rw [destroyFrom]
    split
    · rfl
    · next p hget =>
      split
      · rfl
      · exact ih _ (hn ▸ size_erase_lt hget) _ rfl

/-- **The destructor comes through only if there is no session.** -/
theorem destroy_isSome_iff : m.destroy.isSome = true ↔ ∀ sid, m.getConnection sid = none := by
  have hempty : (∀ sid, m.getConnection sid = none) ↔ m.connections.minKey? = none := by
    rw [Std.TreeMap.minKey?_eq_none_iff, Std.TreeMap.isEmpty_iff_forall_not_mem]
    exact forall_congr' fun sid => getConnection_eq_none_iff
  rw [hempty, destroy]
  cases m.connections.minKey? with
  | none => simp [destroyFrom]
  | some sid => simp [destroyFrom_some]

end ClientManager

end Easn
