import CoService.Easn.Properties.SessionTable
import CoService.Easn.Spec.Isolation
import Mathlib.Data.Fintype.EquivFin

/-!
# What the server holds on to

A client takes a descriptor, a task and a heap cell. When it hangs up, the descriptor and the task
come back, the cell does not.

* `openFds_eq_some_iff` — a descriptor is open exactly as long as a task serves it
* `cells_of_run` — every session that ever began still has its cell
* `recovered` — when the clients hang up, all ten tasks are idle again
* `exists_grown` — and it can hold any number of cells then
* `destroy_iff` — the destructor of `client_manager` comes through only if there was no session
-/

namespace Easn

open Infra

namespace TaskPool

variable {s : TaskPool}

@[simp] theorem mTasks_closeFd (s : TaskPool) (fd : Int) : (s.closeFd fd).mTasks = s.mTasks := by
  unfold closeFd
  split <;> rfl

/-- Every open descriptor is served. -/
def Attended (s : TaskPool) : Prop :=
  ∀ fd c, s.openFds fd = some c → fd ≠ -1 ∧ ∃ i, s.fd i = fd

namespace Attended

theorem init : TaskPool.init.Attended := by
  intro fd c h
  have hnone : TaskPool.init.openFds fd = none := rfl
  simp [hnone] at h

theorem refuse (h : s.Attended) {connfd : Int} (hnone : s.mTasks = []) :
    (s.acceptFd connfd).1.Attended := by
  rw [acceptFd_nil hnone]
  intro fd c hfd
  simp only [] at hfd ⊢
  by_cases hconn : fd = connfd
  · simp [hconn] at hfd
  · rw [Function.update_of_ne hconn] at hfd
    exact h fd c hfd

theorem give (h : s.Attended) (hinv : s.Inv) {connfd : Int} {i : TaskId} {rest : List TaskId}
    (hpos : 0 ≤ connfd) (htasks : s.mTasks = i :: rest) : (s.acceptFd connfd).1.Attended := by
  rw [acceptFd_cons htasks]
  have hidle : s.fd i = -1 := (hinv.idle_iff i).mp (htasks ▸ List.mem_cons_self)
  intro fd c hfd
  simp only [] at hfd ⊢
  by_cases hconn : fd = connfd
  · exact ⟨by omega, i, by rw [Function.update_self, hconn]⟩
  · rw [Function.update_of_ne hconn] at hfd
    obtain ⟨hne, j, hj⟩ := h fd c hfd
    have hji : j ≠ i := by
      rintro rfl
      exact hne (hj.symm.trans hidle)
    exact ⟨hne, j, by rw [Function.update_of_ne hji, hj]⟩

theorem closeReturn (h : s.Attended) (hinv : s.Inv) {i : TaskId} (hi : s.fd i ≠ -1) :
    ((s.closeFd (s.fd i)).returnTask i).Attended := by
  rw [hinv.closeReturn_eq hi]
  intro fd c hfd
  simp only [] at hfd ⊢
  by_cases hclosed : fd = s.fd i
  · simp [hclosed] at hfd
  · rw [Function.update_of_ne hclosed] at hfd
    obtain ⟨hne, j, hj⟩ := h fd c hfd
    have hji : j ≠ i := by
      rintro rfl
      exact hclosed hj.symm
    exact ⟨hne, j, by rw [Function.update_of_ne hji, hj]⟩

end Attended

end TaskPool

namespace Server

/-! ## Descriptors -/

section descriptors

variable {s s' : Server}

theorem attended_acts (h : s.pool.Attended) (hp : s.PoolInv) {left : Bool}
    (ha : Acts s left s') : s'.pool.Attended := by
  cases ha with
  | pass control => exact h
  | refuse connfd hopen hnone => exact h.refuse hnone
  | give connfd i rest hpos hopen htask => exact h.give hp.pool hpos htask
  | idle i r hpc => exact h
  | begin i r input hpc hfd hcell hwait => exact h
  | beginLeave i r input hpc hfd hcell => exact h.closeReturn hp.pool hfd
  | again i r fd acceptTimestamp session conn input hpc hheap hread hwait => exact h
  | leave i r fd acceptTimestamp session conn input hpc hheap =>
    obtain ⟨rfl, hne⟩ := hp.polling i fd acceptTimestamp session hpc
    exact h.closeReturn hp.pool hne

theorem attended_of_run {is : List Input} (h : machine.run is = some s) : s.pool.Attended :=
  Machine.invariant (P := fun _ s => s.pool.Attended) TaskPool.Attended.init
    (fun _ _ _ _ hrun hatt hs => attended_acts hatt (PoolInv.run hrun) (step_acts hs)) h

/-- **A descriptor is open exactly as long as a task serves it.** -/
theorem openFds_eq_some_iff (is : List Input) (s : Server) (h : machine.run is = some s) (fd : Int)
    (c : Conn) : s.pool.openFds fd = some c ↔
      ∃ i, s.pool.fd i = fd ∧ fd ≠ -1 ∧ s.pool.served i = c := by
  have hpool := (PoolInv.run h).pool
  constructor
  · intro hopen
    obtain ⟨hne, i, hi⟩ := attended_of_run h fd c hopen
    refine ⟨i, hi, hne, ?_⟩
    have hserved := (hpool.busy i (hi ▸ hne)).1
    rw [hi, hopen] at hserved
    exact (Option.some.inj hserved).symm
  · rintro ⟨i, rfl, hne, rfl⟩
    exact (hpool.busy i hne).1

/-- A client has connected, and its task has not run yet. -/
def justAccepted : List Input := [.resumeAccept, .coAccept (some 5)]

theorem justAccepted_isSome : (machine.run justAccepted).isSome = true := by decide +kernel

theorem openFds_eq_some_iff_justAccepted :
    ((machine.run justAccepted).get justAccepted_isSome).pool.openFds 5 = some 0 ↔
      ∃ i, ((machine.run justAccepted).get justAccepted_isSome).pool.fd i = 5 ∧ (5 : Int) ≠ -1 ∧
        ((machine.run justAccepted).get justAccepted_isSome).pool.served i = 0 :=
  openFds_eq_some_iff justAccepted _ (Option.some_get justAccepted_isSome).symm 5 0

end descriptors

/-! ## Cells -/

/-- The cell of the session that a coroutine is in. -/
def cellOf : Pc → Option Ptr
  | .yielded => none
  | .polling _ _ session => some session

/-- The cells that the coroutines use. -/
def used (s : Server) : List Ptr := (List.finRange maxAcceptCount).filterMap fun i => cellOf (s.pc i)

/-- The cells are there, one for each session that ever began, and the coroutines use different ones
of them. -/
structure CellInv (s : Server) (cells : List Ptr) : Prop where
  nodup : cells.Nodup
  length_eq : cells.length = s.sids.length
  mem_iff : ∀ p, p ∈ cells ↔ s.manager.heap p ≠ none
  polling : ∀ i fd ts p, s.pc i = .polling fd ts p → s.manager.heap p ≠ none
  apart : ∀ i j fd fd' ts ts' p, s.pc i = .polling fd ts p → s.pc j = .polling fd' ts' p → i = j

namespace CellInv

variable {s s' : Server} {cells : List Ptr} {i : TaskId} {r : Caller} {input : TaskInput}

theorem init : Server.init.CellInv [] where
  nodup := List.nodup_nil
  length_eq := rfl
  mem_iff p := by simp [Server.init, ClientManager.init]
  polling i fd ts p h := by simp [Server.init] at h
  apart i j fd fd' ts ts' p h := by simp [Server.init] at h

/-- A change that concerns no cell. -/
theorem congr (h : s.CellInv cells) (hs : s'.sids = s.sids)
    (hheap : ∀ p, s'.manager.heap p ≠ none ↔ s.manager.heap p ≠ none)
    (hpc : ∀ i fd ts p, s'.pc i = .polling fd ts p → s.pc i = .polling fd ts p) :
    s'.CellInv cells where
  nodup := h.nodup
  length_eq := by rw [hs, h.length_eq]
  mem_iff p := by rw [hheap, h.mem_iff]
  polling i fd ts p hi := (hheap p).mpr (h.polling i fd ts p (hpc i fd ts p hi))
  apart i j fd fd' ts ts' p hi hj :=
    h.apart i j fd fd' ts ts' p (hpc i fd ts p hi) (hpc j fd' ts' p hj)

/-- A write to a session takes and frees no cell. -/
theorem heap_store {session : Ptr} {conn conn' : EasnConnT}
    (hheap : s.manager.heap session = some conn) (p : Ptr) :
    (s.manager.store session (some conn')).heap p ≠ none ↔ s.manager.heap p ≠ none := by
  by_cases hp : p = session
  · rw [hp, ClientManager.heap_store_self, hheap]
    simp
  · rw [ClientManager.heap_store_of_ne hp]

/-- A session begins. -/
theorem newSession (h : s.CellInv cells) (hcell : s.manager.heap input.cell = none) :
    (s.newSession i input).CellInv (input.cell :: cells) where
  nodup := List.nodup_cons.mpr ⟨fun hmem => (h.mem_iff _).mp hmem hcell, h.nodup⟩
  length_eq := by
    rw [List.length_cons, h.length_eq, Server.newSession, List.length_append, List.length_singleton]
  mem_iff p := by
    by_cases hp : p = input.cell
    · subst hp
      refine iff_of_true List.mem_cons_self ?_
      rw [Server.newSession, ClientManager.heap_newConnection_self]
      simp
    · rw [List.mem_cons, h.mem_iff, Server.newSession, ClientManager.heap_newConnection_of_ne hp]
      simp [hp]
  polling j fd ts p hj := by
    have hold := h.polling j fd ts p hj
    have hp : p ≠ input.cell := by
      rintro rfl
      exact hold hcell
    rwa [Server.newSession, ClientManager.heap_newConnection_of_ne hp]
  apart := h.apart

/-- The coroutine waits in the session it has begun. -/
theorem begin (h : s.CellInv cells) (hcell : s.manager.heap input.cell = none) (ts : Int32) :
    ((s.newSession i input).coPoll i r (s.pool.fd i) ts input.cell).CellInv
      (input.cell :: cells) := by
  have hnew := h.newSession (i := i) hcell
  refine ⟨hnew.nodup, hnew.length_eq, hnew.mem_iff, ?_, ?_⟩
  · intro j fd ts' p hj
    rcases pc_coPoll_cases hj with ⟨_, _, _, rfl⟩ | ⟨_, hj⟩
    · exact (hnew.mem_iff _).mp List.mem_cons_self
    · exact hnew.polling j fd ts' p hj
  · refine apart_coPoll hnew.apart fun j fd ts' p hj => ?_
    rintro rfl
    exact h.polling j fd ts' _ hj hcell

/-- **No step gives a cell back.** -/
theorem acts (h : s.CellInv cells) {left : Bool} (ha : Acts s left s') :
    ∃ cells', s'.CellInv cells' := by
  cases ha with
  | pass control => exact ⟨cells, h.congr rfl (fun _ => Iff.rfl) fun _ _ _ _ hi => hi⟩
  | refuse connfd hopen hnone => exact ⟨cells, h.congr rfl (fun _ => Iff.rfl) fun _ _ _ _ hi => hi⟩
  | give connfd i rest hpos hopen htask =>
    exact ⟨cells, h.congr rfl (fun _ => Iff.rfl) fun _ _ _ _ hi => hi⟩
  | idle i r hpc =>
    refine ⟨cells, h.congr rfl (fun _ => Iff.rfl) fun j fd ts p hj => ?_⟩
    rwa [pc_coYield hpc] at hj
  | begin i r input hpc hfd hcell hwait => exact ⟨_, h.begin hcell _⟩
  | beginLeave i r input hpc hfd hcell =>
    exact ⟨_, (h.newSession (i := i) hcell).congr rfl (fun _ => Iff.rfl)
      fun j fd ts p hj => (pc_leaveLoop hj).2⟩
  | again i r fd acceptTimestamp session conn input hpc hheap hread hwait =>
    refine ⟨cells, h.congr rfl (heap_store hheap) fun j fd ts p hj => ?_⟩
    rwa [pc_coPoll (by exact hpc)] at hj
  | leave i r fd acceptTimestamp session conn input hpc hheap =>
    exact ⟨cells, h.congr rfl (heap_store hheap) fun j fd ts p hj => (pc_leaveLoop hj).2⟩

theorem of_run {is : List Input} (h : machine.run is = some s) : ∃ cells, s.CellInv cells :=
  Machine.invariant (P := fun _ s => ∃ cells, s.CellInv cells) ⟨[], init⟩
    (fun _ _ _ _ _ ⟨_, hinv⟩ hs => hinv.acts (step_acts hs)) h

theorem nodup_used (h : s.CellInv cells) : s.used.Nodup := by
  refine (List.nodup_finRange _).filterMap fun i j p hi hj => ?_
  cases hpi : s.pc i with
  | yielded => simp [hpi, cellOf] at hi
  | polling fd ts session =>
    cases hpj : s.pc j with
    | yielded => simp [hpj, cellOf] at hj
    | polling fd' ts' session' =>
      simp only [hpi, hpj, cellOf, Option.mem_def, Option.some.injEq] at hi hj
      subst hi
      subst hj
      exact h.apart i j fd fd' ts ts' _ hpi hpj

theorem mem_of_mem_used (h : s.CellInv cells) {p : Ptr} (hp : p ∈ s.used) : p ∈ cells := by
  obtain ⟨i, _, hi⟩ := List.mem_filterMap.mp hp
  cases hpc : s.pc i with
  | yielded => simp [hpc, cellOf] at hi
  | polling fd ts session =>
    simp only [hpc, cellOf, Option.some.injEq] at hi
    subst hi
    exact (h.mem_iff _).mpr (h.polling i fd ts _ hpc)

end CellInv

/--
**No session gives its cell back.**

The cells that are taken are those that the coroutines use, at most one for a task, and `left`. There
is one cell for each session that ever began, so `left` has one for each session that is over, and
nobody frees it.
-/
theorem cells_of_run (is : List Input) (s : Server) (h : machine.run is = some s) :
    ∃ left : List Ptr, (s.used ++ left).Nodup ∧
      (∀ p, s.manager.heap p ≠ none ↔ p ∈ s.used ++ left) ∧
      s.used.length + left.length = s.sids.length ∧ s.used.length ≤ maxAcceptCount := by
  obtain ⟨cells, hinv⟩ := CellInv.of_run h
  have hnodup : (s.used ++ cells.filter fun p => p ∉ s.used).Nodup := by
    refine hinv.nodup_used.append (hinv.nodup.filter _) fun p hp hp' => ?_
    simp [hp] at hp'
  have hmem : ∀ p, p ∈ s.used ++ cells.filter (fun p => p ∉ s.used) ↔ p ∈ cells := by
    intro p
    simp only [List.mem_append, List.mem_filter, decide_eq_true_eq]
    constructor
    · rintro (hp | ⟨hp, _⟩)
      · exact hinv.mem_of_mem_used hp
      · exact hp
    · intro hp
      by_cases hused : p ∈ s.used
      · exact Or.inl hused
      · exact Or.inr ⟨hp, hused⟩
  refine ⟨_, hnodup, fun p => ?_, ?_, ?_⟩
  · rw [hmem, hinv.mem_iff]
  · have hperm := (List.perm_ext_iff_of_nodup hnodup hinv.nodup).mpr hmem
    rw [← List.length_append, hperm.length_eq, hinv.length_eq]
  · have hle := List.length_filterMap_le (fun i => cellOf (s.pc i)) (List.finRange maxAcceptCount)
    rwa [List.length_finRange] at hle

theorem cells_of_run_oneClient : ∃ left : List Ptr,
    (((machine.run oneClient).get oneClient_isSome).used ++ left).Nodup ∧
      (∀ p, ((machine.run oneClient).get oneClient_isSome).manager.heap p ≠ none ↔
        p ∈ ((machine.run oneClient).get oneClient_isSome).used ++ left) ∧
      ((machine.run oneClient).get oneClient_isSome).used.length + left.length
        = ((machine.run oneClient).get oneClient_isSome).sids.length ∧
      ((machine.run oneClient).get oneClient_isSome).used.length ≤ maxAcceptCount :=
  cells_of_run oneClient _ (Option.some_get oneClient_isSome).symm

/-! ## Coming back to idle tasks -/

/-- Only a task that was just given a connection has one and waits in `co_yield_ct`. -/
def Handed (s : Server) : Prop :=
  ∀ i, s.pc i = .yielded → s.pool.fd i ≠ -1 → s.control = .task i .accept

section handed

variable {s s' : Server}

/-- Who is resumed while nobody is running is not one that was just given a connection. -/
theorem Handed.of_caller (h : s.Handed) {r : Caller} (hc : s.control = .caller r)
    (hpc : s'.pc = s.pc) (hfd : s'.pool.fd = s.pool.fd) : s'.Handed := by
  intro i hi hne
  rw [hpc] at hi
  rw [hfd] at hne
  have hcontrol := h i hi hne
  rw [hc] at hcontrol
  simp at hcontrol

/-- A coroutine that has run is not in `co_yield_ct` with a connection. -/
theorem Handed.of_task (h : s.Handed) {i : TaskId} {r : Caller} (hc : s.control = .task i r)
    (hself : s'.pc i = .yielded → s'.pool.fd i = -1)
    (hother : ∀ j, j ≠ i → s'.pc j = s.pc j ∧ s'.pool.fd j = s.pool.fd j) : s'.Handed := by
  intro j hj hne
  by_cases hji : j = i
  · subst hji
    exact absurd (hself hj) hne
  · obtain ⟨hpc, hfd⟩ := hother j hji
    rw [hpc] at hj
    rw [hfd] at hne
    have hcontrol := h j hj hne
    rw [hc, Control.task.injEq] at hcontrol
    exact absurd hcontrol.1.symm hji

theorem fd_closeFd (pool : TaskPool) (fd : Int) : (pool.closeFd fd).fd = pool.fd := by
  unfold TaskPool.closeFd
  split <;> rfl

/-- A coroutine that leaves its session loop. -/
theorem Handed.leave (h : s.Handed) {i : TaskId} {r : Caller} (hc : s.control = .task i r)
    {s₀ : Server} (hpc : s₀.pc = s.pc) {fd : Int} (hpool : s₀.pool = s.pool.closeFd fd) :
    (s₀.leaveLoop i r).Handed := by
  have hfd : (s₀.leaveLoop i r).pool.fd = Function.update s.pool.fd i (-1) := by
    show Function.update s₀.pool.fd i (-1) = _
    rw [hpool, fd_closeFd]
  have hpcs : (s₀.leaveLoop i r).pc = Function.update s.pc i .yielded := by
    show Function.update s₀.pc i .yielded = _
    rw [hpc]
  refine h.of_task hc (fun _ => ?_) fun j hj => ⟨?_, ?_⟩
  · rw [hfd, Function.update_self]
  · rw [hpcs, Function.update_of_ne hj]
  · rw [hfd, Function.update_of_ne hj]

/-- A coroutine that waits in its session loop. -/
theorem Handed.wait (h : s.Handed) {i : TaskId} {r : Caller} (hc : s.control = .task i r)
    {s₀ : Server} (hpc : s₀.pc = s.pc) (hpool : s₀.pool = s.pool) {fd : Int} {ts : Int32}
    {session : Ptr} : (s₀.coPoll i r fd ts session).Handed := by
  have hpcs : (s₀.coPoll i r fd ts session).pc
      = Function.update s.pc i (.polling fd ts session) := by
    show Function.update s₀.pc i _ = _
    rw [hpc]
  refine h.of_task hc (fun hi => ?_) fun j hj => ⟨?_, ?_⟩
  · rw [hpcs, Function.update_self] at hi
    simp at hi
  · rw [hpcs, Function.update_of_ne hj]
  · exact congrFun (congrArg TaskPool.fd hpool) j

theorem Handed.step (h : s.Handed) {input : Input} (hs : s.step input = some s') : s'.Handed := by
  cases input with
  | resumeAccept =>
    simp only [Server.step, Option.ite_none_right_eq_some, Option.some.injEq] at hs
    obtain ⟨hc, rfl⟩ := hs
    exact h.of_caller hc rfl rfl
  | coAccept connfd =>
    cases connfd with
    | none =>
      simp only [Server.step, Option.ite_none_right_eq_some, Option.some.injEq] at hs
      obtain ⟨hc, rfl⟩ := hs
      exact h.of_caller hc rfl rfl
    | some connfd =>
      simp only [Server.step, Option.ite_none_right_eq_some] at hs
      obtain ⟨⟨hc, _, _⟩, hs⟩ := hs
      cases htasks : s.pool.mTasks with
      | nil =>
        rw [TaskPool.acceptFd_nil htasks] at hs
        obtain rfl := Option.some.inj hs
        exact h.of_caller hc rfl rfl
      | cons i rest =>
        rw [TaskPool.acceptFd_cons htasks] at hs
        obtain rfl := Option.some.inj hs
        intro j hj hne
        by_cases hji : j = i
        · rw [hji]
        · simp only [Function.update_of_ne hji] at hne
          have hcontrol := h j hj hne
          rw [hc] at hcontrol
          simp at hcontrol
  | wake i =>
    simp only [Server.step, Option.ite_none_right_eq_some, Option.some.injEq] at hs
    obtain ⟨⟨hc, _⟩, rfl⟩ := hs
    exact h.of_caller hc rfl rfl
  | run x =>
    cases step_runs hs with
    | idle i r hc hpc hi hs =>
      subst hs
      refine h.of_task hc (fun _ => hi) fun j hj => ⟨?_, rfl⟩
      rw [pc_coYield hpc]
    | begin i r hc hpc hi hcell hs =>
      rcases runTask_begin hpc hi hcell hs with ⟨_, rfl⟩ | rfl
      · exact h.wait hc rfl rfl
      · exact h.leave hc rfl rfl
    | next i r fd ts session conn hc hpc hheap hs =>
      rcases runTask_next hpc hheap hs with ⟨_, rfl⟩ | rfl
      · exact h.wait hc rfl rfl
      · exact h.leave hc rfl rfl

theorem handed_of_run {is : List Input} (h : machine.run is = some s) : s.Handed :=
  Machine.invariant (P := fun _ s => s.Handed)
    (fun i _ hne => absurd (TaskPool.Inv.init.idle_iff i |>.mp (by revert i; decide)) hne)
    (fun _ _ _ _ _ hhanded hs => hhanded.step hs) h

end handed

section recovery

variable {is : List Input} {s s' : Server}

/-- A coroutine that runs and finds that its client has hung up. -/
def hungUp (cell : Ptr) : TaskInput where
  acceptTime := 0
  tv := ⟨0, 0⟩
  cell := cell
  now := 0
  stale := zeroStale
  read := .ok ⟨[], Nat.zero_le _⟩

/-- The client of the coroutine has hung up: `read` finds the end of the stream. -/
def HangsUp (x : TaskInput) : Prop := x.read = .ok ⟨[], Nat.zero_le _⟩

/-- No client connects, and each one that is read from has hung up. -/
structure HangUps (js : List Input) : Prop where
  noAccept : ∀ fd, .coAccept (some fd) ∉ js
  read : ∀ x, .run x ∈ js → HangsUp x

theorem HangUps.nil : HangUps [] := ⟨by simp, by simp⟩

theorem HangUps.append {js ks : List Input} (h : HangUps js) (hk : HangUps ks) :
    HangUps (js ++ ks) where
  noAccept fd hmem := (List.mem_append.mp hmem).elim (h.noAccept fd) (hk.noAccept fd)
  read x hmem := (List.mem_append.mp hmem).elim (h.read x) (hk.read x)

theorem HangUps.run {x : TaskInput} (h : HangsUp x) : HangUps [.run x] where
  noAccept fd := by simp
  read y hy := by
    obtain rfl := Input.run.inj (List.mem_singleton.mp hy)
    exact h

/-- There is always a cell that nobody has. -/
theorem exists_free_cell (h : machine.run is = some s) : ∃ p, s.manager.heap p = none := by
  obtain ⟨cells, hinv⟩ := CellInv.of_run h
  obtain ⟨p, hp⟩ := Infinite.exists_notMem_finset cells.toFinset
  rw [List.mem_toFinset, hinv.mem_iff, not_not] at hp
  exact ⟨p, hp⟩

/-- What comes of running the coroutine that has control. -/
structure Ran (s s' : Server) (i : TaskId) (r : Caller) : Prop where
  control : s'.control = .caller r
  idle_le : s.pool.mTasks.length ≤ s'.pool.mTasks.length
  returned : s.pc i ≠ .yielded → s.pool.mTasks.length < s'.pool.mTasks.length
  begun : s.pc i = .yielded → s.pool.fd i ≠ -1 → s.sids.length < s'.sids.length

theorem length_mTasks_leaveLoop (s t : Server) (i : TaskId) (r : Caller) (fd : Int)
    (h : t.pool = s.pool.closeFd fd) :
    (t.leaveLoop i r).pool.mTasks.length = s.pool.mTasks.length + 1 := by
  show (i :: t.pool.mTasks).length = _
  rw [h, TaskPool.mTasks_closeFd, List.length_cons]

/-- **The coroutine that has control can go on**, whatever its state: if its client hangs up, it puts
its task back. -/
theorem exists_ran (h : machine.run is = some s) {i : TaskId} {r : Caller}
    (hc : s.control = .task i r) :
    ∃ x s', HangsUp x ∧ s.step (.run x) = some s' ∧ Ran s s' i r := by
  obtain ⟨cell, hcell⟩ := exists_free_cell h
  cases hpc : s.pc i with
  | yielded =>
    by_cases hi : s.pool.fd i = -1
    · refine ⟨hungUp cell, s.coYield i r, rfl, ?_, rfl, Nat.le_refl _, ?_, ?_⟩
      · simp [step, hc, runTask, hpc, hi]
      · exact fun hne => absurd hpc hne
      · exact fun _ hne => absurd hi hne
    · obtain ⟨s', hs⟩ : ∃ s', s.runTask i r (hungUp cell) = some s' := by
        simp [runTask, hpc, hi, show s.manager.heap (hungUp cell).cell = none from hcell]
      refine ⟨hungUp cell, s', rfl, by simp [step, hc, hs], ?_⟩
      have hsids : s.sids.length < (s.sids ++ [timestamp (hungUp cell).tv]).length := by simp
      rcases runTask_begin hpc hi hcell hs with ⟨_, rfl⟩ | rfl
      · exact ⟨rfl, Nat.le_refl _, fun hne => absurd hpc hne, fun _ _ => hsids⟩
      · have hlen := length_mTasks_leaveLoop s
          { s.newSession i (hungUp cell) with pool := s.pool.closeFd (s.pool.fd i) } i r _ rfl
        exact ⟨rfl, by omega, fun hne => absurd hpc hne, fun _ _ => hsids⟩
  | polling fd ts session =>
    obtain ⟨cells, hinv⟩ := CellInv.of_run h
    obtain ⟨conn, hheap⟩ := Option.ne_none_iff_exists'.mp (hinv.polling i fd ts session hpc)
    have hread : afterPoll fd conn (hungUp cell).stale (hungUp cell).read
        = ⟨conn, [.close fd], .left⟩ := rfl
    obtain ⟨s', hs⟩ : ∃ s', s.runTask i r (hungUp cell) = some s' := by
      simp [runTask, hpc, hheap, hread]
    refine ⟨hungUp cell, s', rfl, by simp [step, hc, hs], ?_⟩
    rcases runTask_next hpc hheap hs with ⟨hflow, _⟩ | rfl
    · simp [nextPart, hread] at hflow
    · have hlen := length_mTasks_leaveLoop s
        { s with
          manager := s.manager.store session
            (some (nextPart fd ts conn (hungUp cell)).session)
          pool := s.pool.closeFd fd } i r fd rfl
      exact ⟨rfl, by omega, fun _ => by omega, fun hy => by simp [hpc] at hy⟩

/-- Control comes back to the event loop. -/
theorem exists_eventLoop (h : machine.run is = some s) :
    ∃ js s', machine.run (is ++ js) = some s' ∧ HangUps js ∧ s'.control = .caller .eventLoop ∧
      s.pool.mTasks.length ≤ s'.pool.mTasks.length := by
  have haccept : ∀ {is : List Input} {s : Server}, machine.run is = some s →
      ∀ r, s.control = .caller r → ∃ js s', machine.run (is ++ js) = some s' ∧ HangUps js ∧
        s'.control = .caller .eventLoop ∧ s.pool.mTasks.length ≤ s'.pool.mTasks.length := by
    intro is s h r hc
    cases r with
    | eventLoop => exact ⟨[], s, by rwa [List.append_nil], HangUps.nil, hc, Nat.le_refl _⟩
    | accept =>
      refine ⟨[.coAccept none], { s with control := .caller .eventLoop },
        Machine.run_append_singleton_eq_some.mpr ⟨s, h, ?_⟩, ⟨by simp, by simp⟩, rfl, Nat.le_refl _⟩
      exact if_pos hc
  cases hc : s.control with
  | caller r => exact haccept h r hc
  | task i r =>
    obtain ⟨x, s₁, hx, hs, hran⟩ := exists_ran h hc
    have hrun : machine.run (is ++ [.run x]) = some s₁ :=
      Machine.run_append_singleton_eq_some.mpr ⟨s, h, hs⟩
    obtain ⟨js, s', hrun', hjs, hloop, hle⟩ := haccept hrun r hran.control
    exact ⟨[.run x] ++ js, s', by rwa [← List.append_assoc], (HangUps.run hx).append hjs, hloop,
      hran.idle_le.trans hle⟩

/-- A task that is not idle, when nobody is running. -/
theorem exists_polling (h : machine.run is = some s) (hc : s.control = .caller .eventLoop)
    (hlt : s.pool.mTasks.length < maxAcceptCount) : ∃ i, s.pc i ≠ .yielded := by
  have hcount := (PoolInv.run h).pool.count
  obtain ⟨i, hi⟩ := List.exists_mem_of_length_pos (show 0 < s.pool.busy.length by omega)
  have hne : s.pool.fd i ≠ -1 := by simpa [TaskPool.busy] using hi
  refine ⟨i, fun hpc => ?_⟩
  have hcontrol := handed_of_run h i hpc hne
  rw [hc] at hcontrol
  simp at hcontrol

/-- Nobody is connected: all tasks are idle, and no descriptor is open. -/
structure Rested (s : Server) : Prop where
  control : s.control = .caller .eventLoop
  idle : s.pool.mTasks.length = maxAcceptCount
  closed : ∀ fd, s.pool.openFds fd = none

/-- When control is with the event loop and the tasks have no connection, nobody is connected. -/
theorem Rested.of_fd (h : machine.run is = some s) (hc : s.control = .caller .eventLoop)
    (hfd : ∀ i, s.pool.fd i = -1) : s.Rested := by
  have hcount := (PoolInv.run h).pool.count
  have hbusy : s.pool.busy = [] := by simp [TaskPool.busy, hfd]
  refine ⟨hc, by simpa [hbusy] using hcount, fun fd => ?_⟩
  by_contra hopen
  obtain ⟨c, hopen⟩ := Option.ne_none_iff_exists'.mp hopen
  obtain ⟨hne, i, hi⟩ := attended_of_run h fd c hopen
  exact hne (hi.symm.trans (hfd i))

/-- Then no task serves a client. -/
theorem Rested.yielded (hr : s.Rested) (h : machine.run is = some s) (i : TaskId) :
    s.pc i = .yielded := by
  have hcount := (PoolInv.run h).pool.count
  rw [hr.idle] at hcount
  cases hpc : s.pc i with
  | yielded => rfl
  | polling fd ts session =>
    obtain ⟨hfd, hne⟩ := (PoolInv.run h).polling i fd ts session hpc
    have hbusy : i ∈ s.pool.busy := by simp [TaskPool.busy, hfd, hne]
    have hpos := List.length_pos_of_mem hbusy
    omega

/-- All clients hang up, one after the other. -/
theorem exists_rested (h : machine.run is = some s) :
    ∃ js s', machine.run (is ++ js) = some s' ∧ HangUps js ∧ s'.Rested := by
  induction hn : maxAcceptCount - s.pool.mTasks.length using Nat.strong_induction_on
    generalizing is s with
  | _ n ih =>
    subst hn
    obtain ⟨js, s₁, hrun, hjs, hc, hle⟩ := exists_eventLoop h
    have hcount := (PoolInv.run hrun).pool.count
    by_cases hall : s₁.pool.mTasks.length = maxAcceptCount
    · refine ⟨js, s₁, hrun, hjs, Rested.of_fd hrun hc fun i => ?_⟩
      by_contra hne
      have hbusy : i ∈ s₁.pool.busy := by simp [TaskPool.busy, hne]
      have hpos := List.length_pos_of_mem hbusy
      omega
    · have hlt : s₁.pool.mTasks.length < maxAcceptCount := by omega
      obtain ⟨i, hi⟩ := exists_polling hrun hc hlt
      have hwake : s₁.step (.wake i) = some { s₁ with control := .task i .eventLoop } :=
        if_pos ⟨hc, hi⟩
      have hrun₂ : machine.run (is ++ js ++ [.wake i]) = some _ :=
        Machine.run_append_singleton_eq_some.mpr ⟨s₁, hrun, hwake⟩
      obtain ⟨x, s₃, hx, hs, hran⟩ := exists_ran hrun₂ (i := i) (r := .eventLoop) rfl
      have hrun₃ : machine.run (is ++ js ++ [.wake i] ++ [.run x]) = some s₃ :=
        Machine.run_append_singleton_eq_some.mpr ⟨_, hrun₂, hs⟩
      have hmore : s₁.pool.mTasks.length < s₃.pool.mTasks.length := hran.returned hi
      obtain ⟨ks, s', hrun', hks, hrest⟩ := ih _ (by omega) hrun₃ rfl
      have hwoken : HangUps [.wake i] := ⟨by simp, by simp⟩
      exact ⟨js ++ [.wake i] ++ [.run x] ++ ks, s', by simpa using hrun',
        ((hjs.append hwoken).append (HangUps.run hx)).append hks, hrest⟩

/-- When nobody is connected, every connection that was accepted is closed. -/
theorem Rested.closed_mem (hr : s.Rested) (h : machine.run is = some s) {c : Conn}
    (hc : c < s.pool.accepted) : .closed c ∈ s.pool.log := by
  have hpool := (PoolInv.run h).pool
  have hmem : PoolEvent.closed c ∈ lifeOf s.pool.log c := by
    cases hpool.life c hc with
    | refused fd hlife => simp [hlife]
    | serving i hfd hopen hlife => exact absurd hopen (by simp [hr.closed])
    | ended fd i hlife => simp [hlife]
  exact (List.mem_filter.mp hmem).1

/-- What has become of the tasks since the clients hang up: one that served a client still does,
unless it was woken since. -/
structure Ebbing (s : Server) (js : List Input) (s' : Server) : Prop where
  serves_iff : ∀ i, s'.pc i ≠ .yielded ↔
    s.pc i ≠ .yielded ∧ (.wake i ∉ js ∨ ∃ r, s'.control = .task i r)
  woken : ∀ i r, s'.control = .task i r → .wake i ∈ js
  idle : ∀ i, s'.pc i = .yielded → s'.pool.fd i = -1

namespace Ebbing

variable {js : List Input} {s'' : Server}

theorem nil (h : machine.run is = some s) (hc : s.control = .caller .eventLoop) :
    Ebbing s [] s where
  serves_iff i := by simp
  woken i r hi := by simp [hc] at hi
  idle i hpc := by
    by_contra hne
    have hcontrol := handed_of_run h i hpc hne
    rw [hc] at hcontrol
    simp at hcontrol

/-- Control goes on to someone who is no task. -/
theorem pass (h : Ebbing s js s') {r : Caller} (hc : s'.control = .caller r) (r' : Caller)
    {j : Input} (hj : ∀ i, j ≠ .wake i) :
    Ebbing s (js ++ [j]) { s' with control := .caller r' } where
  serves_iff i := by
    rw [h.serves_iff i, hc, List.mem_append, List.mem_singleton]
    simp [(hj i).symm]
  woken i r hi := by simp at hi
  idle := h.idle

/-- A task that serves a client is woken. -/
theorem wake (h : Ebbing s js s') {r : Caller} (hc : s'.control = .caller r) {i : TaskId}
    (hi : s'.pc i ≠ .yielded) :
    Ebbing s (js ++ [.wake i]) { s' with control := .task i .eventLoop } where
  serves_iff k := by
    have hk := h.serves_iff k
    rw [hc] at hk
    by_cases hki : k = i
    · subst hki
      refine iff_of_true hi ⟨(hk.mp hi).1, Or.inr ⟨.eventLoop, rfl⟩⟩
    · rw [hk, List.mem_append, List.mem_singleton]
      simp [hki, Ne.symm hki]
  woken k r hk := by
    obtain rfl := (Control.task.inj hk).1
    simp
  idle := h.idle

/-- **The task that has control** lets go of it, and of its client. -/
theorem run (h : Ebbing s js s') (hrun : machine.run (is ++ js) = some s') {i : TaskId} {r : Caller}
    (hc : s'.control = .task i r) {x : TaskInput} (hx : HangsUp x)
    (hs : s'.runTask i r x = some s'') : Ebbing s (js ++ [.run x]) s'' := by
  have hwoken := h.woken i r hc
  -- the task waits in `co_yield_ct` then, and the other ones stay where they are
  suffices hleft : s''.control = .caller r ∧ s''.pc = Function.update s'.pc i .yielded ∧
      s''.pool.fd i = -1 ∧ ∀ k, k ≠ i → s''.pool.fd k = s'.pool.fd k by
    obtain ⟨hcontrol, hpc, hfd, hothers⟩ := hleft
    refine ⟨fun k => ?_, fun k r' hk => by simp [hcontrol] at hk, fun k hk => ?_⟩
    · have hiff := h.serves_iff k
      rw [hc] at hiff
      by_cases hki : k = i
      · subst hki
        simp [hpc, hcontrol, hwoken]
      · simpa [hpc, hcontrol, Function.update_of_ne hki, Ne.symm hki] using hiff
    · by_cases hki : k = i
      · rw [hki, hfd]
      · rw [hpc, Function.update_of_ne hki] at hk
        rw [hothers k hki, h.idle k hk]
  cases hpc : s'.pc i with
  | yielded =>
    have hfd := h.idle i hpc
    simp only [runTask, hpc, hfd, if_true, Option.some.injEq] at hs
    subst hs
    exact ⟨rfl, rfl, hfd, fun _ _ => rfl⟩
  | polling fd ts session =>
    obtain ⟨cells, hinv⟩ := CellInv.of_run hrun
    obtain ⟨conn, hheap⟩ := Option.ne_none_iff_exists'.mp (hinv.polling i fd ts session hpc)
    have hread : afterPoll fd conn x.stale x.read = ⟨conn, [.close fd], .left⟩ := by
      rw [show x.read = _ from hx]
      rfl
    rcases runTask_next hpc hheap hs with ⟨hflow, _⟩ | rfl
    · simp [nextPart, hread] at hflow
    · refine ⟨rfl, rfl, Function.update_self .., fun k hk => ?_⟩
      have hpool := congrFun (fd_closeFd s'.pool fd) k
      exact (Function.update_of_ne hk _ _).trans hpool

/-- **One more step** while the clients hang up. -/
theorem step (h : Ebbing s js s') (hrun : machine.run (is ++ js) = some s') {j : Input}
    (hj : HangUps [j]) (hs : s'.step j = some s'') : Ebbing s (js ++ [j]) s'' := by
  cases j with
  | resumeAccept =>
    simp only [Server.step, Option.ite_none_right_eq_some, Option.some.injEq] at hs
    obtain ⟨hc, rfl⟩ := hs
    exact h.pass hc _ (by simp)
  | coAccept connfd =>
    cases connfd with
    | none =>
      simp only [Server.step, Option.ite_none_right_eq_some, Option.some.injEq] at hs
      obtain ⟨hc, rfl⟩ := hs
      exact h.pass hc _ (by simp)
    | some fd => exact absurd (List.mem_singleton_self _) (hj.noAccept fd)
  | wake i =>
    simp only [Server.step, Option.ite_none_right_eq_some, Option.some.injEq] at hs
    obtain ⟨⟨hc, hi⟩, rfl⟩ := hs
    exact h.wake hc hi
  | run x =>
    rw [Server.step] at hs
    split at hs
    · next i r hc => exact h.run hrun hc (hj.read x (List.mem_singleton_self _)) hs
    · simp at hs

theorem of_run (h : machine.run is = some s) (hc : s.control = .caller .eventLoop)
    (hrun : machine.run (is ++ js) = some s') (hjs : HangUps js) : Ebbing s js s' := by
  induction js using List.reverseRecOn generalizing s' with
  | nil =>
    rw [List.append_nil, h] at hrun
    obtain rfl := Option.some.inj hrun
    exact nil h hc
  | append_singleton js j ih =>
    rw [← List.append_assoc] at hrun
    obtain ⟨s₁, hrun₁, hs⟩ := Machine.run_append_singleton_eq_some.mp hrun
    have hbefore : HangUps js := ⟨fun fd hmem => hjs.noAccept fd (List.mem_append_left _ hmem),
      fun x hmem => hjs.read x (List.mem_append_left _ hmem)⟩
    have hlast : HangUps [j] := ⟨fun fd hmem => hjs.noAccept fd (List.mem_append_right _ hmem),
      fun x hmem => hjs.read x (List.mem_append_right _ hmem)⟩
    exact (ih hrun₁ hbefore).step hrun₁ hlast hs

end Ebbing

/-- The clients have hung up, and their tasks were told. -/
structure AllHangUp (s : Server) (js : List Input) (s' : Server) : Prop where
  hangUps : HangUps js
  woken : ∀ i, s.pc i ≠ .yielded → .wake i ∈ js
  control : s'.control = .caller .eventLoop

/--
**When the clients hang up, the server comes to rest.**

No client connects any more, whatever is read is the end of a stream, and each task that serves a
client is woken. Then, in whatever order this happens, as soon as control is with the event loop all
ten tasks are idle, no descriptor is open, and every connection that was ever accepted has been
closed. From every state in which the event loop has control it can happen.
-/
theorem recovered (is : List Input) (s : Server) (h : machine.run is = some s)
    (hc : s.control = .caller .eventLoop) :
    (∀ js s', machine.run (is ++ js) = some s' → AllHangUp s js s' →
      s'.Rested ∧ ∀ c < s'.pool.accepted, .closed c ∈ s'.pool.log) ∧
    ∃ js s', machine.run (is ++ js) = some s' ∧ AllHangUp s js s' := by
  constructor
  · intro js s' hrun hall
    have hebbing := Ebbing.of_run h hc hrun hall.hangUps
    have hidle : ∀ i, s'.pool.fd i = -1 := by
      refine fun i => hebbing.idle i ?_
      by_contra hserves
      obtain ⟨hserved, hnot | ⟨r, hcontrol⟩⟩ := (hebbing.serves_iff i).mp hserves
      · exact hnot (hall.woken i hserved)
      · simp [hall.control] at hcontrol
    have hrested := Rested.of_fd hrun hall.control hidle
    exact ⟨hrested, fun c hlt => hrested.closed_mem hrun hlt⟩
  · obtain ⟨js, s', hrun, hjs, hrested⟩ := exists_rested h
    refine ⟨js, s', hrun, hjs, fun i hserved => ?_, hrested.control⟩
    have hebbing := Ebbing.of_run h hc hrun hjs
    by_contra hnot
    exact (hebbing.serves_iff i).mpr ⟨hserved, Or.inl hnot⟩ (hrested.yielded hrun i)

/-- Two clients are served. -/
def twoServed : List Input := twoClients.take 6

theorem twoServed_isSome : (machine.run twoServed).isSome = true := by decide +kernel

theorem recovered_twoServed :
    (∀ js s', machine.run (twoServed ++ js) = some s' →
        AllHangUp ((machine.run twoServed).get twoServed_isSome) js s' →
        s'.Rested ∧ ∀ c < s'.pool.accepted, .closed c ∈ s'.pool.log) ∧
      ∃ js s', machine.run (twoServed ++ js) = some s' ∧
        AllHangUp ((machine.run twoServed).get twoServed_isSome) js s' :=
  recovered twoServed _ (Option.some_get twoServed_isSome).symm (by decide +kernel)

/-- The sessions of a run only grow in number. -/
theorem sids_le_of_run (h : machine.run is = some s) {js : List Input}
    (h' : machine.run (is ++ js) = some s') : s.sids.length ≤ s'.sids.length := by
  induction js using List.reverseRecOn generalizing s' with
  | nil =>
    rw [List.append_nil, h] at h'
    rw [Option.some.inj h']
  | append_singleton js i ih =>
    rw [← List.append_assoc] at h'
    obtain ⟨s₁, hrun, hs⟩ := Machine.run_append_singleton_eq_some.mp h'
    have ha := step_acts hs
    exact (ih hrun).trans ha.sids_prefix.length_le

/-- A client connects and hangs up again. -/
theorem exists_one_more (h : machine.run is = some s) (hr : s.Rested) :
    ∃ js s', machine.run (is ++ js) = some s' ∧ s'.Rested ∧ s.sids.length < s'.sids.length := by
  obtain ⟨i, rest, htasks⟩ : ∃ i rest, s.pool.mTasks = i :: rest := by
    refine List.exists_cons_of_ne_nil fun hnil => ?_
    have hidle := hr.idle
    rw [hnil] at hidle
    exact absurd hidle (by decide)
  have hresume : machine.step s .resumeAccept = some { s with control := .caller .accept } :=
    if_pos hr.control
  have hrun₁ := Machine.run_append_singleton_eq_some.mpr ⟨s, h, hresume⟩
  have haccept : machine.step { s with control := .caller .accept } (.coAccept (some 5))
      = some { s with pool := (s.pool.acceptFd 5).1, control := .task i .accept } := by
    have hsome := TaskPool.acceptFd_cons htasks 5
    simp [machine, step, hr.closed, hsome]
  have hrun₂ := Machine.run_append_singleton_eq_some.mpr ⟨_, hrun₁, haccept⟩
  obtain ⟨x, s₃, _, hs, hran⟩ := exists_ran hrun₂ (i := i) (r := .accept) rfl
  have hrun₃ : machine.run (is ++ [.resumeAccept] ++ [.coAccept (some 5)] ++ [.run x]) = some s₃ :=
    Machine.run_append_singleton_eq_some.mpr ⟨_, hrun₂, hs⟩
  -- the task waits in `co_yield_ct` until it is given the connection
  have hyielded : s.pc i = .yielded := by
    cases hpc : s.pc i with
    | yielded => rfl
    | polling fd ts session =>
      exact absurd rfl ((PoolInv.run h).ne_of_idle (htasks ▸ List.mem_cons_self) hpc)
  have hfd : (s.pool.acceptFd 5).1.fd i ≠ -1 := by
    rw [TaskPool.acceptFd_cons htasks]
    simp
  have hmore : s.sids.length < s₃.sids.length := hran.begun hyielded hfd
  obtain ⟨js, s', hrun', _, hrested⟩ := exists_rested hrun₃
  have hle := sids_le_of_run hrun₃ hrun'
  exact ⟨[.resumeAccept] ++ [.coAccept (some 5)] ++ [.run x] ++ js, s', by simpa using hrun',
    hrested, by omega⟩

/-- Any number of sessions can begin. -/
theorem exists_sids (h : machine.run is = some s) (n : Nat) :
    ∃ js s', machine.run (is ++ js) = some s' ∧ s'.Rested ∧ n ≤ s'.sids.length := by
  induction n with
  | zero =>
    obtain ⟨js, s', hrun, _, hrested⟩ := exists_rested h
    exact ⟨js, s', hrun, hrested, Nat.zero_le _⟩
  | succ n ih =>
    obtain ⟨js, s₁, hrun, hrested, hle⟩ := ih
    obtain ⟨ks, s', hrun', hrested', hlt⟩ := exists_one_more hrun hrested
    exact ⟨js ++ ks, s', by rwa [← List.append_assoc], hrested', by omega⟩

/--
**The memory that the server holds does not depend on how many clients there are.**

From every state of every run it can come to a state where no client is connected and any number of
cells is taken.
-/
theorem exists_grown (is : List Input) (s : Server) (h : machine.run is = some s) (n : Nat) :
    ∃ js s', machine.run (is ++ js) = some s' ∧ s'.Rested ∧
      ∃ cells : List Ptr, cells.Nodup ∧ n ≤ cells.length ∧
        ∀ p ∈ cells, s'.manager.heap p ≠ none := by
  obtain ⟨js, s', hrun, hrested, hle⟩ := exists_sids h n
  obtain ⟨cells, hinv⟩ := CellInv.of_run hrun
  refine ⟨js, s', hrun, hrested, cells, hinv.nodup, ?_, fun p hp => (hinv.mem_iff p).mp hp⟩
  rwa [hinv.length_eq]

theorem exists_grown_justAccepted : ∃ js s', machine.run (justAccepted ++ js) = some s' ∧
    s'.Rested ∧
      ∃ cells : List Ptr, cells.Nodup ∧ 1000 ≤ cells.length ∧
        ∀ p ∈ cells, s'.manager.heap p ≠ none :=
  exists_grown justAccepted _ (Option.some_get justAccepted_isSome).symm 1000

end recovery

/-! ## The destructor of `client_manager` -/

/-- The keys of the table are the `sid`s. -/
def Keyed (s : Server) : Prop := ∀ sid, s.manager.getConnection sid ≠ none ↔ sid ∈ s.sids

theorem keyed_newSession {s : Server} (h : s.Keyed) (i : TaskId) (input : TaskInput)
    (sid : UInt64) : (s.newSession i input).manager.getConnection sid ≠ none ↔
      sid ∈ s.sids ++ [timestamp input.tv] := by
  rw [newSession, ClientManager.getConnection_newConnection, List.mem_append, List.mem_singleton,
    ← h sid]
  by_cases hget : s.manager.getConnection sid = none
  · by_cases hsid : sid = timestamp input.tv
    · rw [if_pos ⟨hsid, hget⟩]
      simp [hsid]
    · rw [if_neg fun hc => hsid hc.1]
      simp [hget, hsid]
  · rw [if_neg fun hc => hget hc.2]
    simp [hget]

theorem keyed_acts {s s' : Server} (h : s.Keyed) {left : Bool} (ha : Acts s left s') : s'.Keyed := by
  cases ha with
  | begin i r input hpc hfd hcell hwait => exact keyed_newSession h i input
  | beginLeave i r input hpc hfd hcell => exact keyed_newSession h i input
  | pass control => exact h
  | refuse connfd hopen hnone => exact h
  | give connfd i rest hpos hopen htask => exact h
  | idle i r hpc => exact h
  | again i r fd acceptTimestamp session conn input hpc hheap hread hwait => exact h
  | leave i r fd acceptTimestamp session conn input hpc hheap => exact h

theorem keyed_of_run {is : List Input} {s : Server} (h : machine.run is = some s) : s.Keyed :=
  Machine.invariant (P := fun _ s => s.Keyed)
    (fun sid => by simp [machine, Server.init])
    (fun _ _ _ _ _ hkeyed hs => keyed_acts hkeyed (step_acts hs)) h

/--
**A process that has served anybody does not exit cleanly.**

At the exit the destructor of `client_manager` comes through exactly if no session ever began, however
long ago the last client has gone.
-/
theorem destroy_iff (is : List Input) (s : Server) (h : machine.run is = some s) :
    s.manager.destroy.isSome = true ↔ s.sids = [] := by
  have hkeyed := keyed_of_run h
  rw [ClientManager.destroy_isSome_iff, List.eq_nil_iff_forall_not_mem]
  exact forall_congr' fun sid => by rw [← hkeyed sid, not_not]

theorem destroy_iff_oneClient :
    ((machine.run oneClient).get oneClient_isSome).manager.destroy.isSome = true ↔
      ((machine.run oneClient).get oneClient_isSome).sids = [] :=
  destroy_iff oneClient _ (Option.some_get oneClient_isSome).symm

end Server

end Easn
