import CoService.Easn.Server

/-!
# The pool of tasks, over every interleaving

A task is in `m_tasks` or it serves an open descriptor, and never both. Every accepted descriptor
is closed at once or given to one task, and closed once, when that task is put back.

`TaskPool.Inv` is kept by the three things that happen to the pool (a refused connection, a given
one, a returned task); `poolInvariant` lifts it to every run of the server.
-/

namespace Easn

open Infra

/-- The three lives of an accepted descriptor. -/
inductive Life (s : TaskPool) (c : Conn) : Prop
  | refused (fd : Int) (h : lifeOf s.log c = [.accepted c fd, .refused c, .closed c])
  | serving (i : TaskId) (hfd : s.fd i ≠ -1) (hopen : s.openFds (s.fd i) = some c)
    (h : lifeOf s.log c = [.accepted c (s.fd i), .given c i])
  | ended (fd : Int) (i : TaskId)
    (h : lifeOf s.log c = [.accepted c fd, .given c i, .closed c, .returned c i])

/-- What holds of the pool whenever control changes hands. -/
structure PoolInvariant (s : TaskPool) : Prop where
  nodup : s.mTasks.Nodup
  idle_iff : ∀ i, i ∈ s.mTasks ↔ s.fd i = -1
  serves : ∀ i, s.fd i ≠ -1 → ∃ c, s.openFds (s.fd i) = some c ∧
    lifeOf s.log c = [.accepted c (s.fd i), .given c i]
  apart : ∀ i j, s.fd i ≠ -1 → s.fd i = s.fd j → i = j
  count : s.mTasks.length + s.busy.length = maxAcceptCount
  debug : s.debug = s.busy.length
  life : ∀ c < s.accepted, Life s c
  no_badClose : ∀ fd, .badClose fd ∉ s.log

namespace TaskPool

/-- The invariant of the pool. -/
structure Inv (s : TaskPool) : Prop where
  nodup : s.mTasks.Nodup
  idle_iff : ∀ i, i ∈ s.mTasks ↔ s.fd i = -1
  busy : ∀ i, s.fd i ≠ -1 → s.openFds (s.fd i) = some (s.served i) ∧
    lifeOf s.log (s.served i) = [.accepted (s.served i) (s.fd i), .given (s.served i) i]
  life : ∀ c < s.accepted, Life s c
  fresh : ∀ c, s.accepted ≤ c → lifeOf s.log c = []
  no_badClose : ∀ fd, .badClose fd ∉ s.log

variable {s : TaskPool}

namespace Inv

/-- A connection that is served was accepted. -/
theorem served_lt (h : s.Inv) {i : TaskId} (hi : s.fd i ≠ -1) : s.served i < s.accepted := by
  by_contra hge
  have hnil := h.fresh _ (Nat.not_lt.mp hge)
  rw [(h.busy i hi).2] at hnil
  simp at hnil

/-- Two tasks do not serve the same connection. -/
theorem eq_of_served (h : s.Inv) {i j : TaskId} (hi : s.fd i ≠ -1) (hj : s.fd j ≠ -1)
    (heq : s.served i = s.served j) : i = j := by
  have h1 := (h.busy i hi).2
  rw [heq, (h.busy j hj).2] at h1
  simp at h1
  exact h1.2.symm

theorem eq_of_fd (h : s.Inv) {i j : TaskId} (hi : s.fd i ≠ -1) (heq : s.fd i = s.fd j) :
    i = j := by
  have hj : s.fd j ≠ -1 := heq ▸ hi
  refine h.eq_of_served hi hj ?_
  have h1 := (h.busy i hi).1
  rw [heq, (h.busy j hj).1] at h1
  exact (Option.some.inj h1).symm

end Inv

/-! ## The log -/

theorem lifeOf_of_ne {log : List PoolEvent} {c : Conn} {e : PoolEvent} (h : e.conn ≠ some c) :
    lifeOf (log ++ [e]) c = lifeOf log c := by
  rw [lifeOf_append_singleton, if_neg h, List.append_nil]

theorem lifeOf_of_eq {log : List PoolEvent} {c : Conn} {e : PoolEvent} (h : e.conn = some c) :
    lifeOf (log ++ [e]) c = lifeOf log c ++ [e] := by
  rw [lifeOf_append_singleton, if_pos h]

/-- A connection that a run of events is not about. -/
theorem lifeOf_fresh {log : List PoolEvent} {c c' : Conn} {e : PoolEvent}
    (he : e.conn = some c') (h : c' ≠ c) : lifeOf (log ++ [e]) c = lifeOf log c :=
  lifeOf_of_ne (by rw [he]; simpa using h)

/-- A life that nothing touches stays as it is. -/
theorem life_mono {s s' : TaskPool} {c : Conn} (h : Life s c)
    (hlog : lifeOf s'.log c = lifeOf s.log c)
    (hserve : ∀ i, s.fd i ≠ -1 → s.openFds (s.fd i) = some c →
      s'.fd i = s.fd i ∧ s'.openFds (s.fd i) = some c) : Life s' c := by
  cases h with
  | refused fd h => exact Life.refused fd (hlog.trans h)
  | serving i hfd hopen h =>
    obtain ⟨h1, h2⟩ := hserve i hfd hopen
    exact Life.serving i (by rw [h1]; exact hfd) (by rw [h1]; exact h2)
      (by rw [h1]; exact hlog.trans h)
  | ended fd i h => exact Life.ended fd i (hlog.trans h)

/-! ## What happens to the pool -/

namespace Inv

theorem init : TaskPool.init.Inv where
  nodup := by decide
  idle_iff := by decide
  busy i h := absurd (show TaskPool.init.fd i = -1 by revert i; decide) h
  life c h := absurd h (by simp [show TaskPool.init.accepted = 0 from rfl])
  fresh c _ := rfl
  no_badClose fd h := by simp [show TaskPool.init.log = [] from rfl] at h

/-- A descriptor that is served is not the one that is about to be opened. -/
theorem fd_ne (h : s.Inv) {connfd : Int} (hopen : s.openFds connfd = none) {i : TaskId}
    (hi : s.fd i ≠ -1) : s.fd i ≠ connfd := by
  intro heq
  have hbusy := (h.busy i hi).1
  rw [heq, hopen] at hbusy
  simp at hbusy

/-- A connection that is refused. -/
theorem refuse (h : s.Inv) {connfd : Int} (hopen : s.openFds connfd = none)
    (hnone : s.mTasks = []) : (s.acceptFd connfd).1.Inv := by
  rw [acceptFd_nil hnone]
  have hlog : ∀ c, c ≠ s.accepted → lifeOf (s.log ++ [.accepted s.accepted connfd]
      ++ [.refused s.accepted] ++ [.closed s.accepted]) c = lifeOf s.log c := by
    intro c hc
    rw [lifeOf_fresh rfl hc.symm, lifeOf_fresh rfl hc.symm, lifeOf_fresh rfl hc.symm]
  refine ⟨h.nodup, h.idle_iff, ?_, ?_, ?_, ?_⟩
  · intro i hi
    obtain ⟨h1, h2⟩ := h.busy i hi
    have hne := h.fd_ne hopen hi
    refine ⟨?_, ?_⟩
    · simp only [Function.update_of_ne hne]
      exact h1
    · exact (hlog _ (Nat.ne_of_lt (h.served_lt hi))).trans h2
  · intro c hc
    rcases Nat.lt_succ_iff_lt_or_eq.mp hc with hlt | rfl
    · refine life_mono (h.life c hlt) (hlog c (Nat.ne_of_lt hlt)) ?_
      intro i hi ho
      exact ⟨rfl, by simp only [Function.update_of_ne (h.fd_ne hopen hi)]; exact ho⟩
    · refine Life.refused connfd ?_
      simp only []
      rw [lifeOf_of_eq rfl, lifeOf_of_eq rfl, lifeOf_of_eq rfl, h.fresh _ (Nat.le_refl _)]
      rfl
  · intro c hc
    have hc' : s.accepted + 1 ≤ c := hc
    exact (hlog c (by omega)).trans (h.fresh c (by omega))
  · intro fd hmem
    exact h.no_badClose fd (by simpa using hmem)

/-- A connection that is given to a task. -/
theorem give (h : s.Inv) {connfd : Int} {i : TaskId} {rest : List TaskId}
    (hpos : 0 ≤ connfd) (hopen : s.openFds connfd = none) (htasks : s.mTasks = i :: rest) :
    (s.acceptFd connfd).1.Inv := by
  rw [acceptFd_cons htasks]
  have hnodup := h.nodup
  rw [htasks, List.nodup_cons] at hnodup
  have hidle : s.fd i = -1 := (h.idle_iff i).mp (by rw [htasks]; exact List.mem_cons_self)
  have hlog : ∀ c, c ≠ s.accepted → lifeOf (s.log ++ [.accepted s.accepted connfd]
      ++ [.given s.accepted i]) c = lifeOf s.log c := by
    intro c hc
    rw [lifeOf_fresh rfl hc.symm, lifeOf_fresh rfl hc.symm]
  have hnew : lifeOf (s.log ++ [.accepted s.accepted connfd] ++ [.given s.accepted i]) s.accepted
      = [.accepted s.accepted connfd, .given s.accepted i] := by
    rw [lifeOf_of_eq rfl, lifeOf_of_eq rfl, h.fresh _ (Nat.le_refl _)]
    rfl
  have hconn : connfd ≠ -1 := by omega
  refine ⟨hnodup.2, ?_, ?_, ?_, ?_, ?_⟩
  · intro j
    simp only []
    by_cases hj : j = i
    · subst hj
      rw [Function.update_self]
      exact iff_of_false hnodup.1 hconn
    · rw [Function.update_of_ne hj, ← h.idle_iff j, htasks, List.mem_cons]
      simp [hj]
  · intro j hj
    simp only [] at hj ⊢
    by_cases hji : j = i
    · subst hji
      rw [Function.update_self, Function.update_self, Function.update_self]
      exact ⟨rfl, hnew⟩
    · rw [Function.update_of_ne hji] at hj
      obtain ⟨h1, h2⟩ := h.busy j hj
      rw [Function.update_of_ne hji, Function.update_of_ne hji,
        Function.update_of_ne (h.fd_ne hopen hj)]
      exact ⟨h1, (hlog _ (Nat.ne_of_lt (h.served_lt hj))).trans h2⟩
  · intro c hc
    rcases Nat.lt_succ_iff_lt_or_eq.mp hc with hlt | rfl
    · refine life_mono (h.life c hlt) (hlog c (Nat.ne_of_lt hlt)) ?_
      intro j hj ho
      have hji : j ≠ i := by
        rintro rfl
        exact hj hidle
      exact ⟨Function.update_of_ne hji _ _,
        (Function.update_of_ne (h.fd_ne hopen hj) _ _).trans ho⟩
    · refine Life.serving i ?_ ?_ ?_
      · simp only [Function.update_self]
        exact hconn
      · simp only [Function.update_self]
      · simp only [Function.update_self]
        exact hnew
  · intro c hc
    have hc' : s.accepted + 1 ≤ c := hc
    exact (hlog c (by omega)).trans (h.fresh c (by omega))
  · intro fd hmem
    exact h.no_badClose fd (by simpa using hmem)

/-- What closing the descriptor of a task and putting the task back does. -/
theorem closeReturn_eq (h : s.Inv) {i : TaskId} (hi : s.fd i ≠ -1) :
    (s.closeFd (s.fd i)).returnTask i =
      { s with
        fd := Function.update s.fd i (-1)
        mTasks := i :: s.mTasks
        openFds := Function.update s.openFds (s.fd i) none
        log := s.log ++ [.closed (s.served i)] ++ [.returned (s.served i) i] } := by
  rw [closeFd_of_open (h.busy i hi).1]
  rfl

/-- A task that is put back. -/
theorem closeReturn (h : s.Inv) {i : TaskId} (hi : s.fd i ≠ -1) :
    ((s.closeFd (s.fd i)).returnTask i).Inv := by
  rw [h.closeReturn_eq hi]
  have hlog : ∀ c, c ≠ s.served i → lifeOf (s.log ++ [.closed (s.served i)]
      ++ [.returned (s.served i) i]) c = lifeOf s.log c := by
    intro c hc
    rw [lifeOf_fresh rfl hc.symm, lifeOf_fresh rfl hc.symm]
  refine ⟨?_, ?_, ?_, ?_, ?_, ?_⟩
  · exact List.nodup_cons.mpr ⟨fun hmem => hi ((h.idle_iff i).mp hmem), h.nodup⟩
  · intro j
    simp only []
    by_cases hj : j = i
    · subst hj
      simp
    · rw [Function.update_of_ne hj, ← h.idle_iff j, List.mem_cons]
      simp [hj]
  · intro j hj
    simp only [] at hj ⊢
    have hji : j ≠ i := by
      rintro rfl
      exact hj (Function.update_self ..)
    rw [Function.update_of_ne hji] at hj ⊢
    obtain ⟨h1, h2⟩ := h.busy j hj
    have hne : s.fd j ≠ s.fd i := fun heq => hji (h.eq_of_fd hj heq)
    rw [Function.update_of_ne hne]
    exact ⟨h1, (hlog _ fun heq => hji (h.eq_of_served hj hi heq)).trans h2⟩
  · intro c hc
    by_cases hci : c = s.served i
    · refine Life.ended (s.fd i) i ?_
      simp only [hci]
      rw [lifeOf_of_eq rfl, lifeOf_of_eq rfl, (h.busy i hi).2]
      rfl
    · refine life_mono (h.life c hc) (hlog c hci) ?_
      intro j hj ho
      have hji : j ≠ i := by
        rintro rfl
        rw [(h.busy j hj).1] at ho
        exact hci (Option.some.inj ho).symm
      have hne : s.fd j ≠ s.fd i := fun heq => hji (h.eq_of_fd hj heq)
      exact ⟨Function.update_of_ne hji _ _, (Function.update_of_ne hne _ _).trans ho⟩
  · intro c hc
    refine (hlog c ?_).trans (h.fresh c hc)
    rintro rfl
    exact absurd (h.served_lt hi) (Nat.not_lt.mpr hc)
  · intro fd hmem
    exact h.no_badClose fd (by simpa using hmem)

/-! ## What follows from the invariant -/

/-- Every task is idle or busy. -/
theorem count (h : s.Inv) : s.mTasks.length + s.busy.length = maxAcceptCount := by
  have hperm : s.mTasks.Perm ((List.finRange maxAcceptCount).filter fun i => s.fd i = -1) := by
    refine (List.perm_ext_iff_of_nodup h.nodup ((List.nodup_finRange _).filter _)).mpr ?_
    intro i
    simp [h.idle_iff i]
  have hsplit := List.length_eq_countP_add_countP (fun i => decide (s.fd i = -1))
    (l := List.finRange maxAcceptCount)
  rw [List.countP_eq_length_filter, List.countP_eq_length_filter, List.length_finRange] at hsplit
  rw [hperm.length_eq, TaskPool.busy]
  exact (by simpa using hsplit.symm)

theorem toPoolInvariant (h : s.Inv) : PoolInvariant s where
  nodup := h.nodup
  idle_iff := h.idle_iff
  serves i hi := ⟨s.served i, h.busy i hi⟩
  apart _ _ hi heq := h.eq_of_fd hi heq
  count := h.count
  debug := by
    have hcount := h.count
    have hmax : maxAcceptCount = 10 := rfl
    rw [debug]
    omega
  life := h.life
  no_badClose := h.no_badClose

end Inv

end TaskPool

/-! ## Runs of the server -/

namespace Server

/-- The pool is in order, and a coroutine in the session loop serves the descriptor of its task. -/
structure PoolInv (s : Server) : Prop where
  pool : s.pool.Inv
  polling : ∀ i fd acceptTimestamp session, s.pc i = .polling fd acceptTimestamp session →
    s.pool.fd i = fd ∧ fd ≠ -1

namespace PoolInv

variable {s s' : Server}

theorem init : Server.init.PoolInv where
  pool := TaskPool.Inv.init
  polling i fd acceptTimestamp session h := by simp [Server.init] at h

/-- A coroutine lets go of a task that it has put back. -/
theorem leave (h : s.PoolInv) {i : TaskId} (hi : s.pool.fd i ≠ -1) (m : ClientManager)
    (sids : List UInt64) (owner : Ptr → Option Conn) (r : Caller) :
    PoolInv ({ s with
      pool := s.pool.closeFd (s.pool.fd i), manager := m, sids := sids, owner := owner }.leaveLoop
        i r) where
  pool := h.pool.closeReturn hi
  polling j fd acceptTimestamp session hj := by
    obtain ⟨hji, hpc⟩ := pc_leaveLoop hj
    obtain ⟨h1, h2⟩ := h.polling j fd acceptTimestamp session hpc
    refine ⟨?_, h2⟩
    unfold leaveLoop coYield
    simp only [h.pool.closeReturn_eq hi, Function.update_of_ne hji]
    exact h1

/-- A coroutine in the session loop has a task that is not idle. -/
theorem ne_of_idle (h : s.PoolInv) {i j : TaskId} {fd : Int} {acceptTimestamp : Int32}
    {session : Ptr} (hi : i ∈ s.pool.mTasks)
    (hj : s.pc j = .polling fd acceptTimestamp session) : j ≠ i := by
  rintro rfl
  obtain ⟨h1, h2⟩ := h.polling j fd acceptTimestamp session hj
  exact h2 (h1.symm.trans ((h.pool.idle_iff j).mp hi))

/-- **Every action keeps the pool in order.** -/
theorem acts (h : s.PoolInv) {left : Bool} (ha : Acts s left s') : s'.PoolInv := by
  cases ha with
  | pass control => exact ⟨h.pool, h.polling⟩
  | refuse connfd hopen hnone =>
    refine ⟨h.pool.refuse hopen hnone, ?_⟩
    rw [TaskPool.acceptFd_nil hnone]
    exact h.polling
  | give connfd i rest hpos hopen htask =>
    refine ⟨h.pool.give hpos hopen htask, ?_⟩
    intro j fd acceptTimestamp session hj
    obtain ⟨h1, h2⟩ := h.polling j fd acceptTimestamp session hj
    have hji := h.ne_of_idle (htask ▸ List.mem_cons_self) hj
    rw [TaskPool.acceptFd_cons htask]
    exact ⟨(Function.update_of_ne hji _ _).trans h1, h2⟩
  | idle i r hpc =>
    refine ⟨h.pool, ?_⟩
    rw [pc_coYield hpc]
    exact h.polling
  | begin i r input hpc hfd hcell hwait =>
    refine ⟨h.pool, ?_⟩
    intro j fd ts session hj
    rcases pc_coPoll_cases hj with ⟨rfl, rfl, _, _⟩ | ⟨_, hj⟩
    · exact ⟨rfl, hfd⟩
    · exact h.polling j fd ts session hj
  | beginLeave i r input hpc hfd hcell => exact h.leave hfd _ _ _ r
  | again i r fd acceptTimestamp session conn input hpc hheap hread hwait =>
    refine ⟨h.pool, ?_⟩
    rw [pc_coPoll (by exact hpc)]
    exact h.polling
  | leave i r fd acceptTimestamp session conn input hpc hheap =>
    obtain ⟨rfl, hne⟩ := h.polling i fd acceptTimestamp session hpc
    exact h.leave hne _ _ _ r

theorem run {is : List Input} (h : machine.run is = some s) : s.PoolInv :=
  Machine.invariant (P := fun _ s => s.PoolInv) init
    (fun _ _ _ _ _ hinv hs => hinv.acts (step_acts hs)) h

end PoolInv

/-- **The pool is in order in every reachable state**, and a coroutine in the session loop serves
the descriptor of its task. -/
theorem poolInvariant (is : List Input) (s : Server) (h : machine.run is = some s) :
    PoolInvariant s.pool ∧ ∀ i fd acceptTimestamp session,
      s.pc i = .polling fd acceptTimestamp session → s.pool.fd i = fd ∧ fd ≠ -1 :=
  ⟨(PoolInv.run h).pool.toPoolInvariant, (PoolInv.run h).polling⟩

/-- A coroutine that runs in the second 1600000000, with nothing on its stack. -/
def inputAt (cell : Ptr) (read : ReadResult) : TaskInput where
  acceptTime := 1600000000
  tv := ⟨1600000000, 0⟩
  cell := cell
  now := 1600000000
  stale := zeroStale
  read := read

/-- A client connects as descriptor 5 and hangs up. -/
def oneClient : List Input :=
  [.resumeAccept, .coAccept (some 5), .run (inputAt 1 (.error eagain)), .coAccept none,
    .wake ⟨9, by decide⟩, .run (inputAt 2 (.ok ⟨[], by decide⟩))]

theorem oneClient_isSome : (machine.run oneClient).isSome = true := by decide +kernel

/-- The pool after the client has hung up. -/
theorem poolInvariant_oneClient :
    PoolInvariant ((machine.run oneClient).get oneClient_isSome).pool ∧
      ∀ i fd acceptTimestamp session, ((machine.run oneClient).get oneClient_isSome).pc i
        = .polling fd acceptTimestamp session →
        ((machine.run oneClient).get oneClient_isSome).pool.fd i = fd ∧ fd ≠ -1 :=
  poolInvariant oneClient _ (Option.some_get _).symm

end Server

end Easn
