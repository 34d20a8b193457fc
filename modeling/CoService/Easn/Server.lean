import CoService.Easn.Session
import CoService.Easn.TaskPool
import CoService.Infra.Transition

/-!
# The server as a state machine

One coroutine accepts connections and `MAX_ACCEPT_COUNT` coroutines serve them, all in one thread.
Control changes hands only in `co_yield_ct`, `co_resume` and `co_poll`. `Server.step` takes the
server from one such point to the next, with one exception: `server_accept` also stops after a
connection that it refused.

A coroutine that yields or polls goes back to whoever resumed it: the event loop, or
`server_accept` for a coroutine that was just given a connection.

What the outside decides is in `Input`: which coroutine the event loop wakes, what `co_accept` and
`read` return, the clocks, and what `malloc` and the stack hold.

`sids` and `owner` are ghost: the clock readings that `new_connection` took, and the connection that
each session was created for.
-/

namespace Easn

open Infra

/-- Who resumed a coroutine. -/
inductive Caller
  | eventLoop
  | accept
deriving DecidableEq

/-- Who is running. -/
inductive Control
  | caller (r : Caller)
  | task (i : TaskId) (r : Caller)
deriving DecidableEq

/-- Where the coroutine of a task stands: in `co_yield_ct` of the outer loop, or in `co_poll` of the
session loop, with the locals `fd`, `accept_timestamp` and `session`. -/
inductive Pc
  | yielded
  | polling (fd : Int) (acceptTimestamp : Int32) (session : Ptr)
deriving DecidableEq

structure Server where
  pool : TaskPool
  pc : TaskId → Pc
  control : Control
  manager : ClientManager
  sids : List UInt64
  owner : Ptr → Option Conn

/-- What a coroutine reads until it lets go of control: the clocks, the cell that `malloc` returns,
the stack and the result of `read()`. -/
structure TaskInput where
  acceptTime : Int
  tv : Timeval
  cell : Ptr
  now : Int
  stale : Stale
  read : ReadResult

/-- What the outside decides. -/
inductive Input
  | resumeAccept
  | coAccept (connfd : Option Int)
  | wake (i : TaskId)
  | run (input : TaskInput)

namespace Server

/-- `co_yield_ct`. -/
def coYield (s : Server) (i : TaskId) (r : Caller) : Server :=
  { s with pc := Function.update s.pc i .yielded, control := .caller r }

/-- `co_poll` in the session loop. -/
def coPoll (s : Server) (i : TaskId) (r : Caller) (fd : Int) (acceptTimestamp : Int32)
    (session : Ptr) : Server :=
  { s with
    pc := Function.update s.pc i (.polling fd acceptTimestamp session)
    control := .caller r }

/-- What a session does to the descriptors. -/
def perform (s : Server) : List SessionEvent → Server
  | [] => s
  | .close fd :: es => { s with pool := s.pool.closeFd fd }.perform es
  | _ :: es => s.perform es

/-- Behind the session loop. The task is idle now, so the outer loop yields. -/
def leaveLoop (s : Server) (i : TaskId) (r : Caller) : Server :=
  { s with pool := s.pool.returnTask i }.coYield i r

/-- The head of the session loop, up to `co_poll` or out of the loop. -/
def loopHead (s : Server) (i : TaskId) (r : Caller) (fd : Int) (acceptTimestamp : Int32)
    (session : Ptr) (conn : EasnConnT) (now : Int) : Server :=
  let b := beforePoll fd acceptTimestamp now conn
  match b.flow with
  | .again => (s.perform b.events).coPoll i r fd acceptTimestamp session
  | _ => (s.perform b.events).leaveLoop i r

/-- `new_connection` for the task. -/
def newSession (s : Server) (i : TaskId) (input : TaskInput) : Server :=
  { s with
    manager := s.manager.newConnection input.tv input.cell (s.pool.fd i)
    sids := s.sids ++ [timestamp input.tv]
    owner := Function.update s.owner input.cell (some (s.pool.served i)) }

/-- The coroutine of a task, from where it stands until it lets go of control. A fault in
`handle_packet` ends the process. -/
def runTask (s : Server) (i : TaskId) (r : Caller) (input : TaskInput) : Option Server :=
  match s.pc i with
  | .yielded =>
    if s.pool.fd i = -1 then some (s.coYield i r)
    -- `malloc` returns a cell that is not in use
    else if s.manager.heap input.cell = none then
      some ((s.newSession i input).loopHead i r (s.pool.fd i) (Int32.ofInt input.acceptTime)
        input.cell (.init (timestamp input.tv) (s.pool.fd i)) input.now)
    else none
  | .polling fd acceptTimestamp session =>
    match s.manager.heap session with
    | none => none
    | some conn =>
      let a := afterPoll fd conn input.stale input.read
      let s := { s with manager := s.manager.store session (some a.session) }.perform a.events
      match a.flow with
      | .again => some (s.loopHead i r fd acceptTimestamp session a.session input.now)
      | .left => some (s.leaveLoop i r)
      | .fault => none

/-- One step, from a point where control changes hands to the next. -/
def step (s : Server) : Input → Option Server
  | .resumeAccept =>
    if s.control = .caller .eventLoop then some { s with control := .caller .accept } else none
  | .coAccept none =>
    if s.control = .caller .accept then some { s with control := .caller .eventLoop } else none
  | .coAccept (some connfd) =>
    -- a new descriptor is not negative and not open
    if s.control = .caller .accept ∧ 0 ≤ connfd ∧ s.pool.openFds connfd = none then
      match s.pool.acceptFd connfd with
      | (pool, none) => some { s with pool := pool }
      | (pool, some i) => some { s with pool := pool, control := .task i .accept }
    else none
  | .wake i =>
    if s.control = .caller .eventLoop ∧ s.pc i ≠ .yielded then
      some { s with control := .task i .eventLoop }
    else none
  | .run input =>
    match s.control with
    | .task i r => s.runTask i r input
    | .caller _ => none

/-- After `init`: the coroutines have run into their first `co_yield_ct`. -/
def init : Server where
  pool := .init
  pc _ := .yielded
  control := .caller .eventLoop
  manager := .init
  sids := []
  owner _ := none

/-- Any interleaving of the coroutines. -/
def machine : Machine Server Input := ⟨init, step⟩

/-- The step leaves a session loop: on a timeout, because the peer closed, or on an error. -/
def leaves (s : Server) : Input → Bool
  | .run input =>
    match s.control with
    | .task i _ =>
      match s.pc i with
      | .yielded =>
        s.pool.fd i ≠ -1 ∧ (beforePoll (s.pool.fd i) (Int32.ofInt input.acceptTime) input.now
          (.init (timestamp input.tv) (s.pool.fd i))).flow = .left
      | .polling fd acceptTimestamp session =>
        match s.manager.heap session with
        | none => false
        | some conn =>
          let a := afterPoll fd conn input.stale input.read
          a.flow = .left ∨
            a.flow = .again ∧ (beforePoll fd acceptTimestamp input.now a.session).flow = .left
    | .caller _ => false
  | _ => false

/-! ## What a step can do -/

/-- A step, and whether it leaves a session loop. -/
inductive Acts (s : Server) : Bool → Server → Prop
  /-- Control goes on to someone else. -/
  | pass (control : Control) : Acts s false { s with control := control }
  /-- A connection finds no idle task. -/
  | refuse (connfd : Int) (hopen : s.pool.openFds connfd = none) (hnone : s.pool.mTasks = []) :
    Acts s false { s with pool := (s.pool.acceptFd connfd).1 }
  /-- A connection is given to a task. -/
  | give (connfd : Int) (i : TaskId) (rest : List TaskId) (hpos : 0 ≤ connfd)
    (hopen : s.pool.openFds connfd = none) (htask : s.pool.mTasks = i :: rest) :
    Acts s false { s with pool := (s.pool.acceptFd connfd).1, control := .task i .accept }
  /-- A task without a connection yields again. -/
  | idle (i : TaskId) (r : Caller) (hpc : s.pc i = .yielded) : Acts s false (s.coYield i r)
  /-- A task begins a session and waits. -/
  | begin (i : TaskId) (r : Caller) (input : TaskInput) (hpc : s.pc i = .yielded)
    (hfd : s.pool.fd i ≠ -1) (hcell : s.manager.heap input.cell = none)
    (hwait : (beforePoll (s.pool.fd i) (Int32.ofInt input.acceptTime) input.now
      (.init (timestamp input.tv) (s.pool.fd i))).flow = .again) :
    Acts s false ((s.newSession i input).coPoll i r (s.pool.fd i) (Int32.ofInt input.acceptTime)
      input.cell)
  /-- A task begins a session that is over at once. -/
  | beginLeave (i : TaskId) (r : Caller) (input : TaskInput) (hpc : s.pc i = .yielded)
    (hfd : s.pool.fd i ≠ -1) (hcell : s.manager.heap input.cell = none) :
    Acts s true ({ s.newSession i input with pool := s.pool.closeFd (s.pool.fd i) }.leaveLoop i r)
  /-- A session reads and waits again. -/
  | again (i : TaskId) (r : Caller) (fd : Int) (acceptTimestamp : Int32) (session : Ptr)
    (conn : EasnConnT) (input : TaskInput) (hpc : s.pc i = .polling fd acceptTimestamp session)
    (hheap : s.manager.heap session = some conn)
    (hread : (afterPoll fd conn input.stale input.read).flow = .again)
    (hwait : (beforePoll fd acceptTimestamp input.now
      (afterPoll fd conn input.stale input.read).session).flow = .again) :
    Acts s false ({ s with
      manager := s.manager.store session
        (some (afterPoll fd conn input.stale input.read).session) }.coPoll i r fd acceptTimestamp
          session)
  /-- A session is over. -/
  | leave (i : TaskId) (r : Caller) (fd : Int) (acceptTimestamp : Int32) (session : Ptr)
    (conn : EasnConnT) (input : TaskInput) (hpc : s.pc i = .polling fd acceptTimestamp session)
    (hheap : s.manager.heap session = some conn) :
    Acts s true ({ s with
      manager := s.manager.store session
        (some (afterPoll fd conn input.stale input.read).session)
      pool := s.pool.closeFd fd }.leaveLoop i r)

/-! ### The parts of a step -/

section parts

variable {s : Server} {i : TaskId} {r : Caller} {fd : Int} {acceptTimestamp : Int32} {now : Int}
  {session : Ptr} {conn : EasnConnT}

theorem perform_append (es es' : List SessionEvent) :
    s.perform (es ++ es') = (s.perform es).perform es' := by
  induction es generalizing s with
  | nil => rfl
  | cons e es ih => cases e <;> exact ih

/-- The callback closes nothing. -/
theorem perform_onPackets (conn : EasnConnT) (pkts : List PacketT) :
    s.perform (onPackets conn pkts).2 = s := by
  induction pkts generalizing s conn with
  | nil => rfl
  | cons pkt pkts ih =>
    rw [onPackets, perform_append]
    have hone : s.perform (onPacket conn pkt).2 = s := by
      unfold onPacket
      split <;> rfl
    rw [hone, ih]

/-- The head of the loop, when the session goes on. -/
theorem loopHead_again (h : (beforePoll fd acceptTimestamp now conn).flow = .again) :
    s.loopHead i r fd acceptTimestamp session conn now
      = s.coPoll i r fd acceptTimestamp session := by
  unfold loopHead
  rcases events_beforePoll fd acceptTimestamp now conn with ⟨left, he, hf⟩ | ⟨_, hf⟩
  · simp only [hf, he]
    rfl
  · rw [hf] at h
    exact absurd h (by decide)

/-- The head of the loop, when the session has timed out. -/
theorem loopHead_left (h : (beforePoll fd acceptTimestamp now conn).flow = .left) :
    s.loopHead i r fd acceptTimestamp session conn now
      = { s with pool := s.pool.closeFd fd }.leaveLoop i r := by
  unfold loopHead
  rcases events_beforePoll fd acceptTimestamp now conn with ⟨left, _, hf⟩ | ⟨he, hf⟩
  · rw [hf] at h
    exact absurd h (by decide)
  · simp only [hf, he]
    rfl

/-! What letting go of control does to where the coroutines stand. -/

theorem pc_coYield (h : s.pc i = .yielded) : (s.coYield i r).pc = s.pc := by
  unfold coYield
  rw [← h, Function.update_eq_self]

theorem pc_coPoll (h : s.pc i = .polling fd acceptTimestamp session) :
    (s.coPoll i r fd acceptTimestamp session).pc = s.pc := by
  unfold coPoll
  rw [← h, Function.update_eq_self]

/-- A coroutine that waits, after one of them came to wait. -/
theorem pc_coPoll_cases {j : TaskId} {fd' : Int} {acceptTimestamp' : Int32} {session' : Ptr}
    (h : (s.coPoll i r fd acceptTimestamp session).pc j
      = .polling fd' acceptTimestamp' session') :
    (j = i ∧ fd' = fd ∧ acceptTimestamp' = acceptTimestamp ∧ session' = session) ∨
      (j ≠ i ∧ s.pc j = .polling fd' acceptTimestamp' session') := by
  simp only [coPoll] at h
  by_cases hji : j = i
  · subst hji
    rw [Function.update_self, Pc.polling.injEq] at h
    exact Or.inl ⟨rfl, h.1.symm, h.2.1.symm, h.2.2.symm⟩
  · exact Or.inr ⟨hji, (Function.update_of_ne hji _ _).symm.trans h⟩

/-- Coroutines wait in different sessions, also after one came to wait in a session that was
nobody's. -/
theorem apart_coPoll
    (hapart : ∀ j k fd fd' ts ts' p, s.pc j = .polling fd ts p → s.pc k = .polling fd' ts' p →
      j = k)
    (hfree : ∀ j fd ts p, s.pc j = .polling fd ts p → p ≠ session) (j k : TaskId) (fd' fd'' : Int)
    (ts ts' : Int32) (p : Ptr)
    (hj : (s.coPoll i r fd acceptTimestamp session).pc j = .polling fd' ts p)
    (hk : (s.coPoll i r fd acceptTimestamp session).pc k = .polling fd'' ts' p) : j = k := by
  rcases pc_coPoll_cases hj with ⟨hji, _, _, hp⟩ | ⟨_, hj⟩ <;>
    rcases pc_coPoll_cases hk with ⟨hki, _, _, hp'⟩ | ⟨_, hk⟩
  · exact hji.trans hki.symm
  · exact absurd hp (hfree k fd'' ts' p hk)
  · exact absurd hp' (hfree j fd' ts p hj)
  · exact hapart j k fd' fd'' ts ts' p hj hk

/-- A coroutine that has left its session loop serves no session. -/
theorem pc_leaveLoop {j : TaskId}
    (h : (s.leaveLoop i r).pc j = .polling fd acceptTimestamp session) :
    j ≠ i ∧ s.pc j = .polling fd acceptTimestamp session := by
  unfold leaveLoop coYield at h
  have hji : j ≠ i := by
    rintro rfl
    simp at h
  exact ⟨hji, by simpa [Function.update_of_ne hji] using h⟩

end parts

/-! ### The steps of a coroutine -/

section runTask

variable {s s' : Server} {i : TaskId} {r : Caller} {input : TaskInput}

theorem acts_begin (hc : s.control = .task i r) (hpc : s.pc i = .yielded)
    (h : s.runTask i r input = some s') : Acts s (s.leaves (.run input)) s' := by
  rw [runTask, hpc] at h
  simp only [] at h
  split at h
  · next hfd =>
    obtain rfl := Option.some.inj h
    have hl : s.leaves (.run input) = false := by simp [leaves, hc, hpc, hfd]
    rw [hl]
    exact Acts.idle i r hpc
  · next hfd =>
    simp only [Option.ite_none_right_eq_some, Option.some.injEq] at h
    obtain ⟨hcell, rfl⟩ := h
    rcases events_beforePoll (s.pool.fd i) (Int32.ofInt input.acceptTime) input.now
        (.init (timestamp input.tv) (s.pool.fd i)) with ⟨left, _, hf⟩ | ⟨_, hf⟩
    · have hl : s.leaves (.run input) = false := by simp [leaves, hc, hpc, hf]
      rw [hl, loopHead_again hf]
      exact Acts.begin i r input hpc hfd hcell hf
    · have hl : s.leaves (.run input) = true := by simp [leaves, hc, hpc, hf, hfd]
      rw [hl, loopHead_left hf]
      exact Acts.beginLeave i r input hpc hfd hcell

theorem acts_continue (hc : s.control = .task i r) {fd : Int} {acceptTimestamp : Int32}
    {session : Ptr} (hpc : s.pc i = .polling fd acceptTimestamp session)
    (h : s.runTask i r input = some s') : Acts s (s.leaves (.run input)) s' := by
  rw [runTask, hpc] at h
  simp only [] at h
  split at h
  · simp at h
  · next conn hheap =>
    rcases afterPoll_cases fd conn input.stale input.read with
      ⟨pkts, _, hevents, hflow⟩ | ⟨_, hevents, hflow⟩
    · rw [hevents, perform_onPackets] at h
      cases hf : (afterPoll fd conn input.stale input.read).flow with
      | left => exact absurd hf hflow
      | fault => simp [hf] at h
      | again =>
        simp only [hf, Option.some.injEq] at h
        subst h
        rcases events_beforePoll fd acceptTimestamp input.now
            (afterPoll fd conn input.stale input.read).session with ⟨left, _, hb⟩ | ⟨_, hb⟩
        · have hl : s.leaves (.run input) = false := by simp [leaves, hc, hpc, hheap, hf, hb]
          rw [hl, loopHead_again hb]
          exact Acts.again i r fd _ session conn input hpc hheap hf hb
        · have hl : s.leaves (.run input) = true := by simp [leaves, hc, hpc, hheap, hf, hb]
          rw [hl, loopHead_left hb]
          exact Acts.leave i r fd _ session conn input hpc hheap
    · have hl : s.leaves (.run input) = true := by simp [leaves, hc, hpc, hheap, hflow]
      rw [hevents] at h
      simp only [hflow, Option.some.injEq] at h
      subst h
      rw [hl]
      exact Acts.leave i r fd _ session conn input hpc hheap

end runTask

/-- **What a step does is one of the actions.** -/
theorem step_acts {s s' : Server} {input : Input} (h : s.step input = some s') :
    Acts s (s.leaves input) s' := by
  cases input with
  | resumeAccept =>
    simp only [step, Option.ite_none_right_eq_some, Option.some.injEq] at h
    obtain ⟨_, rfl⟩ := h
    exact Acts.pass _
  | coAccept connfd =>
    cases connfd with
    | none =>
      simp only [step, Option.ite_none_right_eq_some, Option.some.injEq] at h
      obtain ⟨_, rfl⟩ := h
      exact Acts.pass _
    | some connfd =>
      simp only [step, Option.ite_none_right_eq_some] at h
      obtain ⟨⟨_, hpos, hopen⟩, h⟩ := h
      cases htasks : s.pool.mTasks with
      | nil =>
        have haccept := TaskPool.acceptFd_nil htasks connfd
        rw [haccept] at h
        obtain rfl := Option.some.inj h
        have hrefuse := Acts.refuse connfd hopen htasks
        rwa [haccept] at hrefuse
      | cons i rest =>
        have haccept := TaskPool.acceptFd_cons htasks connfd
        rw [haccept] at h
        obtain rfl := Option.some.inj h
        have hgive := Acts.give connfd i rest hpos hopen htasks
        rwa [haccept] at hgive
  | wake i =>
    simp only [step, Option.ite_none_right_eq_some, Option.some.injEq] at h
    obtain ⟨_, rfl⟩ := h
    exact Acts.pass _
  | run input =>
    rw [step] at h
    split at h
    · next i r hc =>
      cases hpc : s.pc i with
      | yielded => exact acts_begin hc hpc h
      | polling fd acceptTimestamp session => exact acts_continue hc hpc h
    · simp at h

end Server

end Easn
