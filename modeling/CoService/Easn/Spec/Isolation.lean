import CoService.Easn.Properties.Pool
import CoService.Easn.Roundtrip.Message
import CoService.Easn.Spec.ServedSession

/-!
# Connections do not disturb each other

The coroutines of the server share one thread, the pool, the table of sessions and the heap. All the
same, what happens on a connection depends on nothing but what its own coroutine is given: it is
what the session loop does on the turns of this one connection.

* `Activation` — one time that a coroutine runs for a connection
* `connEvents` — what the session loop does, when it alone is given these inputs
* `isolation` — what is done for a connection of a run is what the session loop does by itself

So what is proved of the session loop holds of every connection, whatever the others do.
-/

namespace Easn

open Infra

/-! ## One connection by itself -/

/-- The turns of a session loop, from what its coroutine is given each time it runs. `now` is the
clock when the loop went to its head last. -/
def turnsOf : Int → List TaskInput → List Turn
  | _, [] => []
  | now, x :: xs => ⟨now, x.stale, x.read⟩ :: turnsOf x.now xs

/-- The clock when the loop went to its head last. -/
def lastNow : Int → List TaskInput → Int
  | now, [] => now
  | _, x :: xs => lastNow x.now xs

/-- The session loop up to its next `co_poll`, or to where it ends. -/
def loopTo (fd : Int) (acceptTimestamp : Int32) (start : EasnConnT) (now : Int)
    (xs : List TaskInput) : Outcome :=
  let o := sessionLoop fd acceptTimestamp start (turnsOf now xs)
  match o.flow with
  | .again =>
    let b := beforePoll fd acceptTimestamp (lastNow now xs) o.session
    ⟨o.session, o.events ++ b.events, b.flow⟩
  | _ => o

/-- A session is created for the descriptor `fd`, and the session loop runs. -/
def connLoop (fd : Int) (first : TaskInput) (rest : List TaskInput) : Outcome :=
  loopTo fd (Int32.ofInt first.acceptTime) (.init (timestamp first.tv) fd) first.now rest

/-- The first part of a session: up to its first `co_poll`. -/
theorem connLoop_nil (fd : Int) (x : TaskInput) : connLoop fd x [] =
    ⟨.init (timestamp x.tv) fd,
      (beforePoll fd (Int32.ofInt x.acceptTime) x.now (.init (timestamp x.tv) fd)).events,
      (beforePoll fd (Int32.ofInt x.acceptTime) x.now (.init (timestamp x.tv) fd)).flow⟩ := by
  simp [connLoop, loopTo, turnsOf, lastNow, sessionLoop]

/-- What is done for a connection with the descriptor `fd`. -/
def connEvents (fd : Int) : List TaskInput → List SessionEvent
  | [] => []
  | first :: rest => (connLoop fd first rest).events

/-- The events are those of the session loop, and it takes every input: it waits until the last one
comes. -/
structure Serves (fd : Int) (xs : List TaskInput) (events : List SessionEvent) : Prop where
  events_eq : events = connEvents fd xs
  waits : ∀ first rest x, first :: (rest ++ [x]) <+: xs → (connLoop fd first rest).flow = .again

section alone

variable {fd : Int} {acceptTimestamp : Int32} {start : EasnConnT} {now : Int}

theorem turnsOf_append_singleton (now : Int) (xs : List TaskInput) (x : TaskInput) :
    turnsOf now (xs ++ [x]) = turnsOf now xs ++ [⟨lastNow now xs, x.stale, x.read⟩] := by
  induction xs generalizing now with
  | nil => rfl
  | cons y xs ih => rw [List.cons_append, turnsOf, ih, turnsOf, lastNow, List.cons_append]

theorem lastNow_append_singleton (now : Int) (xs : List TaskInput) (x : TaskInput) :
    lastNow now (xs ++ [x]) = x.now := by
  induction xs generalizing now with
  | nil => rfl
  | cons y xs ih => exact ih y.now

/-- The next part of a session that waits: what `co_poll` and `read` lead to, and the head of the
loop, if it goes on. -/
def nextPart (fd : Int) (acceptTimestamp : Int32) (conn : EasnConnT) (x : TaskInput) : Outcome :=
  let a := afterPoll fd conn x.stale x.read
  match a.flow with
  | .again =>
    let b := beforePoll fd acceptTimestamp x.now a.session
    ⟨a.session, a.events ++ b.events, b.flow⟩
  | _ => a

theorem loopTo_append_singleton {xs : List TaskInput}
    (h : (loopTo fd acceptTimestamp start now xs).flow = .again) (x : TaskInput) :
    loopTo fd acceptTimestamp start now (xs ++ [x]) =
      ⟨(nextPart fd acceptTimestamp (loopTo fd acceptTimestamp start now xs).session x).session,
        (loopTo fd acceptTimestamp start now xs).events ++
          (nextPart fd acceptTimestamp (loopTo fd acceptTimestamp start now xs).session x).events,
        (nextPart fd acceptTimestamp (loopTo fd acceptTimestamp start now xs).session x).flow⟩ := by
  unfold loopTo at h ⊢
  rw [turnsOf_append_singleton, lastNow_append_singleton, sessionLoop_append]
  generalize sessionLoop fd acceptTimestamp start (turnsOf now xs) = o at h ⊢
  cases hflow : o.flow with
  | left => simp [hflow] at h
  | fault => simp [hflow] at h
  | again =>
    simp only [hflow] at h ⊢
    rw [Outcome.turn, hflow]
    simp only [h, session_beforePoll, nextPart]
    cases hread : (afterPoll fd o.session x.stale x.read).flow <;> simp [hread]

theorem connLoop_append_singleton {first : TaskInput} {rest : List TaskInput}
    (h : (connLoop fd first rest).flow = .again) (x : TaskInput) :
    connLoop fd first (rest ++ [x]) =
      ⟨(nextPart fd (Int32.ofInt first.acceptTime) (connLoop fd first rest).session x).session,
        (connLoop fd first rest).events ++
          (nextPart fd (Int32.ofInt first.acceptTime) (connLoop fd first rest).session x).events,
        (nextPart fd (Int32.ofInt first.acceptTime) (connLoop fd first rest).session x).flow⟩ :=
  loopTo_append_singleton h x

theorem Serves.nil : Serves fd [] [] := ⟨rfl, by simp⟩

theorem Serves.begin (x : TaskInput) :
    Serves fd [x] (beforePoll fd (Int32.ofInt x.acceptTime) x.now
      (.init (timestamp x.tv) fd)).events := by
  refine ⟨?_, fun first rest y hpre => ?_⟩
  · rw [connEvents, connLoop_nil]
  · have hlen := hpre.length_le
    simp at hlen

/-- The session goes on. -/
theorem Serves.next {first : TaskInput} {rest : List TaskInput} {events : List SessionEvent}
    (h : Serves fd (first :: rest) events) (hflow : (connLoop fd first rest).flow = .again)
    (x : TaskInput) :
    Serves fd (first :: rest ++ [x]) (events ++
      (nextPart fd (Int32.ofInt first.acceptTime) (connLoop fd first rest).session x).events) := by
  refine ⟨?_, fun first' rest' y hpre => ?_⟩
  · rw [h.events_eq, List.cons_append, connEvents, connEvents, connLoop_append_singleton hflow]
  · rcases List.prefix_concat_iff.mp hpre with heq | hpre
    · rw [List.cons_append, List.cons.injEq] at heq
      obtain ⟨rfl, heq⟩ := heq
      obtain ⟨rfl, _⟩ := List.append_inj' heq rfl
      exact hflow
    · exact h.waits first' rest' y hpre

end alone

/-! ## The connections of the server -/

/-- One time that a coroutine runs for a connection: what it is given and what it does. -/
structure Activation where
  conn : Conn
  input : TaskInput
  events : List SessionEvent

namespace Server

/-- For which connection a step runs a coroutine, and what that does. -/
def activation (s : Server) : Input → List Activation
  | .run input =>
    match s.control with
    | .task i _ =>
      match s.pc i with
      | .yielded =>
        if s.pool.fd i = -1 then []
        else if s.manager.heap input.cell = none then
          [⟨s.pool.served i, input, (beforePoll (s.pool.fd i) (Int32.ofInt input.acceptTime) input.now
            (.init (timestamp input.tv) (s.pool.fd i))).events⟩]
        else []
      | .polling fd acceptTimestamp session =>
        match s.manager.heap session with
        | none => []
        | some conn =>
          [⟨s.pool.served i, input, (nextPart fd acceptTimestamp conn input).events⟩]
    | .caller _ => []
  | _ => []

/-- The coroutines that ran in a run, in order. -/
def activations (is : List Input) : List Activation := machine.trace activation is

/-- Those that ran for one connection. -/
def activationsOf (c : Conn) (is : List Input) : List Activation :=
  (activations is).filter fun a => a.conn = c

/-- What a connection was given in a run. -/
def inputsOf (c : Conn) (is : List Input) : List TaskInput :=
  (activationsOf c is).map Activation.input

/-- What was done for a connection in a run. -/
def eventsOf (c : Conn) (is : List Input) : List SessionEvent :=
  (activationsOf c is).flatMap Activation.events

/-- The connection was accepted in the run, with this descriptor. -/
def AcceptedIn (is : List Input) (c : Conn) (fd : Int) : Prop :=
  ∃ before s, before <+: is ∧ machine.run before = some s ∧ .accepted c fd ∈ s.pool.log

section activations

variable {is : List Input} {s : Server} {c : Conn}

theorem activationsOf_append_singleton (h : machine.run is = some s) (input : Input) :
    activationsOf c (is ++ [input])
      = activationsOf c is ++ (s.activation input).filter fun a => a.conn = c := by
  rw [activationsOf, activations, Machine.trace_append_singleton h, List.filter_append]
  rfl

theorem activationsOf_of_none (h : machine.run is = none) (input : Input) :
    activationsOf c (is ++ [input]) = activationsOf c is := by
  rw [activationsOf, activations, Machine.trace_append_of_run_eq_none h]
  rfl

theorem activation_begin {i : TaskId} {r : Caller} {x : TaskInput} (hc : s.control = .task i r)
    (hpc : s.pc i = .yielded) (hi : s.pool.fd i ≠ -1) (hcell : s.manager.heap x.cell = none) :
    s.activation (.run x) = [⟨s.pool.served i, x,
      (beforePoll (s.pool.fd i) (Int32.ofInt x.acceptTime) x.now
        (.init (timestamp x.tv) (s.pool.fd i))).events⟩] := by
  simp only [activation, hc, hpc, if_neg hi, if_pos hcell]

theorem activation_next {i : TaskId} {r : Caller} {x : TaskInput} {fd : Int} {ts : Int32} {p : Ptr}
    {conn : EasnConnT} (hc : s.control = .task i r) (hpc : s.pc i = .polling fd ts p)
    (hheap : s.manager.heap p = some conn) :
    s.activation (.run x) = [⟨s.pool.served i, x, (nextPart fd ts conn x).events⟩] := by
  simp only [activation, hc, hpc, hheap]

/-- For whom a step runs a coroutine: for no connection, or for one whose session begins or goes on.
A fault may still end the process. -/
inductive RunsFor (s : Server) : Input → Prop
  | nobody (input : Input) (hact : s.activation input = []) : RunsFor s input
  | begin (i : TaskId) (r : Caller) (x : TaskInput) (hc : s.control = .task i r)
    (hpc : s.pc i = .yielded) (hi : s.pool.fd i ≠ -1) (hcell : s.manager.heap x.cell = none) :
    RunsFor s (.run x)
  | next (i : TaskId) (r : Caller) (x : TaskInput) (fd : Int) (acceptTimestamp : Int32) (p : Ptr)
    (conn : EasnConnT) (hc : s.control = .task i r) (hpc : s.pc i = .polling fd acceptTimestamp p)
    (hheap : s.manager.heap p = some conn) : RunsFor s (.run x)

theorem runsFor (s : Server) (input : Input) : RunsFor s input := by
  cases input with
  | resumeAccept => exact RunsFor.nobody _ rfl
  | coAccept connfd => exact RunsFor.nobody _ rfl
  | wake i => exact RunsFor.nobody _ rfl
  | run x =>
    cases hc : s.control with
    | caller r => exact RunsFor.nobody _ (by simp [activation, hc])
    | task i r =>
      cases hpc : s.pc i with
      | yielded =>
        by_cases hi : s.pool.fd i = -1
        · exact RunsFor.nobody _ (by simp [activation, hc, hpc, hi])
        · by_cases hcell : s.manager.heap x.cell = none
          · exact RunsFor.begin i r x hc hpc hi hcell
          · exact RunsFor.nobody _ (by simp [activation, hc, hpc, hi, hcell])
      | polling fd acceptTimestamp p =>
        cases hheap : s.manager.heap p with
        | none => exact RunsFor.nobody _ (by simp [activation, hc, hpc, hheap])
        | some conn => exact RunsFor.next i r x fd acceptTimestamp p conn hc hpc hheap

end activations

/-- The connections of the run so far are served by the session loop, each by itself. -/
structure Isolated (is : List Input) (s : Server) : Prop where
  serves : ∀ c fd, .accepted c fd ∈ s.pool.log → Serves fd (inputsOf c is) (eventsOf c is)
  fresh : ∀ c, s.pool.accepted ≤ c → activationsOf c is = []
  given : ∀ i, s.pc i = .yielded → s.pool.fd i ≠ -1 → activationsOf (s.pool.served i) is = []
  polling : ∀ i fd acceptTimestamp p, s.pc i = .polling fd acceptTimestamp p →
    ∃ first rest conn, inputsOf (s.pool.served i) is = first :: rest ∧
      acceptTimestamp = Int32.ofInt first.acceptTime ∧ s.manager.heap p = some conn ∧
      (connLoop fd first rest).session = conn ∧ (connLoop fd first rest).flow = .again

/-! ### What a coroutine does when it runs -/

section runTask

variable {s s' : Server} {i : TaskId} {r : Caller} {input : TaskInput}

/-- A coroutine that begins a session waits in it or is through with it. -/
theorem runTask_begin (hpc : s.pc i = .yielded) (hfd : s.pool.fd i ≠ -1)
    (hcell : s.manager.heap input.cell = none) (h : s.runTask i r input = some s') :
    ((beforePoll (s.pool.fd i) (Int32.ofInt input.acceptTime) input.now
        (.init (timestamp input.tv) (s.pool.fd i))).flow = .again ∧
      s' = (s.newSession i input).coPoll i r (s.pool.fd i) (Int32.ofInt input.acceptTime)
        input.cell) ∨
    s' = { s.newSession i input with pool := s.pool.closeFd (s.pool.fd i) }.leaveLoop i r := by
  simp only [runTask, hpc, if_neg hfd, if_pos hcell, Option.some.injEq] at h
  subst h
  rcases events_beforePoll (s.pool.fd i) (Int32.ofInt input.acceptTime) input.now
      (.init (timestamp input.tv) (s.pool.fd i)) with ⟨_, _, hf⟩ | ⟨_, hf⟩
  · exact Or.inl ⟨hf, loopHead_again hf⟩
  · exact Or.inr (loopHead_left hf)

/-- A coroutine that waits in a session waits again or is through with it. -/
theorem runTask_next {fd : Int} {acceptTimestamp : Int32} {session : Ptr} {conn : EasnConnT}
    (hpc : s.pc i = .polling fd acceptTimestamp session)
    (hheap : s.manager.heap session = some conn) (h : s.runTask i r input = some s') :
    ((nextPart fd acceptTimestamp conn input).flow = .again ∧
      s' = { s with
        manager := s.manager.store session
          (some (nextPart fd acceptTimestamp conn input).session) }.coPoll i r fd acceptTimestamp
            session) ∨
    s' = { s with
      manager := s.manager.store session (some (nextPart fd acceptTimestamp conn input).session)
      pool := s.pool.closeFd fd }.leaveLoop i r := by
  rw [runTask, hpc] at h
  simp only [hheap] at h
  rcases afterPoll_cases fd conn input.stale input.read with
    ⟨pkts, _, hevents, hflow⟩ | ⟨_, hevents, hflow⟩
  · rw [hevents, perform_onPackets] at h
    cases hread : (afterPoll fd conn input.stale input.read).flow with
    | left => exact absurd hread hflow
    | fault => simp [hread] at h
    | again =>
      simp only [hread, Option.some.injEq] at h
      subst h
      rcases events_beforePoll fd acceptTimestamp input.now
          (afterPoll fd conn input.stale input.read).session with ⟨_, _, hf⟩ | ⟨_, hf⟩
      · rw [loopHead_again hf]
        exact Or.inl ⟨by simp [nextPart, hread, hf], by simp [nextPart, hread]⟩
      · rw [loopHead_left hf]
        exact Or.inr (by simp [nextPart, hread])
  · rw [hevents] at h
    simp only [hflow, Option.some.injEq] at h
    subst h
    exact Or.inr (by simp [nextPart, hflow]; rfl)

/-- What the coroutine that has control does: it stays idle, begins a session or goes on in one. -/
inductive Runs (s : Server) (x : TaskInput) (s' : Server) : Prop
  | idle (i : TaskId) (r : Caller) (hc : s.control = .task i r) (hpc : s.pc i = .yielded)
    (hi : s.pool.fd i = -1) (hs : s' = s.coYield i r)
  | begin (i : TaskId) (r : Caller) (hc : s.control = .task i r) (hpc : s.pc i = .yielded)
    (hi : s.pool.fd i ≠ -1) (hcell : s.manager.heap x.cell = none)
    (hs : s.runTask i r x = some s')
  | next (i : TaskId) (r : Caller) (fd : Int) (acceptTimestamp : Int32) (session : Ptr)
    (conn : EasnConnT) (hc : s.control = .task i r)
    (hpc : s.pc i = .polling fd acceptTimestamp session)
    (hheap : s.manager.heap session = some conn) (hs : s.runTask i r x = some s')

theorem step_runs (h : s.step (.run input) = some s') : Runs s input s' := by
  cases hc : s.control with
  | caller r => simp [step, hc] at h
  | task i r =>
    simp only [step, hc] at h
    cases hpc : s.pc i with
    | yielded =>
      by_cases hi : s.pool.fd i = -1
      · simp only [runTask, hpc, if_pos hi, Option.some.injEq] at h
        exact Runs.idle i r hc hpc hi h.symm
      · have hcell : s.manager.heap input.cell = none := by
          by_contra hcell
          simp [runTask, hpc, hi, hcell] at h
        exact Runs.begin i r hc hpc hi hcell h
    | polling fd acceptTimestamp session =>
      cases hheap : s.manager.heap session with
      | none => simp [runTask, hpc, hheap] at h
      | some conn => exact Runs.next i r fd acceptTimestamp session conn hc hpc hheap h

end runTask

/-! ### One step -/

/-- The descriptor of a connection that is served is the one it was accepted with. -/
theorem fd_of_accepted {pool : TaskPool} (h : pool.Inv) {i : TaskId} (hi : pool.fd i ≠ -1)
    {fd : Int} (hacc : .accepted (pool.served i) fd ∈ pool.log) : fd = pool.fd i := by
  have hmem : PoolEvent.accepted (pool.served i) fd ∈ lifeOf pool.log (pool.served i) :=
    List.mem_filter.mpr ⟨hacc, by simp [PoolEvent.conn]⟩
  rw [(h.busy i hi).2] at hmem
  simpa using hmem

theorem accepted_of_served {pool : TaskPool} (h : pool.Inv) {i : TaskId} (hi : pool.fd i ≠ -1) :
    .accepted (pool.served i) (pool.fd i) ∈ pool.log := by
  have hmem : PoolEvent.accepted (pool.served i) (pool.fd i) ∈ lifeOf pool.log (pool.served i) := by
    rw [(h.busy i hi).2]
    exact List.mem_cons_self
  exact (List.mem_filter.mp hmem).1

namespace Isolated

variable {is : List Input} {s s' : Server} {i : TaskId} {input : Input} {x : TaskInput}
  {evs : List SessionEvent}

theorem init : Isolated [] Server.init where
  serves c fd h := by simp [Server.init, show TaskPool.init.log = [] from rfl] at h
  fresh c _ := rfl
  given i _ _ := rfl
  polling i fd ts p h := by simp [Server.init] at h

/-- A step that runs no coroutine for a connection. -/
theorem activationsOf_eq (hrun : machine.run is = some s) (hact : s.activation input = [])
    (c : Conn) : activationsOf c (is ++ [input]) = activationsOf c is := by
  rw [activationsOf_append_singleton hrun, hact]
  exact List.append_nil _

/-- A coroutine that runs for its own connection does not run for another. -/
theorem activationsOf_of_ne (hrun : machine.run is = some s)
    (hact : s.activation input = [⟨s.pool.served i, x, evs⟩]) {c : Conn}
    (hc : c ≠ s.pool.served i) : activationsOf c (is ++ [input]) = activationsOf c is := by
  rw [activationsOf_append_singleton hrun, hact]
  simp [hc.symm]

theorem activationsOf_self (hrun : machine.run is = some s)
    (hact : s.activation input = [⟨s.pool.served i, x, evs⟩]) :
    activationsOf (s.pool.served i) (is ++ [input])
      = activationsOf (s.pool.served i) is ++ [⟨s.pool.served i, x, evs⟩] := by
  rw [activationsOf_append_singleton hrun, hact]
  simp

/-- No coroutine runs for a connection: nothing changes for the connections. -/
theorem quiet (h : Isolated is s) (hrun : machine.run is = some s)
    (hact : s.activation input = [])
    (hlog : ∀ c fd, .accepted c fd ∈ s'.pool.log → .accepted c fd ∈ s.pool.log ∨
      s.pool.accepted ≤ c)
    (haccepted : s.pool.accepted ≤ s'.pool.accepted) (hm : s'.manager = s.manager)
    (hpc : s'.pc = s.pc)
    (htask : ∀ i, s'.pool.fd i ≠ -1 → (s'.pool.served i = s.pool.served i ∧
      s'.pool.fd i = s.pool.fd i) ∨ s.pool.accepted ≤ s'.pool.served i)
    (hpolling : ∀ i fd ts p, s.pc i = .polling fd ts p → s'.pool.served i = s.pool.served i) :
    Isolated (is ++ [input]) s' where
  serves c fd hacc := by
    have heq := activationsOf_eq hrun hact c
    rw [eventsOf, inputsOf, heq]
    rcases hlog c fd hacc with hacc | hfresh
    · exact h.serves c fd hacc
    · rw [h.fresh c hfresh]
      exact Serves.nil
  fresh c hc := (activationsOf_eq hrun hact c).trans (h.fresh c (haccepted.trans hc))
  given i hi hfd := by
    rw [activationsOf_eq hrun hact]
    rcases htask i hfd with ⟨hserved, hfdeq⟩ | hfresh
    · rw [hserved]
      exact h.given i (hpc ▸ hi) (hfdeq ▸ hfd)
    · exact h.fresh _ hfresh
  polling i fd ts p hi := by
    rw [hpc] at hi
    rw [inputsOf, activationsOf_eq hrun hact, hpolling i fd ts p hi, hm]
    exact h.polling i fd ts p hi

/-- What was done for the connections, when a coroutine did its part for its own. -/
theorem serves_of_act (h : Isolated is s) (hp : s.PoolInv) (hrun : machine.run is = some s)
    (hact : s.activation input = [⟨s.pool.served i, x, evs⟩]) (hi : s.pool.fd i ≠ -1)
    (hself : Serves (s.pool.fd i) (inputsOf (s.pool.served i) is ++ [x])
      (eventsOf (s.pool.served i) is ++ evs)) (c : Conn) (fd : Int)
    (hacc : .accepted c fd ∈ s.pool.log) :
    Serves fd (inputsOf c (is ++ [input])) (eventsOf c (is ++ [input])) := by
  by_cases hc : c = s.pool.served i
  · subst hc
    obtain rfl := fd_of_accepted hp.pool hi hacc
    rw [eventsOf, inputsOf, activationsOf_self hrun hact, List.flatMap_append, List.map_append]
    simpa [eventsOf, inputsOf] using hself
  · rw [eventsOf, inputsOf, activationsOf_of_ne hrun hact hc]
    exact h.serves c fd hacc

/-- The first part of a session. -/
theorem serves_begin (h : Isolated is s) (hpc : s.pc i = .yielded) (hi : s.pool.fd i ≠ -1) :
    Serves (s.pool.fd i) (inputsOf (s.pool.served i) is ++ [x])
      (eventsOf (s.pool.served i) is ++ (beforePoll (s.pool.fd i) (Int32.ofInt x.acceptTime) x.now
        (.init (timestamp x.tv) (s.pool.fd i))).events) := by
  rw [eventsOf, inputsOf, h.given i hpc hi]
  exact Serves.begin x

/-- The next part of a session. -/
theorem serves_next (h : Isolated is s) (hp : s.PoolInv) {fd : Int} {acceptTimestamp : Int32}
    {session : Ptr} {conn : EasnConnT} (hpc : s.pc i = .polling fd acceptTimestamp session)
    (hheap : s.manager.heap session = some conn) :
    Serves (s.pool.fd i) (inputsOf (s.pool.served i) is ++ [x])
      (eventsOf (s.pool.served i) is ++ (nextPart fd acceptTimestamp conn x).events) := by
  obtain ⟨rfl, hi⟩ := hp.polling i fd acceptTimestamp session hpc
  obtain ⟨first, rest, conn', hinputs, rfl, hheap', rfl, hflow⟩ :=
    h.polling i _ acceptTimestamp session hpc
  obtain rfl := Option.some.inj (hheap.symm.trans hheap')
  have hserves := h.serves _ _ (accepted_of_served hp.pool hi)
  rw [hinputs] at hserves ⊢
  exact hserves.next hflow x

/-- The coroutine waits in its session. -/
theorem wait (h : Isolated is s) (hp : s.PoolInv) (hrun : machine.run is = some s)
    (hact : s.activation input = [⟨s.pool.served i, x, evs⟩]) (hi : s.pool.fd i ≠ -1)
    (hself : Serves (s.pool.fd i) (inputsOf (s.pool.served i) is ++ [x])
      (eventsOf (s.pool.served i) is ++ evs))
    {ts : Int32} {p : Ptr} (hpool : s'.pool = s.pool)
    (hpc : s'.pc = Function.update s.pc i (.polling (s.pool.fd i) ts p))
    (hheap : ∀ j fd' ts' p', j ≠ i → s.pc j = .polling fd' ts' p' →
      s'.manager.heap p' = s.manager.heap p')
    (hnew : ∃ first rest conn, inputsOf (s.pool.served i) is ++ [x] = first :: rest ∧
      ts = Int32.ofInt first.acceptTime ∧ s'.manager.heap p = some conn ∧
      (connLoop (s.pool.fd i) first rest).session = conn ∧
      (connLoop (s.pool.fd i) first rest).flow = .again) : Isolated (is ++ [input]) s' where
  serves := by
    rw [hpool]
    exact h.serves_of_act hp hrun hact hi hself
  fresh c hc := by
    rw [hpool] at hc
    have hne : c ≠ s.pool.served i := Nat.ne_of_gt (Nat.lt_of_lt_of_le (hp.pool.served_lt hi) hc)
    exact (activationsOf_of_ne hrun hact hne).trans (h.fresh c hc)
  given j hj hfd := by
    have hji : j ≠ i := by
      rintro rfl
      simp [hpc] at hj
    rw [hpc, Function.update_of_ne hji] at hj
    rw [hpool] at hfd ⊢
    have hne : s.pool.served j ≠ s.pool.served i := fun heq =>
      hji (hp.pool.eq_of_served hfd hi heq)
    exact (activationsOf_of_ne hrun hact hne).trans (h.given j hj hfd)
  polling j fd' ts' p' hj := by
    rw [hpool]
    by_cases hji : j = i
    · subst hji
      rw [hpc, Function.update_self, Pc.polling.injEq] at hj
      obtain ⟨rfl, rfl, rfl⟩ := hj
      rw [inputsOf, activationsOf_self hrun hact, List.map_append]
      exact hnew
    · rw [hpc, Function.update_of_ne hji] at hj
      obtain ⟨hfd', hne'⟩ := hp.polling j fd' ts' p' hj
      have hne : s.pool.served j ≠ s.pool.served i := fun heq =>
        hji (hp.pool.eq_of_served (hfd'.symm ▸ hne') hi heq)
      rw [inputsOf, activationsOf_of_ne hrun hact hne, hheap j fd' ts' p' hji hj]
      exact h.polling j fd' ts' p' hj

/-- The coroutine is through with its session. -/
theorem leave (h : Isolated is s) (hp : s.PoolInv) (hrun : machine.run is = some s)
    (hact : s.activation input = [⟨s.pool.served i, x, evs⟩]) (hi : s.pool.fd i ≠ -1)
    (hself : Serves (s.pool.fd i) (inputsOf (s.pool.served i) is ++ [x])
      (eventsOf (s.pool.served i) is ++ evs))
    (hpool : s'.pool = (s.pool.closeFd (s.pool.fd i)).returnTask i)
    (hpc : s'.pc = Function.update s.pc i .yielded)
    (hheap : ∀ j fd' ts' p', j ≠ i → s.pc j = .polling fd' ts' p' →
      s'.manager.heap p' = s.manager.heap p') : Isolated (is ++ [input]) s' := by
  rw [hp.pool.closeReturn_eq hi] at hpool
  refine ⟨?_, ?_, ?_, ?_⟩
  · intro c fd hacc
    refine h.serves_of_act hp hrun hact hi hself c fd ?_
    rw [hpool] at hacc
    simpa using hacc
  · intro c hc
    rw [hpool] at hc
    have hne : c ≠ s.pool.served i := Nat.ne_of_gt (Nat.lt_of_lt_of_le (hp.pool.served_lt hi) hc)
    exact (activationsOf_of_ne hrun hact hne).trans (h.fresh c hc)
  · intro j hj hfd
    rw [hpool] at hfd ⊢
    have hji : j ≠ i := by
      rintro rfl
      exact hfd (Function.update_self ..)
    rw [hpc, Function.update_of_ne hji] at hj
    simp only [Function.update_of_ne hji] at hfd
    have hne : s.pool.served j ≠ s.pool.served i := fun heq =>
      hji (hp.pool.eq_of_served hfd hi heq)
    exact (activationsOf_of_ne hrun hact hne).trans (h.given j hj hfd)
  · intro j fd' ts' p' hj
    have hji : j ≠ i := by
      rintro rfl
      simp [hpc] at hj
    rw [hpc, Function.update_of_ne hji] at hj
    obtain ⟨hfd', hne'⟩ := hp.polling j fd' ts' p' hj
    have hne : s.pool.served j ≠ s.pool.served i := fun heq =>
      hji (hp.pool.eq_of_served (hfd'.symm ▸ hne') hi heq)
    rw [hpool, inputsOf, activationsOf_of_ne hrun hact hne, hheap j fd' ts' p' hji hj]
    exact h.polling j fd' ts' p' hj

/-- What a step does for the connections, also if it ends the process. -/
theorem serves_step (h : Isolated is s) (hp : s.PoolInv) (hrun : machine.run is = some s)
    (input : Input) (c : Conn) (fd : Int) (hacc : .accepted c fd ∈ s.pool.log) :
    Serves fd (inputsOf c (is ++ [input])) (eventsOf c (is ++ [input])) := by
  cases runsFor s input with
  | nobody _ hact =>
    rw [eventsOf, inputsOf, activationsOf_eq hrun hact]
    exact h.serves c fd hacc
  | begin i r x hc hpc hi hcell =>
    exact h.serves_of_act hp hrun (activation_begin hc hpc hi hcell) hi (h.serves_begin hpc hi) c fd
      hacc
  | next i r x fd' ts p conn hc hpc hheap =>
    obtain ⟨hfd', hi⟩ := hp.polling i fd' ts p hpc
    exact h.serves_of_act hp hrun (activation_next hc hpc hheap) (hfd'.symm ▸ hi)
      (h.serves_next hp hpc hheap) c fd hacc

/-- A connection that is accepted changes nothing for the others. -/
theorem accept (h : Isolated is s) (hp : s.PoolInv) (hrun : machine.run is = some s)
    {connfd : Int} (hs : s.step (.coAccept (some connfd)) = some s') :
    Isolated (is ++ [.coAccept (some connfd)]) s' := by
  simp only [step, Option.ite_none_right_eq_some] at hs
  obtain ⟨_, hs⟩ := hs
  have hact : s.activation (.coAccept (some connfd)) = [] := rfl
  cases htasks : s.pool.mTasks with
  | nil =>
    simp only [TaskPool.acceptFd_nil htasks, Option.some.injEq] at hs
    subst hs
    refine h.quiet hrun hact ?_ ?_ rfl rfl ?_ ?_
    · intro c fd hacc
      simp only [List.mem_append, List.mem_singleton, PoolEvent.accepted.injEq] at hacc
      rcases hacc with ((hacc | ⟨rfl, _⟩) | hacc) | hacc
      · exact Or.inl hacc
      · exact Or.inr (Nat.le_refl _)
      · cases hacc
      · cases hacc
    · exact Nat.le_succ _
    · exact fun i _ => Or.inl ⟨rfl, rfl⟩
    · exact fun _ _ _ _ _ => rfl
  | cons i rest =>
    simp only [TaskPool.acceptFd_cons htasks, Option.some.injEq] at hs
    subst hs
    refine h.quiet hrun hact ?_ ?_ rfl rfl ?_ ?_
    · intro c fd hacc
      simp only [List.mem_append, List.mem_singleton, PoolEvent.accepted.injEq] at hacc
      rcases hacc with (hacc | ⟨rfl, _⟩) | hacc
      · exact Or.inl hacc
      · exact Or.inr (Nat.le_refl _)
      · cases hacc
    · exact Nat.le_succ _
    · intro j _
      by_cases hji : j = i
      · subst hji
        exact Or.inr (by simp only [Function.update_self]; exact Nat.le_refl _)
      · exact Or.inl ⟨Function.update_of_ne hji .., Function.update_of_ne hji ..⟩
    · intro j fd ts p hj
      exact Function.update_of_ne (hp.ne_of_idle (htasks ▸ List.mem_cons_self) hj) ..

/-- A coroutine that runs changes nothing for the connections of the others. -/
theorem run (h : Isolated is s) (hp : s.PoolInv) (hserved : s.ServedInv)
    (hrun : machine.run is = some s) (hs : s.step (.run x) = some s') :
    Isolated (is ++ [.run x]) s' := by
  cases step_runs hs with
  | idle i r hc hpc hi hs =>
    subst hs
    exact h.quiet hrun (by simp [activation, hc, hpc, hi]) (fun _ _ h => Or.inl h)
      (Nat.le_refl _) rfl (pc_coYield hpc) (fun _ _ => Or.inl ⟨rfl, rfl⟩) fun _ _ _ _ _ => rfl
  | begin i r hc hpc hi hcell hs =>
    have hact := activation_begin hc hpc hi hcell
    have hframe : ∀ j fd ts p, j ≠ i → s.pc j = .polling fd ts p →
        (s.newSession i x).manager.heap p = s.manager.heap p := fun j fd ts p _ hj =>
      ClientManager.heap_newConnection_of_ne (hserved.ne_of_free hcell hj)
    have hself := h.serves_begin (x := x) hpc hi
    rcases runTask_begin hpc hi hcell hs with ⟨hwait, rfl⟩ | rfl
    · refine h.wait hp hrun hact hi hself rfl rfl hframe ?_
      refine ⟨x, [], _, ?_, rfl, ClientManager.heap_newConnection_self, ?_, ?_⟩
      · rw [inputsOf, h.given i hpc hi]
        rfl
      · rw [connLoop_nil]
      · rw [connLoop_nil]
        exact hwait
    · exact h.leave hp hrun hact hi hself rfl rfl hframe
  | next i r fd ts session conn hc hpc hheap hs =>
    have hact := activation_next (x := x) hc hpc hheap
    obtain ⟨rfl, hi⟩ := hp.polling i fd ts session hpc
    have hself := h.serves_next (x := x) hp hpc hheap
    have hframe : ∀ j fd' ts' p, j ≠ i → s.pc j = .polling fd' ts' p →
        (s.manager.store session
          (some (nextPart (s.pool.fd i) ts conn x).session)).heap p = s.manager.heap p := by
      intro j fd' ts' p hji hj
      refine ClientManager.heap_store_of_ne ?_
      rintro rfl
      exact hji (hserved.apart j i fd' _ ts' ts p hj hpc)
    rcases runTask_next hpc hheap hs with ⟨hwait, rfl⟩ | rfl
    · refine h.wait hp hrun hact hi hself rfl rfl hframe ?_
      obtain ⟨first, rest, conn', hinputs, rfl, hheap', rfl, hflow⟩ :=
        h.polling i _ ts session hpc
      obtain rfl := Option.some.inj (hheap.symm.trans hheap')
      refine ⟨first, rest ++ [x], _, by rw [hinputs, List.cons_append], rfl,
        ClientManager.heap_store_self, ?_, ?_⟩
      · rw [connLoop_append_singleton hflow]
      · rw [connLoop_append_singleton hflow]
        exact hwait
    · exact h.leave hp hrun hact hi hself rfl rfl hframe

/-- **Every step leaves the connections to themselves.** -/
theorem step (h : Isolated is s) (hp : s.PoolInv) (hserved : s.ServedInv)
    (hrun : machine.run is = some s) (hs : s.step input = some s') :
    Isolated (is ++ [input]) s' := by
  have hcontrol : ∀ input control, s.activation input = [] →
      s' = { s with control := control } → Isolated (is ++ [input]) s' := by
    rintro input control hact rfl
    exact h.quiet hrun hact (fun _ _ h => Or.inl h) (Nat.le_refl _) rfl rfl
      (fun _ _ => Or.inl ⟨rfl, rfl⟩) fun _ _ _ _ _ => rfl
  cases input with
  | resumeAccept =>
    simp only [Server.step, Option.ite_none_right_eq_some, Option.some.injEq] at hs
    exact hcontrol _ _ rfl hs.2.symm
  | coAccept connfd =>
    cases connfd with
    | none =>
      simp only [Server.step, Option.ite_none_right_eq_some, Option.some.injEq] at hs
      exact hcontrol _ _ rfl hs.2.symm
    | some connfd => exact h.accept hp hrun hs
  | wake i =>
    simp only [Server.step, Option.ite_none_right_eq_some, Option.some.injEq] at hs
    exact hcontrol _ _ rfl hs.2.symm
  | run x => exact h.run hp hserved hrun hs

theorem of_run (h : machine.run is = some s) : Isolated is s :=
  Machine.invariant (P := Isolated) init
    (fun _ _ _ _ hrun hinv hs =>
      hinv.step (PoolInv.run hrun) (ServedInv.run hrun) hrun hs) h

end Isolated

/-! ### Whole runs -/

/-- What happened to the descriptors stays in the log. -/
theorem Acts.mem_log {s s' : Server} {left : Bool} (ha : Acts s left s') {e : PoolEvent}
    (he : e ∈ s.pool.log) : e ∈ s'.pool.log := by
  have hclose : ∀ (fd : Int) (i : TaskId), e ∈ ((s.pool.closeFd fd).returnTask i).log := by
    intro fd i
    unfold TaskPool.closeFd TaskPool.returnTask
    split <;> simp [TaskPool.record, he]
  cases ha with
  | refuse connfd hopen hnone =>
    rw [TaskPool.acceptFd_nil hnone]
    simp [he]
  | give connfd i rest hpos hopen htask =>
    rw [TaskPool.acceptFd_cons htask]
    simp [he]
  | beginLeave i r input hpc hfd hcell => exact hclose _ i
  | leave i r fd ts session conn input hpc hheap => exact hclose fd i
  | pass control => exact he
  | idle i r hpc => exact he
  | begin i r input hpc hfd hcell hwait => exact he
  | again i r fd ts session conn input hpc hheap hread hwait => exact he

section runs

variable {is : List Input} {s : Server} {c : Conn} {fd : Int}

/-- A prefix of a run that is extended by one step. -/
theorem acceptedIn_append_singleton {input : Input} (h : AcceptedIn (is ++ [input]) c fd) :
    AcceptedIn is c fd ∨
      ∃ s', machine.run (is ++ [input]) = some s' ∧ .accepted c fd ∈ s'.pool.log := by
  obtain ⟨before, s, hpre, hrun, hacc⟩ := h
  rcases List.prefix_concat_iff.mp hpre with rfl | hpre
  · exact Or.inr ⟨s, hrun, hacc⟩
  · exact Or.inl ⟨before, s, hpre, hrun, hacc⟩

theorem AcceptedIn.mem_log (h : AcceptedIn is c fd) (hrun : machine.run is = some s) :
    .accepted c fd ∈ s.pool.log := by
  induction is using List.reverseRecOn generalizing s with
  | nil =>
    obtain ⟨before, s₀, hpre, hrun₀, hacc⟩ := h
    obtain rfl := List.prefix_nil.mp hpre
    obtain rfl := Option.some.inj (hrun.symm.trans hrun₀)
    exact hacc
  | append_singleton is input ih =>
    rcases acceptedIn_append_singleton h with h | ⟨s', hrun', hacc⟩
    · obtain ⟨s₀, hrun₀, hs⟩ := Machine.run_append_singleton_eq_some.mp hrun
      exact (step_acts hs).mem_log (ih h hrun₀)
    · obtain rfl := Option.some.inj (hrun.symm.trans hrun')
      exact hacc

/-- What was done for a connection is what the session loop does by itself. -/
theorem serves_of_acceptedIn (h : AcceptedIn is c fd) :
    Serves fd (inputsOf c is) (eventsOf c is) := by
  induction is using List.reverseRecOn with
  | nil => exact Serves.nil
  | append_singleton is input ih =>
    cases hrun : machine.run is with
    | none =>
      -- the process has ended before
      have hbefore : AcceptedIn is c fd := by
        rcases acceptedIn_append_singleton h with h | ⟨s', hrun', _⟩
        · exact h
        · simp [Machine.run_append_of_eq_none hrun] at hrun'
      rw [eventsOf, inputsOf, activationsOf_of_none hrun]
      exact ih hbefore
    | some s =>
      rcases acceptedIn_append_singleton h with h | ⟨s', hrun', hacc⟩
      · exact (Isolated.of_run hrun).serves_step (PoolInv.run hrun) hrun input c fd
          (h.mem_log hrun)
      · exact (Isolated.of_run hrun').serves c fd hacc

end runs

/-- A coroutine that runs in the given second and reads. -/
def inputIn (second : Nat) (cell : Ptr) (read : ReadResult) : TaskInput where
  acceptTime := second
  tv := ⟨second, 0⟩
  cell := cell
  now := second
  stale := zeroStale
  read := read

/-- Two clients. The first authenticates, both send a report, and the first hangs up. -/
def twoClients : List Input :=
  [.resumeAccept, .coAccept (some 5), .run (inputIn 1600000000 1 (.error eagain)),
    .coAccept (some 6), .run (inputIn 1600000001 2 (.error eagain)), .coAccept none,
    .wake (9 : Fin 10),
    .run (inputIn 1600000002 0 (.ok ⟨encode ⟨typeInit, 1, []⟩, by decide +kernel⟩)),
    .wake (8 : Fin 10),
    .run (inputIn 1600000003 0 (.ok ⟨encode ⟨typeReport, 1, [0x07]⟩, by decide +kernel⟩)),
    .wake (9 : Fin 10),
    .run (inputIn 1600000004 0 (.ok ⟨encode ⟨typeReport, 2, [0x08]⟩, by decide +kernel⟩)),
    .wake (9 : Fin 10), .run (inputIn 1600000005 0 (.ok ⟨[], Nat.zero_le _⟩))]

theorem twoClients_isSome : (machine.run twoClients).isSome = true := by decide +kernel

theorem acceptedIn_twoClients : AcceptedIn twoClients 0 5 :=
  ⟨twoClients, _, List.prefix_refl _, (Option.some_get twoClients_isSome).symm, by decide +kernel⟩

/--
**The connections of the server do not disturb each other.**

What was done for a connection in a run, up to a fault that ends the process, is what the session
loop does when it alone is given the inputs of this connection. So it is the same in every run that
gives a connection these inputs, whatever the other connections send and whenever they are served.
The inputs are what the coroutine finds each time it runs: the clock, the result of `read`, and also
what its stack held, which earlier calls of any coroutine may have left there.
-/
theorem isolation (is : List Input) (c : Conn) (fd : Int) (h : AcceptedIn is c fd) :
    eventsOf c is = connEvents fd (inputsOf c is) ∧
      ∀ is' c', AcceptedIn is' c' fd → inputsOf c' is' = inputsOf c is →
        eventsOf c' is' = eventsOf c is := by
  have heq := (serves_of_acceptedIn h).events_eq
  refine ⟨heq, fun is' c' h' hinputs => ?_⟩
  rw [heq, (serves_of_acceptedIn h').events_eq, hinputs]

/-- The first client, between whose inputs the second one is served. -/
theorem isolation_twoClients : eventsOf 0 twoClients = connEvents 5 (inputsOf 0 twoClients) ∧
    ∀ is' c', AcceptedIn is' c' 5 → inputsOf c' is' = inputsOf 0 twoClients →
      eventsOf c' is' = eventsOf 0 twoClients :=
  isolation twoClients 0 5 acceptedIn_twoClients

end Server

end Easn
