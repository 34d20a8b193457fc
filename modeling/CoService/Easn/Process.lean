import CoService.Easn.DispatchQueue
import CoService.Easn.KafkaDispatcher
import CoService.Easn.Server
import CoService.Infra.Component

/-!
# The process

`main` creates servers and calls `wf_co_event_loop`. Each server has two channels: a `dispatch_channel`
for what comes from Kafka, and a `server_channel` for its clients. The loop starts all channels, and
then their coroutines share one thread. librdkafka has threads of its own.

What the channels do is in `DispatchQueue` and `Server`, and librdkafka is a parameter as there. There
is only one `Server`, because `m_tasks` is static: each `server_channel::init` puts a new stack with
ten new tasks there. Nothing leads to the tasks that were there before, and their coroutines stay in
`co_yield_ct`. The accepting coroutines of several servers differ in their descriptor only, so that a
step of `Server` does not say which of them is meant.

A constructor that fails ends the process. The coroutine `test` and `SIGINT` are left out.
-/

namespace Easn

open Infra

/-- What `customer_chennel_list` holds: the queue of a `dispatch_channel`, or the port of a
`server_channel`. -/
inductive Channel
  | dispatch (queue : Nat)
  | server (port : Int)
deriving DecidableEq

/-- Where `main` stands. -/
inductive Phase
  /-- Between two calls. -/
  | main
  /-- In `create_server`: the new `dispatch_channel` has subscribed to its topic. -/
  | creating (port : Int)
  /-- In `wf_co_event_loop`, with the channels that are not started yet. Behind them, it is in
  `co_eventloop`, which does not come back. -/
  | looping (rest : List Channel)
  /-- `wf_co_event_loop` has returned. -/
  | returned (code : Int)
deriving DecidableEq

/-- `wf_co_event`, `dispatcher_manager` and what the channels hold. -/
structure Process (Q : Type*) where
  phase : Phase
  manager : DispatcherManager
  customerChennelList : List Channel
  queues : List (DispatchQueue Q)
  server : Server

/-- What happens. `created` is the rest of `create_server`, from `rd_kafka_queue_io_event_enable` on,
and `start` the start of the next channel. -/
inductive ProcessInput
  | createServer (port : Int) (pid : String)
  | created
  | eventLoop
  | start
  | server (input : Input)
  | queue (k : Nat) (input : WakeupInput RdKafkaMessage)

namespace Process

section

variable {H Q : Type*} (lib : RdKafkaLib H) (queue : RdKafkaQueue Q)

def init : Process Q where
  phase := .main
  manager := .init
  customerChennelList := []
  queues := []
  server := { Server.init with pool := .empty }

/-- `channel->init()`. That of a `dispatch_channel` only writes to the log. -/
def initChannel (p : Process Q) : Channel → Process Q
  | .dispatch _ => p
  | .server _ => { p with server := { p.server with pool := .init } }

/-- `add_server_channel`. -/
def addServerChannel (p : Process Q) (c : Channel) : Process Q :=
  { p.initChannel c with customerChennelList := p.customerChennelList ++ [c] }

/-- A step of the coroutines that belong to the clients. -/
def stepServer (p : Process Q) (input : Input) : Option (Process Q) :=
  (p.server.step input).map fun s => { p with server := s }

/-- A step at the queue of a `dispatch_channel`. -/
def stepQueue (p : Process Q) (k : Nat) (input : WakeupInput RdKafkaMessage) :
    Option (Process Q) :=
  match p.queues[k]? with
  | some q => (q.step lib queue input).map fun q => { p with queues := p.queues.set k q }
  | none => none

/-- The coroutine of a `dispatch_channel` has control. -/
def draining (p : Process Q) : Bool := p.queues.any fun q => q.pc = .draining

/-- It is the event loop that resumes a coroutine. -/
def resumes : Input → Bool
  | .resumeAccept => true
  | .coAccept _ => false
  | .wake _ => true
  | .run _ => false

def step (p : Process Q) : ProcessInput → Option (Process Q)
  | .createServer port pid =>
    if p.phase = .main then
      some { p with
        phase := .creating port
        manager := createDispatcher p.manager pid
        queues := p.queues ++ [.init queue] }
    else none
  | .created =>
    match p.phase with
    | .creating port => do
      let k := p.queues.length - 1
      let p ← p.stepQueue lib queue k .enable
      let p := { p with phase := .main }.addServerChannel (.dispatch k)
      some (p.addServerChannel (.server port))
    | _ => none
  | .eventLoop =>
    if p.phase = .main then
      if p.customerChennelList = [] then some { p with phase := .returned (-1) }
      else some { p with phase := .looping p.customerChennelList }
    else none
  | .start =>
    match p.phase with
    -- `kafka_routine` polls at once
    | .looping (.dispatch _ :: rest) =>
      if p.server.control = .caller .eventLoop then some { p with phase := .looping rest } else none
    | .looping (.server _ :: rest) =>
      ({ p with phase := .looping rest }).stepServer .resumeAccept
    | _ => none
  | .server input =>
    match p.phase with
    | .looping rest =>
      if p.draining = false ∧ (resumes input = true → rest = []) then p.stepServer input else none
    | _ => none
  -- librdkafka may put a message into a queue at any time
  | .queue k (.enqueue msg) => p.stepQueue lib queue k (.enqueue msg)
  | .queue _ .enable => none
  | .queue k .wake =>
    if p.phase = .looping [] ∧ p.server.control = .caller .eventLoop ∧ p.draining = false then
      p.stepQueue lib queue k .wake
    else none
  | .queue k .take => p.stepQueue lib queue k .take

/-- Any interleaving of the coroutines and librdkafka. -/
def machine : Machine (Process Q) ProcessInput := ⟨init, step lib queue⟩

end

variable {H Q : Type*} {lib : RdKafkaLib H} {queue : RdKafkaQueue Q} {p p' : Process Q}
  {i : ProcessInput}

/-! ## What a step can do -/

/-- **The steps.** -/
inductive Acts (lib : RdKafkaLib H) (queue : RdKafkaQueue Q) (p : Process Q) :
    ProcessInput → Process Q → Prop
  | createServer (port : Int) (pid : String) (hphase : p.phase = .main) :
    Acts lib queue p (.createServer port pid) { p with
      phase := .creating port
      manager := createDispatcher p.manager pid
      queues := p.queues ++ [.init queue] }
  | created (port : Int) (q q' : DispatchQueue Q) (hphase : p.phase = .creating port)
    (hq : p.queues[p.queues.length - 1]? = some q) (hs : q.step lib queue .enable = some q') :
    Acts lib queue p .created { p with
      phase := .main
      customerChennelList :=
        p.customerChennelList ++ [.dispatch (p.queues.length - 1)] ++ [.server port]
      queues := p.queues.set (p.queues.length - 1) q'
      server := { p.server with pool := .init } }
  /-- There is no channel. -/
  | returned (hphase : p.phase = .main) (hnil : p.customerChennelList = []) :
    Acts lib queue p .eventLoop { p with phase := .returned (-1) }
  | looping (hphase : p.phase = .main) (hne : p.customerChennelList ≠ []) :
    Acts lib queue p .eventLoop { p with phase := .looping p.customerChennelList }
  | startDispatch (k : Nat) (rest : List Channel) (hphase : p.phase = .looping (.dispatch k :: rest))
    (hc : p.server.control = .caller .eventLoop) :
    Acts lib queue p .start { p with phase := .looping rest }
  | startServer (port : Int) (rest : List Channel) (s : Server)
    (hphase : p.phase = .looping (.server port :: rest))
    (hs : p.server.step .resumeAccept = some s) :
    Acts lib queue p .start { p with phase := .looping rest, server := s }
  | server (input : Input) (rest : List Channel) (s : Server) (hphase : p.phase = .looping rest)
    (hquiet : p.draining = false) (hrest : resumes input = true → rest = [])
    (hs : p.server.step input = some s) : Acts lib queue p (.server input) { p with server := s }
  | queue (k : Nat) (input : WakeupInput RdKafkaMessage) (q q' : DispatchQueue Q)
    (hq : p.queues[k]? = some q) (hs : q.step lib queue input = some q') (hinput : input ≠ .enable)
    (hwake : input = .wake →
      p.phase = .looping [] ∧ p.server.control = .caller .eventLoop ∧ p.draining = false) :
    Acts lib queue p (.queue k input) { p with queues := p.queues.set k q' }

theorem stepQueue_eq_some {k : Nat} {input : WakeupInput RdKafkaMessage} :
    p.stepQueue lib queue k input = some p' ↔ ∃ q q', p.queues[k]? = some q ∧
      q.step lib queue input = some q' ∧ p' = { p with queues := p.queues.set k q' } := by
  unfold stepQueue
  cases hq : p.queues[k]? with
  | none => simp
  | some q =>
    rw [Option.map_eq_some_iff]
    constructor
    · rintro ⟨q', hs, rfl⟩
      exact ⟨q, q', rfl, hs, rfl⟩
    · rintro ⟨_, q', hq', hs, rfl⟩
      obtain rfl := Option.some.inj hq'
      exact ⟨q', hs, rfl⟩

theorem stepServer_eq_some {input : Input} : p.stepServer input = some p' ↔
    ∃ s, p.server.step input = some s ∧ p' = { p with server := s } := by
  rw [stepServer, Option.map_eq_some_iff]
  exact exists_congr fun s => and_congr_right fun _ => eq_comm

theorem acts_queue {k : Nat} {input : WakeupInput RdKafkaMessage}
    (h : p.stepQueue lib queue k input = some p') (hinput : input ≠ .enable) (hwake : input = .wake →
      p.phase = .looping [] ∧ p.server.control = .caller .eventLoop ∧ p.draining = false) :
    Acts lib queue p (.queue k input) p' := by
  obtain ⟨q, q', hq, hs, rfl⟩ := stepQueue_eq_some.mp h
  exact Acts.queue k input q q' hq hs hinput hwake

/-- **What a step does is one of the actions.** -/
theorem step_acts (h : p.step lib queue i = some p') : Acts lib queue p i p' := by
  cases i with
  | createServer port pid =>
    simp only [step, Option.ite_none_right_eq_some, Option.some.injEq] at h
    obtain ⟨hphase, rfl⟩ := h
    exact Acts.createServer port pid hphase
  | created =>
    simp only [step] at h
    split at h
    · next port hphase =>
      obtain ⟨p₁, hp₁, h⟩ := Option.bind_eq_some_iff.mp h
      obtain ⟨q, q', hq, hs, rfl⟩ := stepQueue_eq_some.mp hp₁
      obtain rfl := Option.some.inj h
      exact Acts.created port q q' hphase hq hs
    · simp at h
  | eventLoop =>
    simp only [step, Option.ite_none_right_eq_some] at h
    obtain ⟨hphase, h⟩ := h
    split at h
    · next hnil =>
      obtain rfl := Option.some.inj h
      exact Acts.returned hphase hnil
    · next hne =>
      obtain rfl := Option.some.inj h
      exact Acts.looping hphase hne
  | start =>
    simp only [step] at h
    split at h
    · next k rest hphase =>
      simp only [Option.ite_none_right_eq_some, Option.some.injEq] at h
      obtain ⟨hc, rfl⟩ := h
      exact Acts.startDispatch k rest hphase hc
    · next port rest hphase =>
      obtain ⟨s, hs, rfl⟩ := stepServer_eq_some.mp h
      exact Acts.startServer port rest s hphase hs
    · simp at h
  | server input =>
    simp only [step] at h
    split at h
    · next rest hphase =>
      rw [Option.ite_none_right_eq_some] at h
      obtain ⟨⟨hquiet, hrest⟩, h⟩ := h
      obtain ⟨s, hs, rfl⟩ := stepServer_eq_some.mp h
      exact Acts.server input rest s hphase hquiet hrest hs
    · simp at h
  | queue k input =>
    cases input with
    | enqueue msg => exact acts_queue h (by simp) (by simp)
    | enable => simp [step] at h
    | wake =>
      simp only [step, Option.ite_none_right_eq_some] at h
      exact acts_queue h.2 (by simp) fun _ => h.1
    | take => exact acts_queue h (by simp) (by simp)

end Process

end Easn
