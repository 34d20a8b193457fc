import CoService.Easn.DispatchChannel
import CoService.Infra.Component
import CoService.Infra.WakeupQueue

/-!
# The queue of `dispatch_channel`

librdkafka puts messages into its queue in a thread of its own, and writes to a pipe what
`rd_kafka_queue_io_event_enable` was given. The queue and its functions are a parameter
(`RdKafkaQueue`), and `Documented` is what librdkafka says about them. With that the channel is a
`WakeupQueue` (`component_view`): the bytes in the pipe are its signals.

`consume` has two kinds of steps, and messages may come before each of them:

* `wake` — `co_poll` returns because there is a byte in the pipe, and `read` takes the byte
* `take` — one call of `rd_kafka_consume_queue`, with what is done with the message

The constructor subscribes to the topic before it enables the event. `kafka_routine` polls as soon as
it is started. A message that `handle_message` does not survive ends the process. The pipe is taken to
be large enough for what librdkafka writes.
-/

namespace Easn

open Infra

/-- librdkafka's queue. `Q` is everything that its behaviour depends on. -/
structure RdKafkaQueue (Q : Type*) where
  /-- What `rd_kafka_queue_get_consumer` returns behind `rd_kafka_subscribe`. -/
  subscribed : Q
  /-- `rd_kafka_queue_io_event_enable(queue, fd, payload, size)`. Returns what is written to `fd`,
  too. -/
  ioEventEnable : Q → List UInt8 → Q × List UInt8
  /-- A thread of librdkafka puts a message into the queue. Returns what it writes to `fd`, too. -/
  enqueue : Q → RdKafkaMessage → Q × List UInt8
  /-- `rd_kafka_consume_queue(queue, 0)`. -/
  consumeQueue : Q → Option RdKafkaMessage × Q

/-- What librdkafka documents: `contents` are the messages in the queue, which are returned in order,
and `payload` is written whenever a message comes into the empty queue, and not before. -/
structure RdKafkaQueue.Documented {Q : Type*} (lib : RdKafkaQueue Q)
    (contents : Q → List RdKafkaMessage) (payload : Q → List UInt8) : Prop where
  contents_subscribed : contents lib.subscribed = []
  payload_subscribed : payload lib.subscribed = []
  contents_enable : ∀ q bytes, contents (lib.ioEventEnable q bytes).1 = contents q
  payload_enable : ∀ q bytes, payload (lib.ioEventEnable q bytes).1 = bytes
  written_enable : ∀ q bytes, (lib.ioEventEnable q bytes).2 = []
  contents_enqueue : ∀ q msg, contents (lib.enqueue q msg).1 = contents q ++ [msg]
  payload_enqueue : ∀ q msg, payload (lib.enqueue q msg).1 = payload q
  written : ∀ q msg, (lib.enqueue q msg).2 = if contents q = [] then payload q else []
  consumed : ∀ q, (lib.consumeQueue q).1 = (contents q).head?
  contents_consume : ∀ q, contents (lib.consumeQueue q).2 = (contents q).tail
  payload_consume : ∀ q, payload (lib.consumeQueue q).2 = payload q

/-- `dispatch_channel`, with the bytes that were written to `fds[1]` and not yet read. -/
structure DispatchQueue (Q : Type*) where
  pc : WakeupPc
  queueT : Q
  pipe : List UInt8

namespace DispatchQueue

/-- The payload of the event: `"."`. -/
def dot : List UInt8 := [0x2e]

section

variable {H Q : Type*} (lib : RdKafkaLib H) (queue : RdKafkaQueue Q)

/-- Behind `rd_kafka_subscribe`. -/
def init : DispatchQueue Q := ⟨.setup, queue.subscribed, []⟩

def step (s : DispatchQueue Q) : WakeupInput RdKafkaMessage → Option (DispatchQueue Q)
  | .enqueue msg =>
    let (q, written) := queue.enqueue s.queueT msg
    some { s with queueT := q, pipe := s.pipe ++ written }
  | .enable =>
    if s.pc = .setup then
      let (q, written) := queue.ioEventEnable s.queueT dot
      some { s with pc := .waiting, queueT := q, pipe := s.pipe ++ written }
    else none
  | .wake =>
    match s.pipe with
    | _ :: pipe => if s.pc = .waiting then some { s with pc := .draining, pipe := pipe } else none
    | [] => none
  | .take =>
    if s.pc = .draining then
      match queue.consumeQueue s.queueT with
      | (some msg, q) =>
        if (handleAndDestroy lib msg).returned then some { s with queueT := q } else none
      | (none, q) => some { s with pc := .waiting, queueT := q }
    else none

/-- The channel from `rd_kafka_subscribe` on, with any interleaving of librdkafka and the
coroutine. -/
def machine : Machine (DispatchQueue Q) (WakeupInput RdKafkaMessage) :=
  ⟨init queue, step lib queue⟩

/-- What the coroutine does in a step. `fd` is the reading end of the pipe. -/
def activity (fd : Int) (s : DispatchQueue Q) : WakeupInput RdKafkaMessage → List KafkaEvent
  | .enqueue _ => []
  | .enable => []
  | .wake => if s.pc = .waiting ∧ s.pipe ≠ [] then [.poll fd (-1), .read fd 1] else []
  | .take =>
    if s.pc = .draining then
      match (queue.consumeQueue s.queueT).1 with
      | some msg => (handleAndDestroy lib msg).events
      | none => []
    else []

/-- What the coroutine does in a run, up to what the process does not survive. -/
def eventsIn (fd : Int) (is : List (WakeupInput RdKafkaMessage)) : List KafkaEvent :=
  (machine lib queue).trace (activity lib queue fd) is

/-- The coroutine cannot go on: it waits, and the pipe is empty. -/
def Idle (s : DispatchQueue Q) : Prop := s.pc ≠ .draining ∧ (s.pc = .waiting → s.pipe = [])

end

/-- The messages that librdkafka put into the queue. -/
abbrev received (is : List (WakeupInput RdKafkaMessage)) : List RdKafkaMessage :=
  WakeupQueue.enqueued is

/-- Those that it put there before `rd_kafka_queue_io_event_enable`. -/
abbrev receivedEarly (is : List (WakeupInput RdKafkaMessage)) : List RdKafkaMessage :=
  WakeupQueue.early is

variable {H Q : Type*} {lib : RdKafkaLib H} {queue : RdKafkaQueue Q}
  {contents : Q → List RdKafkaMessage} {payload : Q → List UInt8} {fd : Int}
  {is : List (WakeupInput RdKafkaMessage)} {i : WakeupInput RdKafkaMessage}
  {s s' : DispatchQueue Q}

/-! ## What a step can do -/

/-- **The steps.** -/
inductive Acts (lib : RdKafkaLib H) (queue : RdKafkaQueue Q) (s : DispatchQueue Q) :
    WakeupInput RdKafkaMessage → DispatchQueue Q → Prop
  | enqueue (msg : RdKafkaMessage) : Acts lib queue s (.enqueue msg)
    { s with
      queueT := (queue.enqueue s.queueT msg).1
      pipe := s.pipe ++ (queue.enqueue s.queueT msg).2 }
  | enable (hpc : s.pc = .setup) : Acts lib queue s .enable
    { s with
      pc := .waiting
      queueT := (queue.ioEventEnable s.queueT dot).1
      pipe := s.pipe ++ (queue.ioEventEnable s.queueT dot).2 }
  | wake (hpc : s.pc = .waiting) (byte : UInt8) (pipe : List UInt8) (hpipe : s.pipe = byte :: pipe) :
    Acts lib queue s .wake { s with pc := .draining, pipe := pipe }
  | take (hpc : s.pc = .draining) (msg : RdKafkaMessage)
    (hconsume : (queue.consumeQueue s.queueT).1 = some msg)
    (hmsg : (handleMessage lib msg).returned = true) :
    Acts lib queue s .take { s with queueT := (queue.consumeQueue s.queueT).2 }
  | stop (hpc : s.pc = .draining) (hconsume : (queue.consumeQueue s.queueT).1 = none) :
    Acts lib queue s .take { s with pc := .waiting, queueT := (queue.consumeQueue s.queueT).2 }

theorem step_acts (h : s.step lib queue i = some s') : Acts lib queue s i s' := by
  cases i with
  | enqueue msg =>
    obtain rfl := Option.some.inj h
    exact Acts.enqueue msg
  | enable =>
    simp only [step, Option.ite_none_right_eq_some, Option.some.injEq] at h
    obtain ⟨hpc, rfl⟩ := h
    exact Acts.enable hpc
  | wake =>
    simp only [step] at h
    split at h
    · next byte pipe hpipe =>
      simp only [Option.ite_none_right_eq_some, Option.some.injEq] at h
      obtain ⟨hpc, rfl⟩ := h
      exact Acts.wake hpc byte pipe hpipe
    · simp at h
  | take =>
    simp only [step, Option.ite_none_right_eq_some] at h
    obtain ⟨hpc, h⟩ := h
    have hpair : queue.consumeQueue s.queueT
        = ((queue.consumeQueue s.queueT).1, (queue.consumeQueue s.queueT).2) := rfl
    split at h
    · next msg q hconsume =>
      simp only [Option.ite_none_right_eq_some, Option.some.injEq] at h
      obtain ⟨hmsg, rfl⟩ := h
      have hact : Acts lib queue s .take _ := Acts.take hpc msg (by rw [hconsume])
        (returned_handleAndDestroy.symm.trans hmsg)
      rwa [hconsume] at hact
    · next q hconsume =>
      obtain rfl := Option.some.inj h
      have hact : Acts lib queue s .take _ := Acts.stop hpc (by rw [hconsume])
      rwa [hconsume] at hact

/-! ## The abstraction -/

/-- The queue with the number of bytes in the pipe. -/
def view (contents : Q → List RdKafkaMessage) (s : DispatchQueue Q) : WakeupQueue RdKafkaMessage :=
  ⟨s.pc, contents s.queueT, s.pipe.length⟩

/-- From the constructor's end on the event is enabled. -/
def Enabled (payload : Q → List UInt8) (s : DispatchQueue Q) : Prop :=
  payload s.queueT = if s.pc = .setup then [] else dot

theorem Enabled.acts (h : s.Enabled payload) (hdoc : queue.Documented contents payload)
    (ha : Acts lib queue s i s') : s'.Enabled payload := by
  cases ha with
  | enqueue msg => exact (hdoc.payload_enqueue s.queueT msg).trans h
  | enable hpc => exact hdoc.payload_enable s.queueT dot
  | wake hpc byte pipe hpipe =>
    rw [Enabled, hpc] at h
    exact h
  | take hpc msg hconsume hmsg => exact (hdoc.payload_consume s.queueT).trans h
  | stop hpc hconsume =>
    rw [Enabled, hpc] at h
    exact (hdoc.payload_consume s.queueT).trans h

theorem Enabled.of_run (hdoc : queue.Documented contents payload)
    (h : (machine lib queue).run is = some s) : s.Enabled payload :=
  Machine.invariant (P := fun _ s => s.Enabled payload) hdoc.payload_subscribed
    (fun _ _ _ _ _ hen hs => hen.acts hdoc (step_acts hs)) h

/-- **A step of the channel is one of the abstract queue.** -/
theorem Acts.step_view (ha : Acts lib queue s i s') (hdoc : queue.Documented contents payload)
    (hen : s.Enabled payload) : (s.view contents).step i = some (s'.view contents) := by
  cases ha with
  | enqueue msg =>
    have hwritten := hdoc.written s.queueT msg
    rw [hen] at hwritten
    have hsignals : (s.pipe ++ (queue.enqueue s.queueT msg).2).length
        = if s.pc ≠ .setup ∧ (contents s.queueT).isEmpty then s.pipe.length + 1
          else s.pipe.length := by
      rw [List.length_append, hwritten]
      by_cases hpc : s.pc = .setup <;> by_cases hnil : contents s.queueT = [] <;>
        simp [hpc, hnil, dot]
    simp [WakeupQueue.step, WakeupQueue.enqueue, view, hdoc.contents_enqueue, hsignals]
  | enable hpc =>
    simp [WakeupQueue.step, view, hpc, hdoc.contents_enable, hdoc.written_enable]
  | wake hpc byte pipe hpipe => simp [WakeupQueue.step, view, hpc, hpipe]
  | take hpc msg hconsume hmsg =>
    have hcons := hdoc.consumed s.queueT
    rw [hconsume] at hcons
    cases hq : contents s.queueT with
    | nil => simp [hq] at hcons
    | cons msg' rest =>
      simp [WakeupQueue.step, WakeupQueue.take, view, hpc, hq, hdoc.contents_consume]
  | stop hpc hconsume =>
    have hcons := hdoc.consumed s.queueT
    rw [hconsume] at hcons
    have hq : contents s.queueT = [] := List.head?_eq_none_iff.mp hcons.symm
    simp [WakeupQueue.step, WakeupQueue.take, view, hpc, hq, hdoc.contents_consume]

/-- **The channel is a `WakeupQueue`.** -/
theorem component_view (lib : RdKafkaLib H) (hdoc : queue.Documented contents payload) :
    (machine lib queue).Component (WakeupQueue.machine RdKafkaMessage) (view contents)
      fun _ i => [i] where
  init := by
    show (⟨.setup, contents queue.subscribed, 0⟩ : WakeupQueue RdKafkaMessage) = WakeupQueue.init
    rw [hdoc.contents_subscribed]
    rfl
  step is s i s' hrun hs := by
    have hstep := (step_acts hs).step_view hdoc (Enabled.of_run hdoc hrun)
    rw [List.foldlM_cons]
    show (WakeupQueue.step (s.view contents) i).bind _ = _
    rw [hstep]
    rfl

/-- The abstract queue is in the same run. -/
theorem run_view (hdoc : queue.Documented contents payload)
    (h : (machine lib queue).run is = some s) :
    (WakeupQueue.machine RdKafkaMessage).run is = some (s.view contents) :=
  (component_view lib hdoc).run_view h

theorem idle_view : (s.view contents).Idle ↔ s.Idle := by
  rw [WakeupQueue.idle_iff, Idle]
  exact and_congr_right fun _ => imp_congr_right fun _ => List.length_eq_zero_iff

/-! ## Passes -/

/-- A pass that has begun. -/
theorem kafkaRoutine_append_singleton (lib : RdKafkaLib H) (fd : Int)
    (passes : List (List RdKafkaMessage)) (last : List RdKafkaMessage) :
    kafkaRoutine lib fd (passes ++ [last])
      = (kafkaRoutine lib fd passes).andThen (consume lib fd last).1 := by
  induction passes with
  | nil => simp [kafkaRoutine]
  | cons queue passes ih => rw [List.cons_append, kafkaRoutine, ih, kafkaRoutine, Run.andThen_assoc]

/-- One more message in a pass. -/
theorem consume_append_singleton (lib : RdKafkaLib H) (fd : Int) (msgs : List RdKafkaMessage)
    (msg : RdKafkaMessage) : (consume lib fd (msgs ++ [msg])).1
      = (consume lib fd msgs).1.andThen (handleAndDestroy lib msg) := by
  have hdrain : (drain lib (msgs ++ [msg])).1
      = (drain lib msgs).1.andThen (handleAndDestroy lib msg) := by
    induction msgs with
    | nil =>
      cases hmsg : (handleAndDestroy lib msg).returned <;>
        simp [drain, hmsg]
    | cons msg' msgs ih =>
      cases hmsg' : (handleAndDestroy lib msg').returned with
      | true => simp [drain, hmsg', ih, Run.andThen_assoc]
      | false => simp [drain, hmsg', Run.andThen]
  rw [consume, consume, hdrain, Run.andThen_assoc]

/-- The coroutine has done some passes, and is in the last one if it is draining. -/
structure Passes (lib : RdKafkaLib H) (queue : RdKafkaQueue Q) (fd : Int)
    (is : List (WakeupInput RdKafkaMessage)) (s : DispatchQueue Q)
    (passes : List (List RdKafkaMessage)) : Prop where
  run_eq : kafkaRoutine lib fd passes = .emit (eventsIn lib queue fd is)
  taken_eq : passes.flatten = WakeupQueue.taken is
  ne_nil : s.pc = .draining → passes ≠ []

section passes

variable {passes : List (List RdKafkaMessage)}

/-- A step that does nothing that is seen. -/
theorem Passes.quiet (h : Passes lib queue fd is s passes)
    (hrun : (machine lib queue).run is = some s) (hact : s.activity lib queue fd i = [])
    (htaken : WakeupQueue.taken (is ++ [i]) = WakeupQueue.taken is)
    (hpc : s'.pc = .draining → s.pc = .draining) : Passes lib queue fd (is ++ [i]) s' passes where
  run_eq := by
    rw [eventsIn, Machine.trace_append_singleton hrun, hact, List.append_nil]
    exact h.run_eq
  taken_eq := h.taken_eq.trans htaken.symm
  ne_nil hd := h.ne_nil (hpc hd)

/-- The last pass goes on with a message, whether it is survived or not. -/
theorem Passes.take (h : Passes lib queue fd is s passes) (hpc : s.pc = .draining)
    (msg : RdKafkaMessage) : ∃ before last, passes = before ++ [last] ∧
      kafkaRoutine lib fd (before ++ [last ++ [msg]])
        = (Run.emit (eventsIn lib queue fd is)).andThen (handleAndDestroy lib msg) := by
  obtain ⟨before, last, rfl⟩ : ∃ before last, passes = before ++ [last] :=
    ⟨_, _, (List.dropLast_append_getLast (h.ne_nil hpc)).symm⟩
  refine ⟨before, last, rfl, ?_⟩
  rw [← h.run_eq, kafkaRoutine_append_singleton, kafkaRoutine_append_singleton,
    consume_append_singleton, Run.andThen_assoc]

/-- **One step stays within the passes.** -/
theorem Passes.step (h : Passes lib queue fd is s passes)
    (hdoc : queue.Documented contents payload) (hrun : (machine lib queue).run is = some s)
    (ha : Acts lib queue s i s') : ∃ passes', Passes lib queue fd (is ++ [i]) s' passes' := by
  have htaken := fun i => WakeupQueue.taken_append_singleton (run_view hdoc hrun) i
  have hquiet : ∀ {i}, (s.view contents).takes i = [] →
      WakeupQueue.taken (is ++ [i]) = WakeupQueue.taken is := fun hnone => by
    rw [htaken, hnone, List.append_nil]
  cases ha with
  | enqueue msg => exact ⟨passes, h.quiet hrun rfl (hquiet rfl) id⟩
  | enable hpc => exact ⟨passes, h.quiet hrun rfl (hquiet rfl) fun hd => by simp at hd⟩
  | wake hpc byte pipe hpipe =>
    refine ⟨passes ++ [[]], ?_, ?_, by simp⟩
    · have hact : s.activity lib queue fd .wake = [.poll fd (-1), .read fd 1] :=
        if_pos ⟨hpc, by simp [hpipe]⟩
      rw [kafkaRoutine_append_singleton, h.run_eq, eventsIn, eventsIn,
        Machine.trace_append_singleton hrun, hact]
      simp [consume, drain, Run.emit, Run.andThen]
    · rw [hquiet rfl, ← h.taken_eq, List.flatten_append]
      exact List.append_nil _
  | take hpc msg hconsume hmsg =>
    obtain ⟨before, last, rfl, hlast⟩ := h.take hpc msg
    have hact : s.activity lib queue fd .take = (handleAndDestroy lib msg).events := by
      simp [activity, hpc, hconsume]
    have hhead : (contents s.queueT).head? = some msg := by rw [← hdoc.consumed, hconsume]
    have htakes : (s.view contents).takes .take = [msg] := by
      simp [WakeupQueue.takes, view, hhead]
    refine ⟨before ++ [last ++ [msg]], ?_, ?_, by simp⟩
    · have hreturned : (handleAndDestroy lib msg).returned = true :=
        returned_handleAndDestroy.trans hmsg
      rw [hlast, Run.andThen_of_returned (Run.returned_emit _), hreturned, eventsIn, eventsIn,
        Machine.trace_append_singleton hrun, hact]
      rfl
    · rw [htaken, htakes, ← h.taken_eq]
      simp
  | stop hpc hconsume =>
    have hhead : (contents s.queueT).head? = none := by rw [← hdoc.consumed, hconsume]
    refine ⟨passes, h.quiet hrun ?_ (hquiet ?_) fun hd => by simp at hd⟩
    · simp [activity, hpc, hconsume]
    · simp [WakeupQueue.takes, view, hhead]

theorem Passes.of_run (fd : Int) (hdoc : queue.Documented contents payload)
    (h : (machine lib queue).run is = some s) : ∃ passes, Passes lib queue fd is s passes :=
  Machine.invariant (P := fun is s => ∃ passes, Passes lib queue fd is s passes)
    ⟨[], rfl, rfl, fun hd => by simp [machine, init] at hd⟩
    (fun _ _ _ _ hrun ⟨_, hpasses⟩ hs => hpasses.step hdoc hrun (step_acts hs)) h

/-- A step that is not possible is not seen, unless it is a message that is not survived. -/
theorem Passes.ended (h : Passes lib queue fd is s passes) (hs : s.step lib queue i = none) :
    ∃ passes', eventsIn lib queue fd is ++ s.activity lib queue fd i
      = (kafkaRoutine lib fd passes').events := by
  have hsame : s.activity lib queue fd i = [] → ∃ passes',
      eventsIn lib queue fd is ++ s.activity lib queue fd i
        = (kafkaRoutine lib fd passes').events := fun hnone =>
    ⟨passes, by rw [hnone, List.append_nil, h.run_eq, Run.events_emit]⟩
  cases i with
  | enqueue msg => simp [DispatchQueue.step] at hs
  | enable => exact hsame rfl
  | wake =>
    refine hsame (if_neg fun ⟨hpc, hpipe⟩ => ?_)
    obtain ⟨byte, pipe, hcons⟩ := List.exists_cons_of_ne_nil hpipe
    simp [DispatchQueue.step, hpc, hcons] at hs
  | take =>
    by_cases hpc : s.pc = .draining
    · cases hconsume : (queue.consumeQueue s.queueT).1 with
      | none => exact hsame (by simp [activity, hconsume])
      | some msg =>
        obtain ⟨before, last, rfl, hlast⟩ := h.take hpc msg
        refine ⟨before ++ [last ++ [msg]], ?_⟩
        rw [hlast, Run.events_emit_andThen]
        simp [activity, hpc, hconsume]
    · exact hsame (if_neg hpc)

end passes

/--
**The coroutine makes one pass after the other**, whenever messages come.

What it does in any interleaving is what `kafka_routine` does pass by pass, up to a message that the
process does not survive. As long as there was none, the passes and the queue hold the messages that
came, each once and in order.
-/
theorem eventsIn_eq_kafkaRoutine (lib : RdKafkaLib H) (queue : RdKafkaQueue Q)
    (contents : Q → List RdKafkaMessage) (payload : Q → List UInt8)
    (hdoc : queue.Documented contents payload) (fd : Int) (is : List (WakeupInput RdKafkaMessage)) :
    ∃ passes, eventsIn lib queue fd is = (kafkaRoutine lib fd passes).events ∧
      ∀ s, (machine lib queue).run is = some s →
        (kafkaRoutine lib fd passes).returned = true ∧
          passes.flatten ++ contents s.queueT = received is := by
  cases hrun : (machine lib queue).run is with
  | some s =>
    obtain ⟨passes, hpasses⟩ := Passes.of_run fd hdoc hrun
    refine ⟨passes, by rw [hpasses.run_eq, Run.events_emit], fun s' hs => ?_⟩
    obtain rfl := Option.some.inj hs
    refine ⟨by rw [hpasses.run_eq, Run.returned_emit], ?_⟩
    rw [hpasses.taken_eq]
    exact WakeupQueue.taken_append_queue (run_view hdoc hrun)
  | none =>
    suffices h : ∃ passes, eventsIn lib queue fd is = (kafkaRoutine lib fd passes).events by
      obtain ⟨passes, hpasses⟩ := h
      exact ⟨passes, hpasses, fun s hs => by simp at hs⟩
    induction is using List.reverseRecOn with
    | nil => simp at hrun
    | append_singleton is i ih =>
      cases hbefore : (machine lib queue).run is with
      | none =>
        rw [eventsIn, Machine.trace_append_of_run_eq_none hbefore]
        exact ih hbefore
      | some s =>
        obtain ⟨passes, hpasses⟩ := Passes.of_run fd hdoc hbefore
        rw [Machine.run_append_singleton, hbefore] at hrun
        rw [eventsIn, Machine.trace_append_singleton hbefore]
        exact hpasses.ended hrun

/-- A queue that behaves as documented: the messages, and the payload of the event. -/
def rdkafkaQueue : RdKafkaQueue (List RdKafkaMessage × List UInt8) where
  subscribed := ([], [])
  ioEventEnable q bytes := ((q.1, bytes), [])
  enqueue q msg := ((q.1 ++ [msg], q.2), if q.1 = [] then q.2 else [])
  consumeQueue q := (q.1.head?, (q.1.tail, q.2))

theorem documented_rdkafkaQueue : rdkafkaQueue.Documented Prod.fst Prod.snd :=
  ⟨rfl, rfl, fun _ _ => rfl, fun _ _ => rfl, fun _ _ => rfl, fun _ _ => rfl, fun _ _ => rfl,
    fun _ _ => rfl, fun _ => rfl, fun _ => rfl, fun _ => rfl⟩

/-- A message that comes while the coroutine drains the queue. -/
def twoMessages : List (WakeupInput RdKafkaMessage) :=
  [.enable, .enqueue (dataMessage 0), .wake, .take, .enqueue (dataMessage 1), .take, .take, .wake,
    .take]

theorem eventsIn_eq_kafkaRoutine_twoMessages :
    ∃ passes, eventsIn rdkafka rdkafkaQueue 7 twoMessages
        = (kafkaRoutine rdkafka 7 passes).events ∧
      ∀ s, (machine rdkafka rdkafkaQueue).run twoMessages = some s →
        (kafkaRoutine rdkafka 7 passes).returned = true ∧
          passes.flatten ++ s.queueT.1 = received twoMessages :=
  eventsIn_eq_kafkaRoutine rdkafka rdkafkaQueue Prod.fst Prod.snd documented_rdkafkaQueue 7 _

/-! ## What the coroutine does with the messages -/

/-- Each pass that is survived gives back what it took. -/
theorem destroyed_kafkaRoutine {passes : List (List RdKafkaMessage)}
    (h : (kafkaRoutine lib fd passes).returned = true) :
    destroyed (kafkaRoutine lib fd passes).events = passes.flatten := by
  induction passes with
  | nil => rfl
  | cons msgs passes ih =>
    rw [kafkaRoutine, Run.returned_andThen, Bool.and_eq_true] at h
    have hdrain : (drain lib msgs).1.returned = true := by simpa [consume] using h.1
    have hpass : destroyed (consume lib fd msgs).1.events = msgs :=
      destroyed_drain (returned_drain.mp hdrain)
    rw [kafkaRoutine, Run.andThen_of_returned h.1, destroyed, List.filterMap_append]
    show destroyed _ ++ destroyed _ = _
    rw [hpass, ih h.2, List.flatten_cons]

theorem destroyed_eventsIn (fd : Int) (hdoc : queue.Documented contents payload)
    (h : (machine lib queue).run is = some s) :
    destroyed (eventsIn lib queue fd is) = WakeupQueue.taken is := by
  obtain ⟨passes, hpasses⟩ := Passes.of_run fd hdoc h
  have hreturned : (kafkaRoutine lib fd passes).returned = true := by
    rw [hpasses.run_eq, Run.returned_emit]
  have hevents : (kafkaRoutine lib fd passes).events = eventsIn lib queue fd is := by
    rw [hpasses.run_eq, Run.events_emit]
  rw [← hevents, destroyed_kafkaRoutine hreturned, hpasses.taken_eq]

/--
**When no message is left lying.**

The coroutine is started and has nothing more to do. It has handled all messages, exactly if none
came between `rd_kafka_subscribe` and `rd_kafka_queue_io_event_enable`. Otherwise the byte for the
queue was never written, and it has handled none.
-/
theorem destroyed_eq_received_iff (lib : RdKafkaLib H) (queue : RdKafkaQueue Q)
    (contents : Q → List RdKafkaMessage) (payload : Q → List UInt8)
    (hdoc : queue.Documented contents payload) (fd : Int) (is : List (WakeupInput RdKafkaMessage))
    (s : DispatchQueue Q) (h : (machine lib queue).run is = some s) (hpc : s.pc ≠ .setup)
    (hidle : s.Idle) :
    destroyed (eventsIn lib queue fd is) = received is ↔ receivedEarly is = [] := by
  rw [destroyed_eventsIn fd hdoc h]
  exact WakeupQueue.taken_eq_enqueued_iff (run_view hdoc h) hpc (idle_view.mpr hidle)

/-- The first message comes too early. -/
def oneEarly : List (WakeupInput RdKafkaMessage) :=
  [.enqueue (dataMessage 0), .enable, .enqueue (dataMessage 1)]

theorem destroyed_eq_received_iff_oneEarly :
    destroyed (eventsIn rdkafka rdkafkaQueue 7 oneEarly) = received oneEarly ↔
      receivedEarly oneEarly = [] :=
  destroyed_eq_received_iff rdkafka rdkafkaQueue Prod.fst Prod.snd documented_rdkafkaQueue 7 _
    ⟨.waiting, ([dataMessage 0, dataMessage 1], dot), []⟩ rfl (by decide)
    ⟨by decide, fun _ => rfl⟩

/-- The coroutine by itself does the steps of the abstract queue, while it survives the messages. -/
theorem follows_view (hdoc : queue.Documented contents payload) :
    (machine lib queue).Follows (WakeupQueue.machine RdKafkaMessage) (view contents)
      (fun _ i => [i])
      (fun s => s.Enabled payload ∧
        ∀ msg ∈ contents s.queueT, (handleMessage lib msg).returned = true)
      (fun j => WakeupQueue.isWork j = true) id where
  step s j t hG hA hs := by
    obtain ⟨hen, hmsgs⟩ := hG
    suffices h : ∃ s', s.step lib queue j = some s' ∧
        ∀ msg ∈ contents s'.queueT, (handleMessage lib msg).returned = true by
      obtain ⟨s', hs', hmsgs'⟩ := h
      have ha := step_acts hs'
      have hview := ha.step_view hdoc hen
      exact ⟨s', hs', Option.some.inj (hview.symm.trans hs), hen.acts hdoc ha, hmsgs'⟩
    have hconsumed := hdoc.consumed s.queueT
    have hcontents := hdoc.contents_consume s.queueT
    cases WakeupQueue.step_acts hs with
    | enqueue msg => simp [WakeupQueue.isWork] at hA
    | enable _ => simp [WakeupQueue.isWork] at hA
    | wake hpc hpos =>
      have hwaiting : s.pc = .waiting := hpc
      obtain ⟨byte, pipe, hpipe⟩ := List.exists_cons_of_length_pos (l := s.pipe) hpos
      exact ⟨{ s with pc := .draining, pipe := pipe }, by simp [step, hpipe, hwaiting], hmsgs⟩
    | take hpc msg rest hqueue =>
      have hdraining : s.pc = .draining := hpc
      have hq : contents s.queueT = msg :: rest := hqueue
      rw [hq] at hconsumed hcontents hmsgs
      have hmsg := returned_handleAndDestroy.trans (hmsgs msg List.mem_cons_self)
      refine ⟨{ s with queueT := (queue.consumeQueue s.queueT).2 }, ?_, fun msg' hmsg' => ?_⟩
      · rw [step, if_pos hdraining]
        split
        · next msg' q hc =>
          obtain rfl : msg' = msg := by simpa [hc] using hconsumed
          rw [if_pos hmsg, hc]
        · next q hc => simp [hc] at hconsumed
      · rw [hcontents] at hmsg'
        exact hmsgs msg' (List.mem_cons_of_mem _ hmsg')
    | stop hpc hqueue =>
      have hdraining : s.pc = .draining := hpc
      have hq : contents s.queueT = [] := hqueue
      rw [hq] at hconsumed hcontents
      refine ⟨{ s with pc := .waiting, queueT := (queue.consumeQueue s.queueT).2 }, ?_, ?_⟩
      · rw [step, if_pos hdraining]
        split
        · next msg' q hc => simp [hc] at hconsumed
        · next q hc => rw [hc]
      · simp [hcontents]
  inputs _ _ _ _ := rfl

/-- **By itself the coroutine comes to rest**, if it survives the messages that wait. -/
theorem exists_idle (hdoc : queue.Documented contents payload)
    (h : (machine lib queue).run is = some s)
    (hmsgs : ∀ msg ∈ contents s.queueT, (handleMessage lib msg).returned = true) :
    ∃ js s', (∀ j ∈ js, WakeupQueue.isWork j = true) ∧ js.length ≤ (s.view contents).pending ∧
      (machine lib queue).run (is ++ js) = some s' ∧ s'.Idle ∧
      ∀ msg ∈ contents s'.queueT, (handleMessage lib msg).returned = true := by
  obtain ⟨js, t, hwork, hlen, hrun, hidle⟩ := WakeupQueue.exists_idle (run_view hdoc h)
  obtain ⟨s', hrun', rfl, _, hmsgs'⟩ := (component_view lib hdoc).exists_run_view
    (follows_view hdoc) h ⟨Enabled.of_run hdoc h, hmsgs⟩ hwork hrun
  exact ⟨js, s', hwork, hlen, hrun', idle_view.mp hidle, hmsgs'⟩

/--
**The coroutine catches up.**

If no message came too early and `handle_message` survives those that wait, then from any point of any
run the coroutine by itself comes to a state where it has handled every message and waits. All its
steps in the run and from there together are three for a message at most.
-/
theorem exists_caught_up (lib : RdKafkaLib H) (queue : RdKafkaQueue Q)
    (contents : Q → List RdKafkaMessage) (payload : Q → List UInt8)
    (hdoc : queue.Documented contents payload) (fd : Int) (is : List (WakeupInput RdKafkaMessage))
    (s : DispatchQueue Q) (h : (machine lib queue).run is = some s) (hpc : s.pc ≠ .setup)
    (hearly : receivedEarly is = [])
    (hmsgs : ∀ msg ∈ contents s.queueT, (handleMessage lib msg).returned = true) :
    ∃ js s', (∀ j ∈ js, WakeupQueue.isWork j = true) ∧
      (machine lib queue).run (is ++ js) = some s' ∧ s'.Idle ∧
      destroyed (eventsIn lib queue fd (is ++ js)) = received is ∧
      (is.filter WakeupQueue.isWork).length + js.length ≤ 3 * (received is).length := by
  obtain ⟨js, s', hwork, hlen, hrun, hidle, _⟩ := exists_idle hdoc h hmsgs
  have hview := run_view hdoc h
  have hview' := run_view hdoc hrun
  obtain ⟨i, hi, hen⟩ := (WakeupQueue.exists_enable_iff hview).mpr hpc
  have hpc' : (s'.view contents).pc ≠ .setup :=
    (WakeupQueue.exists_enable_iff hview').mp ⟨i, List.mem_append_left _ hi, hen⟩
  have hearly' : WakeupQueue.early (is ++ js) = [] := by
    rw [WakeupQueue.early_append ⟨i, hi, hen⟩]
    exact hearly
  have hreceived : WakeupQueue.enqueued (is ++ js) = received is := by
    rw [WakeupQueue.enqueued_append, WakeupQueue.enqueued_of_work hwork, List.append_nil]
  refine ⟨js, s', hwork, hrun, hidle, ?_, ?_⟩
  · rw [destroyed_eventsIn fd hdoc hrun, ← hreceived]
    exact (WakeupQueue.taken_eq_enqueued_iff hview' hpc' (idle_view.mpr hidle)).mpr hearly'
  · have hle := WakeupQueue.work_le hview
    show _ ≤ 3 * (WakeupQueue.enqueued is).length
    omega

/-- Two messages wait. -/
def twoWaiting : List (WakeupInput RdKafkaMessage) :=
  [.enable, .enqueue (dataMessage 0), .enqueue (dataMessage 1)]

theorem exists_caught_up_twoWaiting :
    ∃ js s', (∀ j ∈ js, WakeupQueue.isWork j = true) ∧
      (machine rdkafka rdkafkaQueue).run (twoWaiting ++ js) = some s' ∧ s'.Idle ∧
      destroyed (eventsIn rdkafka rdkafkaQueue 7 (twoWaiting ++ js)) = received twoWaiting ∧
      0 + js.length ≤ 3 * 2 :=
  exists_caught_up rdkafka rdkafkaQueue Prod.fst Prod.snd documented_rdkafkaQueue 7 twoWaiting
    ⟨.waiting, ([dataMessage 0, dataMessage 1], dot), dot⟩ rfl (by decide) rfl (by decide)

end DispatchQueue

end Easn
