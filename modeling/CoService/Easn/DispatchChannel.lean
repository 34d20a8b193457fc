import CoService.Infra.Run

/-!
# `dispatch_channel`

The messages that come back from Kafka. A coroutine waits until there are some and then takes one
after the other from the queue, without waiting, until there are none. A message may stand for an
error: then its `err` is not 0.

librdkafka is not part of this repository. Its error codes and its functions are parameters, and
`Documented` is what the program relies on.
-/

namespace Easn

open Infra

/-- The codes of `rd_kafka_resp_err_t` that `handle_message` compares with. -/
structure RdKafkaRespErr where
  partitionEof : Int
  unknownPartition : Int
  unknownTopic : Int

/-- `rd_kafka_message_t`. `rkt` is the name of the topic, if the pointer is not `NULL`. `payload` is
what can be read there, and `priv` is the pointer `_private`, behind which librdkafka keeps the
headers. -/
structure RdKafkaMessage where
  err : Int
  rkt : Option String
  partition : Int
  payload : List UInt8
  offset : Int
  priv : Nat
deriving DecidableEq

/-- librdkafka, as far as `handle_message` calls it. `H` is `rd_kafka_headers_t`. -/
structure RdKafkaLib (H : Type*) extends RdKafkaRespErr where
  /-- `rd_kafka_message_headers`, which returns an error if there are no headers. -/
  messageHeaders : RdKafkaMessage → Option H
  /-- `rd_kafka_header_get(hdrs, 0, name, ..)`: what can be read at the value, or an error. -/
  headerGet : H → String → Option (List UInt8)

/-- librdkafka puts a `NUL` behind the value of a header. -/
structure RdKafkaLib.Documented {H : Type*} (lib : RdKafkaLib H) : Prop where
  terminated : ∀ hdrs name val, lib.headerGet hdrs name = some val → 0 ∈ val

/-- What a pass of `consume` does. Everything from `messageHeaders` to `payload` is the path of a
message with data. -/
inductive KafkaEvent
  | poll (fd : Int) (timeout : Int)
  | read (fd : Int) (count : Nat)
  | topicError (topic : String) (offset partition : Int)
  | error (err : Int)
  | messageHeaders (msg : RdKafkaMessage)
  | headerGet (name : String) (value : Option (List UInt8))
  | payload (msg : RdKafkaMessage)
  | messageDestroy (msg : RdKafkaMessage)

/-- What is logged of an error. -/
def consumeError (msg : RdKafkaMessage) : KafkaEvent :=
  match msg.rkt with
  | some topic => .topicError topic msg.offset msg.partition
  | none => .error msg.err

/-- A `char *` is written to a stream. Without a `NUL` the read runs out of bounds. -/
def writeString (bytes : List UInt8) : Run KafkaEvent := if 0 ∈ bytes then .done else .fault []

section

variable {H : Type*} (lib : RdKafkaLib H)

/-- The part of `handle_message` behind the error branch. What `rd_kafka_header_get` returns is not
looked at. -/
def handlePayload (msg : RdKafkaMessage) : Run KafkaEvent :=
  let payload := (Run.emit [.payload msg]).andThen (writeString msg.payload)
  match lib.messageHeaders msg with
  | some hdrs =>
    match lib.headerGet hdrs "sid" with
    | some val =>
      ((Run.emit [.messageHeaders msg, .headerGet "sid" (some val)]).andThen
        (writeString val)).andThen payload
    -- nothing was stored in `val` and `size`, and they are read now
    | none => .fault [.messageHeaders msg, .headerGet "sid" none]
  | none => (Run.emit [.messageHeaders msg]).andThen payload

/--
`handle_message(rkmessage, opaque)`.

The body of the last `if` in the error branch is commented out, so what it guards is the `return`
that follows.
-/
def handleMessage (msg : RdKafkaMessage) : Run KafkaEvent :=
  if msg.err ≠ 0 then
    if msg.err = lib.partitionEof then .done
    else
      (Run.emit [consumeError msg]).andThen
        (if msg.err = lib.unknownPartition ∨ msg.err = lib.unknownTopic then .done
        else handlePayload lib msg)
  else handlePayload lib msg

/-- A message is handled and given back. -/
def handleAndDestroy (msg : RdKafkaMessage) : Run KafkaEvent :=
  (handleMessage lib msg).andThen (.emit [.messageDestroy msg])

/-- The loop of `consume`, where the calls of `rd_kafka_consume_queue` return the messages in order
and then `NULL`. Returns what it did and the messages that are left. -/
def drain : List RdKafkaMessage → Run KafkaEvent × List RdKafkaMessage
  | [] => (.done, [])
  | msg :: queue =>
    if (handleAndDestroy lib msg).returned then
      ((handleAndDestroy lib msg).andThen (drain queue).1, (drain queue).2)
    else (handleAndDestroy lib msg, queue)

/-- `consume()`, where `fd` is the reading end of the pipe. -/
def consume (fd : Int) (queue : List RdKafkaMessage) : Run KafkaEvent × List RdKafkaMessage :=
  ((Run.emit [.poll fd (-1), .read fd 1]).andThen (drain lib queue).1, (drain lib queue).2)

/-- `kafka_routine`: one pass after the other, each with the messages that it takes. -/
def kafkaRoutine (fd : Int) : List (List RdKafkaMessage) → Run KafkaEvent
  | [] => .done
  | queue :: queues => (consume lib fd queue).1.andThen (kafkaRoutine fd queues)

end

/-! ## What is observed -/

/-- The messages that are given back, in order. -/
def destroyed (events : List KafkaEvent) : List RdKafkaMessage :=
  events.filterMap fun
    | .messageDestroy msg => some msg
    | _ => none

section

variable {H : Type*} {lib : RdKafkaLib H} {msg : RdKafkaMessage} {queue : List RdKafkaMessage}

/-- The error is one that `handle_message` returns for. -/
def RdKafkaRespErr.returns (codes : RdKafkaRespErr) (err : Int) : Bool :=
  err = codes.partitionEof || err = codes.unknownPartition || err = codes.unknownTopic

/-- The message takes the path of a message with data. -/
def takesPayload (codes : RdKafkaRespErr) (msg : RdKafkaMessage) : Bool :=
  msg.err = 0 || !codes.returns msg.err

/-- **What `handle_message` does**: an error is logged, unless it is the end of a partition, and the
message goes on as data unless it is an error that is returned for. -/
theorem handleMessage_eq (lib : RdKafkaLib H) (msg : RdKafkaMessage) :
    handleMessage lib msg =
      (Run.emit (if msg.err = 0 ∨ msg.err = lib.partitionEof then [] else [consumeError msg])).andThen
        (if takesPayload lib.toRdKafkaRespErr msg then handlePayload lib msg else .done) := by
  have hdone : ∀ k : Run KafkaEvent, (Run.emit []).andThen k = k := Run.done_andThen
  by_cases h0 : msg.err = 0
  · have htakes : takesPayload lib.toRdKafkaRespErr msg = true := by simp [takesPayload, h0]
    rw [handleMessage, if_neg (not_not.mpr h0), if_pos (Or.inl h0), if_pos htakes, hdone]
  · by_cases heof : msg.err = lib.partitionEof
    · have htakes : ¬ takesPayload lib.toRdKafkaRespErr msg = true := by
        simp [takesPayload, RdKafkaRespErr.returns, heof ▸ h0, heof]
      rw [handleMessage, if_pos h0, if_pos heof, if_pos (Or.inr heof), if_neg htakes, hdone]
    · have htakes : takesPayload lib.toRdKafkaRespErr msg = true ↔
          ¬ (msg.err = lib.unknownPartition ∨ msg.err = lib.unknownTopic) := by
        simp [takesPayload, RdKafkaRespErr.returns, h0, heof]
      rw [handleMessage, if_pos h0, if_neg heof, if_neg (not_or.mpr ⟨h0, heof⟩)]
      simp only [htakes, ite_not]

theorem returned_writeString {bytes : List UInt8} :
    (writeString bytes).returned = true ↔ 0 ∈ bytes := by
  unfold writeString
  split <;> simp_all

theorem returned_handleMessage_iff : (handleMessage lib msg).returned = true ↔
    (takesPayload lib.toRdKafkaRespErr msg = true → (handlePayload lib msg).returned = true) := by
  rw [handleMessage_eq, Run.returned_andThen, Run.returned_emit, Bool.true_and]
  split
  · next htakes => simp [htakes]
  · next htakes => simp [htakes]

theorem returned_handleAndDestroy :
    (handleAndDestroy lib msg).returned = (handleMessage lib msg).returned := by
  simp [handleAndDestroy]

/-- What is done with a message that is survived. -/
theorem handleAndDestroy_of_returned (h : (handleMessage lib msg).returned = true) :
    handleAndDestroy lib msg = .emit ((handleMessage lib msg).events ++ [.messageDestroy msg]) := by
  rw [handleAndDestroy, Run.andThen_of_returned h]
  rfl

theorem filterMap_consumeError {δ : Type*} {f : KafkaEvent → Option δ}
    (htopic : ∀ topic offset partition, f (.topicError topic offset partition) = none)
    (herror : ∀ err, f (.error err) = none) (msg : RdKafkaMessage) :
    f (consumeError msg) = none := by
  unfold consumeError
  split
  · exact htopic ..
  · exact herror _

/-- What is observed of one message, apart from the errors. -/
theorem filterMap_handleMessage {δ : Type*} {f : KafkaEvent → Option δ}
    (htopic : ∀ topic offset partition, f (.topicError topic offset partition) = none)
    (herror : ∀ err, f (.error err) = none) (lib : RdKafkaLib H) (msg : RdKafkaMessage) :
    (handleMessage lib msg).events.filterMap f =
      if takesPayload lib.toRdKafkaRespErr msg then (handlePayload lib msg).events.filterMap f
      else [] := by
  have hone := filterMap_consumeError htopic herror msg
  rw [handleMessage_eq, Run.events_emit_andThen, List.filterMap_append]
  split <;> split <;> simp [hone]

/-- What is observed of the path of data, if it is survived. -/
theorem filterMap_handlePayload {δ : Type*} {f : KafkaEvent → Option δ}
    (hget : ∀ name value, f (.headerGet name value) = none)
    (h : (handlePayload lib msg).returned = true) : (handlePayload lib msg).events.filterMap f
      = (f (.messageHeaders msg)).toList ++ (f (.payload msg)).toList := by
  have hwrite : ∀ {bytes}, 0 ∈ bytes → writeString bytes = .done := fun h => if_pos h
  have hboth : [KafkaEvent.messageHeaders msg, .payload msg].filterMap f
      = (f (.messageHeaders msg)).toList ++ (f (.payload msg)).toList := by
    rw [List.filterMap_cons, List.filterMap_cons]
    cases f (.messageHeaders msg) <;> cases f (.payload msg) <;> rfl
  rw [← hboth]
  rw [handlePayload] at h ⊢
  cases hheaders : lib.messageHeaders msg with
  | none =>
    rw [hheaders] at h
    have hpayload : 0 ∈ msg.payload := by simpa [returned_writeString] using h
    simp [hwrite hpayload]
  | some hdrs =>
    rw [hheaders] at h
    cases hsid : lib.headerGet hdrs "sid" with
    | none => simp [hsid] at h
    | some val =>
      have hstrings : 0 ∈ val ∧ 0 ∈ msg.payload := by simpa [hsid, returned_writeString] using h
      simp [hsid, hwrite hstrings.1, hwrite hstrings.2, List.filterMap_cons, hget]

/-! ## One pass -/

/-- **A pass is survived** if each of its messages is. -/
theorem returned_drain : (drain lib queue).1.returned = true ↔
    ∀ msg ∈ queue, (handleMessage lib msg).returned = true := by
  induction queue with
  | nil => simp [drain]
  | cons msg queue ih =>
    rw [drain, returned_handleAndDestroy, List.forall_mem_cons, ← ih]
    split
    · next hmsg => simp [returned_handleAndDestroy, hmsg]
    · next hmsg => simp [returned_handleAndDestroy, hmsg]

/-- What a pass does that is survived, message by message. -/
theorem events_drain (h : ∀ msg ∈ queue, (handleMessage lib msg).returned = true) :
    (drain lib queue).1.events
      = queue.flatMap fun msg => (handleMessage lib msg).events ++ [.messageDestroy msg] := by
  induction queue with
  | nil => rfl
  | cons msg queue ih =>
    rw [List.forall_mem_cons] at h
    rw [drain, if_pos (returned_handleAndDestroy.trans h.1), handleAndDestroy_of_returned h.1,
      Run.events_emit_andThen, ih h.2, List.flatMap_cons]

/-- An observation of the pass that shows the kept messages once, one after the other. -/
theorem filterMap_drain {f : KafkaEvent → Option RdKafkaMessage} {keep : RdKafkaMessage → Bool}
    (hall : ∀ msg ∈ queue, (handleMessage lib msg).returned = true)
    (h : ∀ msg ∈ queue, ((handleMessage lib msg).events ++
      [KafkaEvent.messageDestroy msg]).filterMap f = if keep msg then [msg] else []) :
    (drain lib queue).1.events.filterMap f = queue.filter keep := by
  rw [events_drain hall]
  clear hall
  induction queue with
  | nil => rfl
  | cons msg queue ih =>
    rw [List.forall_mem_cons] at h
    rw [List.flatMap_cons, List.filterMap_append, h.1, ih h.2, List.filter_cons]
    split <;> rfl

/-- **Every message is given back to librdkafka once**, whatever path it takes. -/
theorem destroyed_drain (hall : ∀ msg ∈ queue, (handleMessage lib msg).returned = true) :
    destroyed (drain lib queue).1.events = queue := by
  have hkeep : destroyed (drain lib queue).1.events = queue.filter fun _ => true := by
    refine filterMap_drain hall fun msg hmsg => ?_
    rw [List.filterMap_append, filterMap_handleMessage (fun _ _ _ => rfl) (fun _ => rfl)]
    split
    · next htakes =>
      have hreturned := (returned_handleMessage_iff.mp (hall msg hmsg)) htakes
      rw [filterMap_handlePayload (fun _ _ => rfl) hreturned]
      rfl
    · rfl
  rw [hkeep, List.filter_true]

end

/-! ## An instance -/

/-- A librdkafka with the codes of the real one. Behind `_private` it keeps whether the message has
headers, and then there is one, with a `sid`. -/
def rdkafka : RdKafkaLib Unit where
  partitionEof := -191
  unknownPartition := -190
  unknownTopic := -188
  messageHeaders msg := if msg.priv = 0 then none else some ()
  headerGet _ name := if name = "sid" then some [0x31, 0x00] else none

/-- A message with data, with headers or without. -/
def dataMessage (priv : Nat) : RdKafkaMessage where
  err := 0
  rkt := some "topic"
  partition := 0
  payload := [0x68, 0x69, 0x00]
  offset := 0
  priv := priv

end Easn
