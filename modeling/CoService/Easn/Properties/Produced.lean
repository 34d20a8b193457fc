import CoService.Easn.KafkaDispatcher
import CoService.Easn.Properties.Connections
import CoService.Easn.Roundtrip.Segmentation

/-!
# From the clients to the topic

What the server dispatches goes through `kafka_dispatcher` to a topic. librdkafka may refuse any
header and any message.

* `Sent` — what is on the topic after some calls, and which lists of headers are left behind
* `sent_dispatchedIn` — so it is after everything that the server dispatches in a run
* `produced_of_sid` — the messages with the `sid` of a connection are those of its own packets
* `published` — what a client says in whole frames is what the topic holds for it
-/

namespace Easn

open Infra

namespace RdKafkaProducer

/-- The messages for the calls that were accepted. -/
def messagesOf (topic : String) (xs : List (DispatchCall × ProduceReturns)) :
    List ProducedMessage :=
  (xs.filter fun x => x.2.accepted).map fun x => messageOf topic x.1

/-- The lists of headers of the calls where one could not be added. -/
def leakedIn (xs : List (DispatchCall × ProduceReturns)) : List Ptr :=
  (xs.filter fun x => x.2.headerFails).map fun x => x.2.hdrs

variable {K : Type} {lib : RdKafkaProducer K} {headers : K → Ptr → Option RdKafkaHeaders}
  {produced : K → List ProducedMessage} {m : DispatcherManager} {topic : String} {k k' : K}
  {xs : List (DispatchCall × ProduceReturns)} {calls : List DispatchCall} {call : DispatchCall}

/-- The messages of the calls are on the topic, as far as they were accepted, in order and each once.
The program still owns the lists of headers that could not be filled, each another one, and no
others. -/
structure Sent (headers : K → Ptr → Option RdKafkaHeaders) (produced : K → List ProducedMessage)
    (topic : String) (xs : List (DispatchCall × ProduceReturns)) (k : K) : Prop where
  produced_eq : produced k = messagesOf topic xs
  owned_iff : ∀ p, (headers k p).isSome = true ↔ p ∈ leakedIn xs
  nodup : (leakedIn xs).Nodup

theorem messagesOf_append_singleton (topic : String) (xs : List (DispatchCall × ProduceReturns))
    (x : DispatchCall × ProduceReturns) : messagesOf topic (xs ++ [x])
      = messagesOf topic xs ++ if x.2.accepted then [messageOf topic x.1] else [] := by
  rw [messagesOf, List.filter_append, List.map_append, messagesOf]
  cases hacc : x.2.accepted <;> simp [hacc]

theorem leakedIn_append_singleton (xs : List (DispatchCall × ProduceReturns))
    (x : DispatchCall × ProduceReturns) :
    leakedIn (xs ++ [x]) = leakedIn xs ++ if x.2.headerFails then [x.2.hdrs] else [] := by
  rw [leakedIn, List.filter_append, List.map_append, leakedIn]
  cases hfails : x.2.headerFails <;> simp [hfails]

theorem Sent.init (hdoc : lib.Documented headers produced) (topic : String) :
    Sent headers produced topic [] lib.init where
  produced_eq := hdoc.produced_init
  owned_iff p := by simp [hdoc.headers_init, leakedIn]
  nodup := List.nodup_nil

/-- **One more call.** -/
theorem Sent.step (h : Sent headers produced topic xs k) (hdoc : lib.Documented headers produced)
    (hm : m.dispatcher = some ⟨topic⟩) (hcall : call.FromPacket)
    (hs : lib.dispatchMessage k m call = some k') :
    Sent headers produced topic (xs ++ [(call, lib.returnsTo k topic call)]) k' := by
  obtain ⟨howned, hproduced⟩ := dispatchMessage_spec hdoc hm hcall hs
  have hleaked := leakedIn_append_singleton xs (call, lib.returnsTo k topic call)
  refine ⟨?_, fun p => ?_, ?_⟩
  · rw [messagesOf_append_singleton, hproduced, h.produced_eq]
  · rw [howned, h.owned_iff, hleaked, List.mem_append]
    refine or_congr_right ?_
    cases (lib.returnsTo k topic call).headerFails <;> simp
  · rw [hleaked]
    cases (lib.returnsTo k topic call).headerFails with
    | true =>
      have hfresh : headers k (lib.returnsTo k topic call).hdrs = none := hdoc.fresh k
      have hnew : (lib.returnsTo k topic call).hdrs ∉ leakedIn xs := by
        rw [← h.owned_iff, hfresh]
        exact Bool.false_ne_true
      rw [if_pos rfl, ← List.concat_eq_append]
      exact h.nodup.concat hnew
    | false => simpa using h.nodup

/-! ### Runs -/

theorem offeredIn_append_singleton (h : (lib.producer m).run calls = some k) (topic : String)
    (call : DispatchCall) : lib.offeredIn m topic (calls ++ [call])
      = lib.offeredIn m topic calls ++ [(call, lib.returnsTo k topic call)] :=
  Machine.trace_append_singleton h call

/-- Each call is offered. -/
theorem map_fst_offeredIn (h : (lib.producer m).run calls = some k) (topic : String) :
    (lib.offeredIn m topic calls).map Prod.fst = calls := by
  refine Machine.invariant (P := fun calls _ => (lib.offeredIn m topic calls).map Prod.fst = calls)
    rfl ?_ h
  intro calls k call k' hrun ih _
  rw [offeredIn_append_singleton hrun, List.map_append, ih]
  rfl

/-- What is sent after the calls of a run. -/
theorem sent_of_run (hdoc : lib.Documented headers produced) (hm : m.dispatcher = some ⟨topic⟩)
    (hcalls : ∀ call ∈ calls, call.FromPacket) (h : (lib.producer m).run calls = some k) :
    Sent headers produced topic (lib.offeredIn m topic calls) k := by
  have hinit : Sent headers produced topic (lib.offeredIn m topic []) (lib.producer m).init :=
    Sent.init hdoc topic
  refine Machine.invariant (P := fun calls k => (∀ call ∈ calls, call.FromPacket) →
    Sent headers produced topic (lib.offeredIn m topic calls) k) (fun _ => hinit) ?_ h hcalls
  intro calls k call k' hrun ih hs hcalls
  rw [offeredIn_append_singleton hrun]
  exact (ih fun c hc => hcalls c (List.mem_append_left _ hc)).step hdoc hm (hcalls call (by simp)) hs

/-- A call that the process survives has a type with a name, and a `NUL` in its data. -/
theorem dispatchable_of_run (hm : m.dispatcher = some ⟨topic⟩)
    (h : (lib.producer m).run calls = some k) : ∀ call ∈ calls, Dispatchable call := by
  refine Machine.invariant (P := fun calls _ => ∀ call ∈ calls, Dispatchable call) (by simp) ?_ h
  intro calls k call k' _ ih hs c hc
  rcases List.mem_append.mp hc with hc | hc
  · exact ih c hc
  · obtain ⟨type, htype, hdata, _⟩ := exists_of_dispatchMessage hm hs
    rw [List.mem_singleton.mp hc]
    exact ⟨by rw [htype, Option.isSome_some], hdata⟩

/-- Such calls all go through. -/
theorem exists_run (lib : RdKafkaProducer K) (hm : m.dispatcher = some ⟨topic⟩)
    (hcalls : ∀ call ∈ calls, Dispatchable call) : ∃ k, (lib.producer m).run calls = some k := by
  induction calls using List.reverseRecOn with
  | nil => exact ⟨lib.init, rfl⟩
  | append_singleton calls call ih =>
    obtain ⟨k, hrun⟩ := ih fun c hc => hcalls c (List.mem_append_left _ hc)
    obtain ⟨hname, hdata⟩ := hcalls call (by simp)
    obtain ⟨k', hs⟩ : ∃ k', lib.dispatchMessage k m call = some k' :=
      exists_dispatchMessage k hm hname hdata
    exact ⟨k', Machine.run_append_singleton_eq_some.mpr ⟨k, hrun, hs⟩⟩

end RdKafkaProducer

/-! ## What comes from the server -/

namespace Server

variable {is : List Input} {s : Server} {c : Conn}

/-- Waiting dispatches nothing. -/
theorem dispatched_beforePoll (fd : Int) (acceptTimestamp : Int32) (now : Int)
    (session : EasnConnT) : dispatched (beforePoll fd acceptTimestamp now session).events = [] := by
  rcases events_beforePoll fd acceptTimestamp now session with ⟨left, he, _⟩ | ⟨he, _⟩ <;>
    rw [he] <;> rfl

/-- A coroutine dispatches packets. -/
theorem fromPacket_of_nextPart {fd : Int} {acceptTimestamp : Int32} {conn : EasnConnT}
    {x : TaskInput} {call : DispatchCall}
    (h : call ∈ dispatched (nextPart fd acceptTimestamp conn x).events) : call.FromPacket := by
  have hread : call ∈ dispatched (afterPoll fd conn x.stale x.read).events := by
    unfold nextPart at h
    simp only [] at h
    split at h
    · rwa [dispatched_append, dispatched_beforePoll, List.append_nil] at h
    · exact h
  rw [dispatched_afterPoll] at hread
  obtain ⟨pkt, _, rfl⟩ := List.mem_map.mp hread
  exact ⟨_, pkt, rfl⟩

/-- The server dispatches packets. -/
theorem fromPacket_of_mem (is : List Input) {call : DispatchCall} (h : call ∈ dispatchedIn is) :
    call.FromPacket := by
  obtain ⟨a, ha, hcall⟩ := List.mem_flatMap.mp h
  obtain ⟨s, input, hact⟩ := Machine.exists_of_mem_traceFrom ha
  cases input with
  | resumeAccept => simp [activation] at hact
  | coAccept connfd => simp [activation] at hact
  | wake i => simp [activation] at hact
  | run x =>
    simp only [activation] at hact
    split at hact
    · split at hact
      · split_ifs at hact
        · simp at hact
        · rw [List.mem_singleton.mp hact, dispatched_beforePoll] at hcall
          exact absurd hcall List.not_mem_nil
        · simp at hact
      · split at hact
        · simp at hact
        · rw [List.mem_singleton.mp hact] at hcall
          exact fromPacket_of_nextPart hcall
    · simp at hact

/-- The calls of a run with any dispatcher. -/
theorem sent_iff_dispatchable {K : Type} {lib : RdKafkaProducer K}
    {headers : K → Ptr → Option RdKafkaHeaders} {produced : K → List ProducedMessage}
    (hdoc : lib.Documented headers produced) {m : DispatcherManager} {topic : String}
    (hm : m.dispatcher = some ⟨topic⟩) (is : List Input) :
    (∀ call ∈ dispatchedIn is, Dispatchable call) ↔
      ∃ k, (lib.producer m).run (dispatchedIn is) = some k ∧
        RdKafkaProducer.Sent headers produced topic (lib.offeredIn m topic (dispatchedIn is)) k := by
  constructor
  · intro hcalls
    obtain ⟨k, hrun⟩ := RdKafkaProducer.exists_run lib hm hcalls
    exact ⟨k, hrun, RdKafkaProducer.sent_of_run hdoc hm (fun _ => fromPacket_of_mem is) hrun⟩
  · rintro ⟨k, hrun, _⟩
    exact RdKafkaProducer.dispatchable_of_run hm hrun

/--
**What the server dispatches goes to the topic.**

The process survives all calls of a run exactly if each packet has a type with a name and a zero byte
in its data, which is logged as a C string. Then the messages on the topic are those of the calls that
librdkafka accepted, in the order in which the server made them. The lists of headers that stay behind
are those where a header could not be added.
-/
theorem sent_dispatchedIn {K : Type} (lib : RdKafkaProducer K)
    (headers : K → Ptr → Option RdKafkaHeaders) (produced : K → List ProducedMessage)
    (hdoc : lib.Documented headers produced) (pid : String) (is : List Input) :
    (∀ call ∈ dispatchedIn is, Dispatchable call) ↔
      ∃ k, (lib.producer (createDispatcher .init pid)).run (dispatchedIn is) = some k ∧
        RdKafkaProducer.Sent headers produced ("topic-send-" ++ pid)
          (lib.offeredIn (createDispatcher .init pid) ("topic-send-" ++ pid) (dispatchedIn is)) k :=
  sent_iff_dispatchable hdoc rfl is

/-- The two messages of the client that has authenticated. There is room for the first one only. -/
theorem sent_dispatchedIn_twoClients :
    (∀ call ∈ dispatchedIn twoClients, Dispatchable call) ↔
      ∃ k, (rdkafkaProducer.producer (createDispatcher .init "mypid")).run (dispatchedIn twoClients)
          = some k ∧
        RdKafkaProducer.Sent ProducerState.headers ProducerState.produced ("topic-send-" ++ "mypid")
          (rdkafkaProducer.offeredIn (createDispatcher .init "mypid") ("topic-send-" ++ "mypid")
            (dispatchedIn twoClients)) k :=
  sent_dispatchedIn rdkafkaProducer _ _ documented_rdkafkaProducer "mypid" twoClients

/-- The process survives both. -/
theorem exists_run_twoClients :
    ∃ k, (rdkafkaProducer.producer (createDispatcher .init "mypid")).run (dispatchedIn twoClients)
      = some k := by
  have hcalls : ∀ call ∈ dispatchedIn twoClients, Dispatchable call := by decide +kernel
  exact RdKafkaProducer.exists_run rdkafkaProducer rfl hcalls

theorem inputsOf_twoClients : inputsOf 0 twoClients ≠ [] := by
  have hlen : (inputsOf 0 twoClients).length = 4 := by decide +kernel
  intro hnil
  simp [hnil] at hlen

theorem nodup_twoClients : ((machine.run twoClients).get twoClients_isSome).sids.Nodup := by
  decide +kernel

end Server

/-! ## What a message says -/

/-- The value of the first header with a name. -/
def headerValue (hdrs : RdKafkaHeaders) (name : String) : Option (List UInt8) :=
  (hdrs.find? fun hdr => hdr.1 = name).map Prod.snd

/-- The `sid` of a message, read from its header. -/
def ProducedMessage.sid (msg : ProducedMessage) : Option UInt64 :=
  (headerValue msg.headers "sid").map fun text => UInt64.ofNat (decimalValue text)

/-- The type of a message: the one whose name is in its header. -/
def ProducedMessage.type (msg : ProducedMessage) : Option UInt8 :=
  [typeInit, typeReport, typeSwitch, typeIpChange].find? fun type =>
    (typeToString type).map utf8Bytes = headerValue msg.headers "type"

/-- **The `sid` of a message is that of its call.** -/
theorem sid_messageOf (topic : String) (call : DispatchCall) :
    (messageOf topic call).sid = some call.sid := by
  have hget : headerValue (messageHeaders call) "sid"
      = some (utf8Bytes (toString call.sid.toNat)) := by
    rw [Nat.toString_eq_repr, ← cString_repr]
    rfl
  show (headerValue (messageHeaders call) "sid").map _ = _
  rw [hget, Option.map_some, Nat.toString_eq_repr, decimalValue_repr, UInt64.ofNat_toNat]

theorem headerValue_type (call : DispatchCall) : headerValue (messageHeaders call) "type"
    = some (cString (utf8Bytes ((typeToString call.type).getD ""))) := by
  rw [headerValue, messageHeaders, List.find?_cons_of_neg (by simp), List.find?_cons_of_pos rfl]
  rfl

/-- **The type of a message is that of its call**, if it has a name. -/
theorem type_messageOf (topic : String) {call : DispatchCall}
    (h : (typeToString call.type).isSome = true) :
    (messageOf topic call).type = some call.type := by
  show List.find? (fun type => (typeToString type).map utf8Bytes
    = headerValue (messageHeaders call) "type") _ = _
  rw [headerValue_type]
  rcases typeToString_isSome_iff.mp h with ht | ht | ht | ht <;> rw [ht] <;> decide

/-- The messages with a `sid` are those of the calls with the `sid`. -/
theorem filter_messagesOf (topic : String) (xs : List (DispatchCall × ProduceReturns))
    (sid : UInt64) :
    (RdKafkaProducer.messagesOf topic xs).filter (fun msg => msg.sid = some sid)
      = RdKafkaProducer.messagesOf topic (xs.filter fun x => x.1.sid = sid) := by
  rw [RdKafkaProducer.messagesOf, List.filter_map, RdKafkaProducer.messagesOf, List.filter_filter,
    List.filter_filter]
  refine congrArg (List.map _) (List.filter_congr fun x _ => ?_)
  rw [Function.comp_apply, sid_messageOf, Bool.and_comm]
  simp

/-! ## One connection -/

namespace Server

variable {is : List Input} {s : Server} {c : Conn}

/-- A connection that a coroutine ran for was accepted. -/
theorem acceptedIn_of_inputsOf (h : machine.run is = some s) (hc : inputsOf c is ≠ []) :
    ∃ fd, AcceptedIn is c fd := by
  obtain ⟨x, hx⟩ := List.exists_mem_of_ne_nil _ hc
  obtain ⟨a, ha, _⟩ := List.mem_map.mp hx
  obtain ⟨ha, hconn⟩ := List.mem_filter.mp ha
  rw [← of_decide_eq_true hconn]
  exact acceptedIn_of_activation h ha

/-- The calls with the `sid` of a connection, each with what librdkafka returned to it. -/
def offeredFor {K : Type} (lib : RdKafkaProducer K) (pid : String) (c : Conn) (is : List Input) :
    List (DispatchCall × ProduceReturns) :=
  (lib.offeredIn (createDispatcher .init pid) ("topic-send-" ++ pid) (dispatchedIn is)).filter
    fun x => x.1.sid = sidOf c is

section

variable {K : Type} {lib : RdKafkaProducer K} {headers : K → Ptr → Option RdKafkaHeaders}
  {produced : K → List ProducedMessage} {pid : String} {k : K}

/-- The calls with the `sid` of a connection are those made for it. -/
theorem map_fst_offeredFor (h : machine.run is = some s) (hn : s.sids.Nodup)
    (hc : inputsOf c is ≠ [])
    (hk : (lib.producer (createDispatcher .init pid)).run (dispatchedIn is) = some k) :
    (offeredFor lib pid c is).map Prod.fst = dispatched (eventsOf c is) := by
  rw [← dispatched_of_sid is s h hn c hc,
    ← RdKafkaProducer.map_fst_offeredIn hk ("topic-send-" ++ pid), List.filter_map]
  rfl

/-- The messages with the `sid` of a connection are those of the calls with it. -/
theorem produced_of_calls (hdoc : lib.Documented headers produced)
    (hk : (lib.producer (createDispatcher .init pid)).run (dispatchedIn is) = some k) :
    (produced k).filter (fun msg => msg.sid = some (sidOf c is))
      = RdKafkaProducer.messagesOf ("topic-send-" ++ pid) (offeredFor lib pid c is) := by
  have hsent := RdKafkaProducer.sent_of_run hdoc rfl (fun _ => fromPacket_of_mem is) hk
  rw [hsent.produced_eq, filter_messagesOf]
  rfl

end

/--
**The messages with the `sid` of a connection.**

The calls with its `sid` are those of the packets that the connection's own reads hold, from its first
`TYPE_INIT` on, in their order, and the messages with its `sid` are those of the calls that librdkafka
accepted. The clock is taken to never show a millisecond twice.
-/
theorem produced_of_sid {K : Type} (lib : RdKafkaProducer K)
    (headers : K → Ptr → Option RdKafkaHeaders) (produced : K → List ProducedMessage)
    (hdoc : lib.Documented headers produced) (pid : String) (is : List Input) (s : Server)
    (h : machine.run is = some s) (hn : s.sids.Nodup) (c : Conn) (hc : inputsOf c is ≠ []) (k : K)
    (hk : (lib.producer (createDispatcher .init pid)).run (dispatchedIn is) = some k) :
    (offeredFor lib pid c is).map Prod.fst
        = ((receivedIn (inputsOf c is).tail).dropWhile fun pkt => pkt.type ≠ typeInit).map
          (dispatchMessage (sidOf c is)) ∧
      (produced k).filter (fun msg => msg.sid = some (sidOf c is))
        = RdKafkaProducer.messagesOf ("topic-send-" ++ pid) (offeredFor lib pid c is) := by
  obtain ⟨fd, hacc⟩ := acceptedIn_of_inputsOf h hc
  refine ⟨?_, produced_of_calls hdoc hk⟩
  rw [map_fst_offeredFor h hn hc hk, dispatched_eventsOf is c fd hacc]

theorem produced_of_sid_twoClients :
    ∃ k, (rdkafkaProducer.producer (createDispatcher .init "mypid")).run (dispatchedIn twoClients)
        = some k ∧
      (offeredFor rdkafkaProducer "mypid" 0 twoClients).map Prod.fst
        = ((receivedIn (inputsOf 0 twoClients).tail).dropWhile fun pkt =>
          pkt.type ≠ typeInit).map (dispatchMessage (sidOf 0 twoClients)) ∧
      k.produced.filter (fun msg => msg.sid = some (sidOf 0 twoClients))
        = RdKafkaProducer.messagesOf ("topic-send-" ++ "mypid")
          (offeredFor rdkafkaProducer "mypid" 0 twoClients) := by
  obtain ⟨k, hrun⟩ := exists_run_twoClients
  exact ⟨k, hrun, produced_of_sid rdkafkaProducer _ _ documented_rdkafkaProducer "mypid" twoClients _
    (Option.some_get twoClients_isSome).symm nodup_twoClients 0 inputsOf_twoClients k hrun⟩

end Server

/-! ## One connection, in messages -/

/-- The coroutine reads the frames of the messages, with noise between them, or nothing. -/
def TaskInput.Holds (x : TaskInput) (msgs : List Message) : Prop :=
  (msgs = [] ∧ ∃ errno, x.read = .error errno) ∨
    ∃ buf noise items, x.read = .ok buf ∧ buf.bytes = noise ++ framesWithNoise items ∧
      Clean noise ∧ (∀ item ∈ items, Clean item.2) ∧ items.map Prod.fst = msgs

theorem packetMinSize_le_framesWithNoise {items : List (Message × List UInt8)} (h : items ≠ []) :
    packetMinSize ≤ (framesWithNoise items).length := by
  obtain ⟨item, rest, rfl⟩ := List.exists_cons_of_ne_nil h
  have hsize := size_pos item.1
  rw [framesWithNoise, List.flatMap_cons, List.length_append, List.length_append, length_encode]
  show 11 ≤ _
  omega

/-- There is nothing to handle, or the frames are found. -/
theorem TaskInput.Holds.finds {x : TaskInput} {msgs : List Message} (h : x.Holds msgs) :
    (msgs = [] ∧ ∀ buf, x.read = .ok buf → buf.bytes.length < packetMinSize) ∨
      ∃ buf, x.read = .ok buf ∧ packetMinSize ≤ buf.bytes.length ∧
        List.Forall₂ (Finds buf) ((scanner buf).run x.stale 0).events msgs := by
  rcases h with ⟨rfl, errno, hread⟩ | ⟨buf, noise, items, hread, hbuf, hn, hall, rfl⟩
  · exact Or.inl ⟨rfl, by simp [hread]⟩
  · by_cases hshort : buf.bytes.length < packetMinSize
    · have hnil : items = [] := by
        by_contra hne
        have hle := packetMinSize_le_framesWithNoise hne
        rw [hbuf, List.length_append] at hshort
        omega
      refine Or.inl ⟨by rw [hnil, List.map_nil], fun buf' hread' => ?_⟩
      obtain rfl := ReadResult.ok.inj (hread.symm.trans hread')
      exact hshort
    · have hvisits := visits_stream buf items x.stale [] noise (by simpa using hbuf) hn hall
      exact Or.inr ⟨buf, hread, Nat.le_of_not_lt hshort, hvisits.2⟩

/-- What is received of a read. -/
theorem carries_acceptedPackets {x : TaskInput} {msgs : List Message} (h : x.Holds msgs) :
    List.Forall₂ Carries (acceptedPackets x.stale x.read) msgs := by
  rcases h.finds with ⟨rfl, hshort⟩ | ⟨buf, hread, hlong, hfinds⟩
  · cases hread : x.read with
    | error errno => exact List.Forall₂.nil
    | ok buf =>
      rw [acceptedPackets, if_pos (hshort buf hread)]
      exact List.Forall₂.nil
  · rw [hread, acceptedPackets, if_neg (Nat.not_lt.mpr hlong)]
    clear h
    generalize ((scanner buf).run x.stale 0).events = vs at hfinds ⊢
    induction hfinds with
    | nil => exact List.Forall₂.nil
    | cons hv _ ih =>
      rw [List.filter_cons, if_pos hv.accepts]
      exact List.Forall₂.cons hv.carries ih

/-- The bytes of a read. -/
def TaskInput.bytes (x : TaskInput) : Option (List UInt8) :=
  match x.read with
  | .ok buf => some buf.bytes
  | .error _ => none

/-- Reads of whole frames. -/
theorem forall₂_holds_of_bytes {xs : List TaskInput} {groups : List (List Message)}
    (h : xs.map TaskInput.bytes = groups.map fun msgs => some (msgs.flatMap encode)) :
    List.Forall₂ TaskInput.Holds xs groups := by
  have hforall := List.forall₂_eq_eq_eq ▸ h
  rw [List.forall₂_map_left_iff, List.forall₂_map_right_iff] at hforall
  refine hforall.imp fun x msgs hx => Or.inr ?_
  cases hread : x.read with
  | error errno => simp [TaskInput.bytes, hread] at hx
  | ok buf =>
    have hbuf : buf.bytes = msgs.flatMap encode := by simpa [TaskInput.bytes, hread] using hx
    refine ⟨buf, [], msgs.map fun m => (m, []), rfl, ?_, clean_nil, ?_, ?_⟩
    · rw [hbuf]
      simp [framesWithNoise, List.flatMap_map]
    · intro item hitem
      obtain ⟨m, _, rfl⟩ := List.mem_map.mp hitem
      exact clean_nil
    · simp [Function.comp_def]

theorem carries_receivedIn {xs : List TaskInput} {groups : List (List Message)}
    (h : List.Forall₂ TaskInput.Holds xs groups) :
    List.Forall₂ Carries (receivedIn xs) groups.flatten := by
  induction h with
  | nil => exact List.Forall₂.nil
  | cons hx _ ih => exact List.rel_append (carries_acceptedPackets hx) ih

/-- The gate lets through the same packets and messages. -/
theorem carries_dropWhile {pkts : List PacketT} {msgs : List Message}
    (h : List.Forall₂ Carries pkts msgs) :
    List.Forall₂ Carries (pkts.dropWhile fun pkt => pkt.type ≠ typeInit)
      (msgs.dropWhile fun m => m.type ≠ typeInit) := by
  induction h with
  | nil => exact List.Forall₂.nil
  | @cons pkt m pkts msgs hc hrest ih =>
    rw [List.dropWhile_cons, List.dropWhile_cons, hc.type]
    split
    · exact ih
    · exact List.Forall₂.cons hc hrest

/-- The messages for calls that carry what clients say. -/
theorem messagesOf_of_carries {sid : UInt64} {topic : String} {calls : List DispatchCall}
    {msgs : List Message} (h : List.Forall₂ (DispatchCall.Carries sid) calls msgs)
    (hnames : ∀ call ∈ calls, (typeToString call.type).isSome = true) (rs : List ProduceReturns) :
    (RdKafkaProducer.messagesOf topic (calls.zip rs)).map (fun msg => (msg.type, msg.payload))
      = ((msgs.zip rs).filter fun x => x.2.accepted).map fun x => (some x.1.type, x.1.payload) := by
  induction h generalizing rs with
  | nil => rfl
  | @cons call m calls msgs hc _ ih =>
    cases rs with
    | nil => rfl
    | cons r rs =>
      have hrest := ih (fun call' hcall' => hnames call' (List.mem_cons_of_mem _ hcall')) rs
      have htype : (messageOf topic call).type = some m.type := by
        rw [type_messageOf topic (hnames call List.mem_cons_self), hc.type]
      have hpayload : (messageOf topic call).payload = m.payload := hc.data
      rw [RdKafkaProducer.messagesOf] at hrest ⊢
      rw [List.zip_cons_cons, List.zip_cons_cons, List.filter_cons, List.filter_cons]
      cases hacc : r.accepted with
      | true => simp only [if_true, List.map_cons, hrest, htype, hpayload]
      | false => simpa using hrest

namespace Server

/-- The calls that are made for a client carry its messages from the first `TYPE_INIT` on. -/
theorem carries_dispatched {is : List Input} {c : Conn} {fd : Int} (hacc : AcceptedIn is c fd)
    {groups : List (List Message)}
    (hreads : List.Forall₂ TaskInput.Holds (inputsOf c is).tail groups) :
    List.Forall₂ (DispatchCall.Carries (sidOf c is)) (dispatched (eventsOf c is))
      (groups.flatten.dropWhile fun m => m.type ≠ typeInit) := by
  rw [dispatched_eventsOf is c fd hacc]
  exact carries_dispatchMessages (carries_dropWhile (carries_receivedIn hreads))

/--
**What a client says is what the topic holds for it.**

A client sends messages in whole frames, with noise between them and cut into reads between the
frames. Whatever other clients send meanwhile, each message from the first `TYPE_INIT` on is offered
to librdkafka once, in order. The messages on the topic with the `sid` of the client's session have
the type and the payload of those that librdkafka accepted, in the same order. The clock is taken to
never show a millisecond twice.
-/
theorem published {K : Type} (lib : RdKafkaProducer K)
    (headers : K → Ptr → Option RdKafkaHeaders) (produced : K → List ProducedMessage)
    (hdoc : lib.Documented headers produced) (pid : String) (is : List Input) (s : Server)
    (h : machine.run is = some s) (hn : s.sids.Nodup) (c : Conn) (hc : inputsOf c is ≠ [])
    (groups : List (List Message))
    (hreads : List.Forall₂ TaskInput.Holds (inputsOf c is).tail groups) (k : K)
    (hk : (lib.producer (createDispatcher .init pid)).run (dispatchedIn is) = some k) :
    (offeredFor lib pid c is).length
        = (groups.flatten.dropWhile fun m => m.type ≠ typeInit).length ∧
      ((produced k).filter fun msg => msg.sid = some (sidOf c is)).map
          (fun msg => (msg.type, msg.payload))
        = (((groups.flatten.dropWhile fun m => m.type ≠ typeInit).zip
            ((offeredFor lib pid c is).map Prod.snd)).filter fun x => x.2.accepted).map
          fun x => (some x.1.type, x.1.payload) := by
  obtain ⟨fd, hacc⟩ := acceptedIn_of_inputsOf h hc
  have hcarries := carries_dispatched hacc hreads
  have hcalls := map_fst_offeredFor h hn hc hk
  have hnames : ∀ call ∈ dispatched (eventsOf c is), (typeToString call.type).isSome = true := by
    intro call hcall
    rw [← dispatched_of_sid is s h hn c hc] at hcall
    exact (RdKafkaProducer.dispatchable_of_run rfl hk call (List.mem_filter.mp hcall).1).1
  have hzip : offeredFor lib pid c is
      = (dispatched (eventsOf c is)).zip ((offeredFor lib pid c is).map Prod.snd) :=
    List.zip_of_prod hcalls rfl
  constructor
  · rw [← List.length_map (f := Prod.fst), hcalls]
    exact hcarries.length_eq
  · rw [produced_of_calls hdoc hk, hzip, messagesOf_of_carries hcarries hnames, ← hzip]

/-- The two messages of the first client of `twoClients`. -/
theorem published_twoClients :
    ∃ k, (rdkafkaProducer.producer (createDispatcher .init "mypid")).run (dispatchedIn twoClients)
        = some k ∧
      (offeredFor rdkafkaProducer "mypid" 0 twoClients).length
        = ([[⟨typeInit, 1, []⟩], [⟨typeReport, 2, [0x08]⟩], []].flatten.dropWhile
          fun m : Message => m.type ≠ typeInit).length ∧
      (k.produced.filter fun msg => msg.sid = some (sidOf 0 twoClients)).map
          (fun msg => (msg.type, msg.payload))
        = ((([[⟨typeInit, 1, []⟩], [⟨typeReport, 2, [0x08]⟩], []].flatten.dropWhile
            fun m : Message => m.type ≠ typeInit).zip
              ((offeredFor rdkafkaProducer "mypid" 0 twoClients).map Prod.snd)).filter
            fun x => x.2.accepted).map fun x => (some x.1.type, x.1.payload) := by
  obtain ⟨k, hrun⟩ := exists_run_twoClients
  have hbytes : (inputsOf 0 twoClients).tail.map TaskInput.bytes
      = [[⟨typeInit, 1, []⟩], [⟨typeReport, 2, [0x08]⟩], []].map
        fun msgs : List Message => some (msgs.flatMap encode) := by decide +kernel
  exact ⟨k, hrun, published rdkafkaProducer _ _ documented_rdkafkaProducer "mypid" twoClients _
    (Option.some_get twoClients_isSome).symm nodup_twoClients 0 inputsOf_twoClients _
    (forall₂_holds_of_bytes hbytes) k hrun⟩

end Server

end Easn
