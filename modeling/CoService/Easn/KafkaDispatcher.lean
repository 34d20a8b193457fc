import CoService.Easn.Properties.PayloadSize
import CoService.Easn.Session
import CoService.Infra.Decimal
import CoService.Infra.Transition

/-!
# `dispatch_message` and `kafka_dispatcher`

A packet that is dispatched goes to Kafka as one message: its payload, with the `sid` of the session
and the name of the type in two headers.

librdkafka is not part of this repository. What `kafka_dispatcher` calls of it is a parameter
(`RdKafkaProducer`), and `Documented` is what librdkafka says about these functions. A list of headers
is the program's own from `rd_kafka_headers_new` on, until it is destroyed or `rd_kafka_producev`
accepts it with a message.

A step that leads to no state is one that the process does not survive. `do_produce` ends without
the `return` that its type asks for. That is taken to be harmless, as the caller does not use the
result.
-/

namespace Easn

open Infra

/-- `rd_kafka_headers_t`: the names and values, in the order in which they were added. -/
abbrev RdKafkaHeaders := List (String × List UInt8)

/-- A message that librdkafka has accepted for a topic. -/
structure ProducedMessage where
  topic : String
  headers : RdKafkaHeaders
  payload : List UInt8
deriving DecidableEq

/-- librdkafka, as far as `kafka_dispatcher` calls it. `K` is everything that its behaviour depends
on, its threads and the brokers included. An error code is 0 if there is no error. -/
structure RdKafkaProducer (K : Type) where
  /-- Behind `rd_kafka_topic_new`. -/
  init : K
  /-- `rd_kafka_headers_new`. -/
  headersNew : K → Ptr × K
  /-- `rd_kafka_header_add(hdrs, name, -1, value, -1)`. -/
  headerAdd : K → Ptr → String → String → Int × K
  /-- `rd_kafka_producev` with `RD_KAFKA_MSG_F_COPY`, for a topic, what can be read at the payload,
  its size and the headers. -/
  producev : K → String → List UInt8 → Nat → Ptr → Int × K
  /-- `rd_kafka_headers_destroy`. -/
  headersDestroy : K → Ptr → K

/-- The largest value of `message.max.bytes`. -/
def messageMaxBytes : Nat := 1000000000

/--
What librdkafka documents. `headers` are the lists that the program owns, and `produced` are the
messages that were accepted, in order.

A new list is none that the program has already. The sizes -1 stand for those of C strings. A message
that is accepted is copied, with its headers, and those are librdkafka's then; one that is larger than
`message.max.bytes` is not accepted. After an error everything is as before.
-/
structure RdKafkaProducer.Documented {K : Type} (lib : RdKafkaProducer K)
    (headers : K → Ptr → Option RdKafkaHeaders) (produced : K → List ProducedMessage) : Prop where
  headers_init : ∀ p, headers lib.init p = none
  produced_init : produced lib.init = []
  fresh : ∀ k, headers k (lib.headersNew k).1 = none
  headers_new : ∀ k, headers (lib.headersNew k).2
    = Function.update (headers k) (lib.headersNew k).1 (some [])
  produced_new : ∀ k, produced (lib.headersNew k).2 = produced k
  headers_add : ∀ k hdrs list name value, headers k hdrs = some list →
    headers (lib.headerAdd k hdrs name value).2 =
      if (lib.headerAdd k hdrs name value).1 = 0 then
        Function.update (headers k) hdrs (some (list ++ [(name, cString (utf8Bytes value))]))
      else headers k
  produced_add : ∀ k hdrs list name value, headers k hdrs = some list →
    produced (lib.headerAdd k hdrs name value).2 = produced k
  headers_producev : ∀ k hdrs list topic payload size, headers k hdrs = some list →
    headers (lib.producev k topic payload size hdrs).2 =
      if (lib.producev k topic payload size hdrs).1 = 0 then Function.update (headers k) hdrs none
      else headers k
  produced_producev : ∀ k hdrs list topic payload size, headers k hdrs = some list →
    size ≤ payload.length → produced (lib.producev k topic payload size hdrs).2 =
      produced k ++ if (lib.producev k topic payload size hdrs).1 = 0 then
        [⟨topic, list, payload.take size⟩] else []
  produced_refused : ∀ k hdrs list topic payload size, headers k hdrs = some list →
    (lib.producev k topic payload size hdrs).1 ≠ 0 →
      produced (lib.producev k topic payload size hdrs).2 = produced k
  size_le : ∀ k hdrs list topic payload size, headers k hdrs = some list →
    (lib.producev k topic payload size hdrs).1 = 0 → size ≤ messageMaxBytes
  headers_destroy : ∀ k hdrs list, headers k hdrs = some list →
    headers (lib.headersDestroy k hdrs) = Function.update (headers k) hdrs none
  produced_destroy : ∀ k hdrs list, headers k hdrs = some list →
    produced (lib.headersDestroy k hdrs) = produced k

/-- What librdkafka returns while a message is produced: the new list, and the error codes. -/
structure ProduceReturns where
  hdrs : Ptr
  sidErr : Int
  typeErr : Int
  err : Int

/-- The message is accepted. -/
def ProduceReturns.accepted (r : ProduceReturns) : Bool :=
  r.sidErr = 0 && r.typeErr = 0 && r.err = 0

/-- A header could not be added. -/
def ProduceReturns.headerFails (r : ProduceReturns) : Bool := r.sidErr ≠ 0 || r.typeErr ≠ 0

/-- An `int` that is passed as a `size_t`. -/
def sizeT (size : Int32) : Nat := (UInt64.ofInt size.toInt).toNat

/-! ## `kafka_dispatcher` -/

namespace RdKafkaProducer

variable {K : Type} (lib : RdKafkaProducer K) (k : K)

/-- `do_produce`. The key is not used. -/
def doProduce (rkt : String) (hdrs : Option Ptr) (payload : List UInt8) (size : Nat) : K :=
  match hdrs with
  | some hdrs =>
    let (err, k) := lib.producev k rkt payload size hdrs
    if err ≠ 0 then lib.headersDestroy k hdrs else k
  | none => k

/-- `kafka_dispatcher::produce`. After an error of `rd_kafka_header_add` it returns, and the list of
headers is not destroyed. -/
def produce (rkt : String) (sid type : String) (buf : List UInt8) (size : Int32) : Option K :=
  let (hdrs, k) := lib.headersNew k
  let (sidErr, k) := lib.headerAdd k hdrs "sid" sid
  if sidErr ≠ 0 then some k
  else
    let (typeErr, k) := lib.headerAdd k hdrs "type" type
    if typeErr ≠ 0 then some k
    -- `buf` is logged as a C string
    else if 0 ∈ buf then some (lib.doProduce k rkt (some hdrs) buf (sizeT size))
    else none

/-- What librdkafka returns to `produce`. A code behind an error is the one that it would return. -/
def returns (rkt : String) (sid type : String) (buf : List UInt8) (size : Int32) :
    ProduceReturns :=
  let (hdrs, k) := lib.headersNew k
  let (sidErr, k) := lib.headerAdd k hdrs "sid" sid
  let (typeErr, k) := lib.headerAdd k hdrs "type" type
  ⟨hdrs, sidErr, typeErr, (lib.producev k rkt buf (sizeT size) hdrs).1⟩

end RdKafkaProducer

/-- `kafka_dispatcher`, with the name of its topic. -/
structure KafkaDispatcher where
  rkt : String

/-- `dispatcher_manager`. -/
structure DispatcherManager where
  dispatcher : Option KafkaDispatcher

namespace DispatcherManager

/-- `dispatcher_manager::dispatcher_manager`. -/
def init : DispatcherManager := ⟨none⟩

/-- `add_dispatcher`. -/
def addDispatcher (_ : DispatcherManager) (p : KafkaDispatcher) : DispatcherManager := ⟨some p⟩

/-- `get_dispatcher`, which throws if there is none. -/
def getDispatcher (m : DispatcherManager) : Option KafkaDispatcher := m.dispatcher

end DispatcherManager

/-- The part of `create_server` that is about the dispatcher. -/
def createDispatcher (m : DispatcherManager) (pid : String) : DispatcherManager :=
  m.addDispatcher ⟨"topic-send-" ++ pid⟩

namespace RdKafkaProducer

variable {K : Type} (lib : RdKafkaProducer K)

/-- `dispatch_message`. Behind the `switch` of `type_to_string` there is nothing to return. -/
def dispatchMessage (k : K) (m : DispatcherManager) (call : DispatchCall) : Option K := do
  -- `data` is logged as a C string, before anything is looked at
  guard (0 ∈ call.data)
  let dispatcher ← m.getDispatcher
  let type ← typeToString call.type
  lib.produce k dispatcher.rkt (toString call.sid.toNat) type call.data (producedSize call.size)

/-- The calls of `dispatch_message`, one after the other. -/
def producer (m : DispatcherManager) : Machine K DispatchCall :=
  ⟨lib.init, fun k call => lib.dispatchMessage k m call⟩

/-- What librdkafka returns to the call. -/
def returnsTo (k : K) (topic : String) (call : DispatchCall) : ProduceReturns :=
  lib.returns k topic (toString call.sid.toNat) ((typeToString call.type).getD "") call.data
    (producedSize call.size)

/-- The calls of a run, each with what librdkafka returned to it. -/
def offeredIn (m : DispatcherManager) (topic : String) (calls : List DispatchCall) :
    List (DispatchCall × ProduceReturns) :=
  (lib.producer m).trace (fun k call => [(call, lib.returnsTo k topic call)]) calls

end RdKafkaProducer

/-! ## What `dispatch_message` does -/

/-- The headers of the message for a call. -/
def messageHeaders (call : DispatchCall) : RdKafkaHeaders :=
  [("sid", cString (utf8Bytes (toString call.sid.toNat))),
    ("type", cString (utf8Bytes ((typeToString call.type).getD "")))]

/-- The message for a call. -/
def messageOf (topic : String) (call : DispatchCall) : ProducedMessage :=
  ⟨topic, messageHeaders call, call.data.take call.size⟩

/-- The process survives the call: its type has a name, and what is logged of it ends with a `NUL`. -/
def Dispatchable (call : DispatchCall) : Prop :=
  (typeToString call.type).isSome = true ∧ 0 ∈ call.data

instance (call : DispatchCall) : Decidable (Dispatchable call) := inferInstanceAs (Decidable (_ ∧ _))

/-- The call is the one for a packet. -/
def DispatchCall.FromPacket (call : DispatchCall) : Prop :=
  ∃ sid pkt, call = dispatchMessage sid pkt

/-! ### Sizes -/

theorem sizeT_eq (size : Int32) : sizeT size = (size.toInt % 2 ^ 64).toNat := by
  rw [sizeT, UInt64.ofInt, UInt64.toNat_ofNat']
  omega

/-- A size that fits into an `int` is passed on as it is. -/
theorem sizeT_producedSize {n : Nat} (h : n < 2 ^ 31) : sizeT (producedSize n) = n := by
  rw [sizeT_eq, producedSize, Int32.toInt_ofNat_of_lt h]
  omega

/-- A size that is below zero as an `int` becomes one that no message may have. -/
theorem sizeT_producedSize_of_wrapped {k : Nat} (hpos : 0 < k) (hle : k ≤ 11) :
    messageMaxBytes < sizeT (producedSize (2 ^ 64 - k)) := by
  have hmax : messageMaxBytes = 1000000000 := rfl
  have hsize : Int32.size = 2 ^ 32 := rfl
  rw [sizeT_eq, producedSize, Int32.toInt_ofNat', Int.bmod_def, hsize]
  split <;> omega

/-- **What is accepted lies inside its packet**, also when the packet is shorter than a frame and the
size of its payload has wrapped. -/
theorem size_le_of_fromPacket {call : DispatchCall} (hcall : call.FromPacket)
    (hle : sizeT (producedSize call.size) ≤ messageMaxBytes) :
    sizeT (producedSize call.size) = call.size ∧ call.size ≤ call.data.length := by
  obtain ⟨sid, pkt, rfl⟩ := hcall
  have hmax : maxSize = 16384 := rfl
  have hdata : pkt.data.length = maxSize - 9 := by
    rw [PacketT.data, List.length_drop, pkt.length_buf]
  have hpacket := sizeofPacket_le pkt
  simp only [Easn.dispatchMessage] at hle ⊢
  rw [hdata]
  by_cases hlong : 11 ≤ sizeofPacket pkt
  · have hsize : sizeofData pkt = sizeofPacket pkt - 11 := by
      unfold sizeofData
      simp only []
      split <;> omega
    rw [hsize] at hle ⊢
    exact ⟨sizeT_producedSize (by omega), by omega⟩
  · have hsize : sizeofData pkt = 2 ^ 64 - (11 - sizeofPacket pkt) := by
      unfold sizeofData
      simp only []
      split <;> omega
    rw [hsize] at hle
    exact absurd hle (Nat.not_le.mpr (sizeT_producedSize_of_wrapped (by omega) (by omega)))

/-! ### The functions -/

namespace RdKafkaProducer

variable {K : Type} {lib : RdKafkaProducer K} {headers : K → Ptr → Option RdKafkaHeaders}
  {produced : K → List ProducedMessage} {k k' : K} {m : DispatcherManager} {topic : String}
  {call : DispatchCall}

/-- A message that is not accepted is forgotten, with its headers. -/
theorem doProduce_spec (hdoc : lib.Documented headers produced) {hdrs : Ptr} {list : RdKafkaHeaders}
    (howned : headers k hdrs = some list) {payload : List UInt8} {size : Nat}
    (hsize : size ≤ messageMaxBytes → size ≤ payload.length) (topic : String) :
    headers (lib.doProduce k topic (some hdrs) payload size) = Function.update (headers k) hdrs none ∧
      produced (lib.doProduce k topic (some hdrs) payload size) = produced k ++
        if (lib.producev k topic payload size hdrs).1 = 0 then [⟨topic, list, payload.take size⟩]
        else [] := by
  have hheaders := hdoc.headers_producev k hdrs list topic payload size howned
  by_cases herr : (lib.producev k topic payload size hdrs).1 = 0
  · have hle := hsize (hdoc.size_le k hdrs list topic payload size howned herr)
    rw [if_pos herr] at hheaders
    simp only [doProduce, herr, ne_eq, not_true_eq_false, if_false]
    refine ⟨hheaders, ?_⟩
    rw [hdoc.produced_producev k hdrs list topic payload size howned hle, if_pos herr, if_pos trivial]
  · rw [if_neg herr] at hheaders
    have hown' : headers (lib.producev k topic payload size hdrs).2 hdrs = some list := by
      rw [hheaders, howned]
    simp only [doProduce, ne_eq, herr, not_false_eq_true, if_true, if_false, List.append_nil]
    rw [hdoc.headers_destroy _ hdrs list hown', hdoc.produced_destroy _ hdrs list hown', hheaders]
    exact ⟨rfl, hdoc.produced_refused k hdrs list topic payload size howned herr⟩

/-- From `k` on the program has made one list of headers and filled it, and has done nothing else. -/
structure Filled (headers : K → Ptr → Option RdKafkaHeaders) (produced : K → List ProducedMessage)
    (k : K) (hdrs : Ptr) (list : RdKafkaHeaders) (k' : K) : Prop where
  fresh : headers k hdrs = none
  headers_eq : headers k' = Function.update (headers k) hdrs (some list)
  produced_eq : produced k' = produced k

namespace Filled

variable {hdrs : Ptr} {list : RdKafkaHeaders}

theorem owned (h : Filled headers produced k hdrs list k') : headers k' hdrs = some list := by
  rw [h.headers_eq, Function.update_self]

theorem new (hdoc : lib.Documented headers produced) (k : K) :
    Filled headers produced k (lib.headersNew k).1 [] (lib.headersNew k).2 :=
  ⟨hdoc.fresh k, hdoc.headers_new k, hdoc.produced_new k⟩

/-- One more header, or an error. -/
theorem add (h : Filled headers produced k hdrs list k') (hdoc : lib.Documented headers produced)
    (name value : String) : Filled headers produced k hdrs
      (if (lib.headerAdd k' hdrs name value).1 = 0 then list ++ [(name, cString (utf8Bytes value))]
      else list) (lib.headerAdd k' hdrs name value).2 where
  fresh := h.fresh
  headers_eq := by
    rw [hdoc.headers_add k' hdrs list name value h.owned, h.headers_eq]
    split
    · rw [Function.update_idem]
    · rfl
  produced_eq := (hdoc.produced_add k' hdrs list name value h.owned).trans h.produced_eq

/-- The list stays behind. -/
theorem isSome_iff (h : Filled headers produced k hdrs list k') (p : Ptr) :
    (headers k' p).isSome = true ↔ (headers k p).isSome = true ∨ p = hdrs := by
  rw [h.headers_eq]
  by_cases hp : p = hdrs
  · simp [hp]
  · simp [hp]

/-- The list is gone behind `do_produce`, whether its message is accepted or not. -/
theorem doProduce (h : Filled headers produced k hdrs list k')
    (hdoc : lib.Documented headers produced) {payload : List UInt8} {size : Nat}
    (hsize : size ≤ messageMaxBytes → size ≤ payload.length) (topic : String) :
    headers (lib.doProduce k' topic (some hdrs) payload size) = headers k ∧
      produced (lib.doProduce k' topic (some hdrs) payload size) = produced k ++
        if (lib.producev k' topic payload size hdrs).1 = 0 then [⟨topic, list, payload.take size⟩]
        else [] := by
  obtain ⟨hforgotten, hproduced⟩ := doProduce_spec hdoc h.owned hsize topic
  refine ⟨?_, by rw [hproduced, h.produced_eq]⟩
  rw [hforgotten, h.headers_eq, Function.update_idem, ← h.fresh, Function.update_eq_self]

end Filled

/-- `produce` and what librdkafka returns to it, step by step. -/
theorem produce_eq (topic : String) {hdrs : Ptr} {k₁ k₂ k₃ : K} {sid type : String}
    {sidErr typeErr : Int} (hnew : lib.headersNew k = (hdrs, k₁))
    (hsid : lib.headerAdd k₁ hdrs "sid" sid = (sidErr, k₂))
    (htype : lib.headerAdd k₂ hdrs "type" type = (typeErr, k₃)) (buf : List UInt8) (size : Int32) :
    lib.produce k topic sid type buf size =
        (if sidErr ≠ 0 then some k₂
        else if typeErr ≠ 0 then some k₃
        else if 0 ∈ buf then some (lib.doProduce k₃ topic (some hdrs) buf (sizeT size))
        else none) ∧
      lib.returns k topic sid type buf size
        = ⟨hdrs, sidErr, typeErr, (lib.producev k₃ topic buf (sizeT size) hdrs).1⟩ := by
  simp [produce, returns, hnew, hsid, htype]

/-- **`produce`**: the list of headers stays behind if a header could not be added, and otherwise is
gone when `produce` returns. -/
theorem produce_spec (hdoc : lib.Documented headers produced) {sid type : String}
    {buf : List UInt8} {size : Int32} (hsize : sizeT size ≤ messageMaxBytes → sizeT size ≤ buf.length)
    (h : lib.produce k topic sid type buf size = some k') :
    (∀ p, (headers k' p).isSome = true ↔ (headers k p).isSome = true ∨
      (lib.returns k topic sid type buf size).headerFails = true ∧
        p = (lib.returns k topic sid type buf size).hdrs) ∧
      (produced k' = produced k ++
        if (lib.returns k topic sid type buf size).accepted then
          [⟨topic, [("sid", cString (utf8Bytes sid)), ("type", cString (utf8Bytes type))],
            buf.take (sizeT size)⟩]
        else []) ∧
      ((lib.returns k topic sid type buf size).accepted = true → sizeT size ≤ messageMaxBytes) := by
  obtain ⟨⟨hdrs, k₁⟩, hnew⟩ : ∃ x, lib.headersNew k = x := ⟨_, rfl⟩
  obtain ⟨⟨sidErr, k₂⟩, hsid⟩ : ∃ x, lib.headerAdd k₁ hdrs "sid" sid = x := ⟨_, rfl⟩
  obtain ⟨⟨typeErr, k₃⟩, htype⟩ : ∃ x, lib.headerAdd k₂ hdrs "type" type = x := ⟨_, rfl⟩
  obtain ⟨hproduce, hreturns⟩ := produce_eq topic hnew hsid htype buf size
  rw [hproduce] at h
  rw [hreturns]
  have hnew' := Filled.new hdoc k
  rw [hnew] at hnew'
  have hsid' := hnew'.add hdoc "sid" sid
  rw [hsid] at hsid'
  by_cases h0 : sidErr = 0
  · have htype' := hsid'.add hdoc "type" type
    rw [htype] at htype'
    rw [if_neg (not_not.mpr h0)] at h
    by_cases h0' : typeErr = 0
    · -- both headers are there
      rw [if_pos h0', if_pos h0] at htype'
      rw [if_neg (not_not.mpr h0'), Option.ite_none_right_eq_some] at h
      obtain rfl := Option.some.inj h.2
      obtain ⟨hsame, hproduced⟩ := htype'.doProduce hdoc hsize topic
      have hle := hdoc.size_le k₃ hdrs _ topic buf (sizeT size) htype'.owned
      rw [hproduced, hsame]
      simpa [ProduceReturns.headerFails, ProduceReturns.accepted, h0, h0'] using hle
    · rw [if_pos h0'] at h
      obtain rfl := Option.some.inj h
      simp [ProduceReturns.headerFails, ProduceReturns.accepted, h0', htype'.isSome_iff,
        htype'.produced_eq]
  · rw [if_pos h0] at h
    obtain rfl := Option.some.inj h
    simp [ProduceReturns.headerFails, ProduceReturns.accepted, h0, hsid'.isSome_iff,
      hsid'.produced_eq]

/-- What a call of `dispatch_message` that is survived has done. -/
theorem exists_of_dispatchMessage (hm : m.dispatcher = some ⟨topic⟩)
    (h : lib.dispatchMessage k m call = some k') :
    ∃ type, typeToString call.type = some type ∧ 0 ∈ call.data ∧
      lib.produce k topic (toString call.sid.toNat) type call.data (producedSize call.size)
        = some k' := by
  have hmanager : m.getDispatcher = some ⟨topic⟩ := hm
  rw [dispatchMessage, hmanager] at h
  obtain ⟨_, hguard, h⟩ := Option.bind_eq_some_iff.mp h
  rw [Option.bind_eq_bind, Option.bind_some] at h
  obtain ⟨type, htype, h⟩ := Option.bind_eq_some_iff.mp h
  exact ⟨type, htype, by simpa using hguard, h⟩

/-- **`dispatch_message`**, which is survived. -/
theorem dispatchMessage_spec (hdoc : lib.Documented headers produced)
    (hm : m.dispatcher = some ⟨topic⟩) (hcall : call.FromPacket)
    (h : lib.dispatchMessage k m call = some k') :
    (∀ p, (headers k' p).isSome = true ↔ (headers k p).isSome = true ∨
      (lib.returnsTo k topic call).headerFails = true ∧ p = (lib.returnsTo k topic call).hdrs) ∧
      produced k' = produced k ++
        if (lib.returnsTo k topic call).accepted then [messageOf topic call] else [] := by
  obtain ⟨type, htype, _, h⟩ := exists_of_dispatchMessage hm h
  have hbound : sizeT (producedSize call.size) ≤ messageMaxBytes →
      sizeT (producedSize call.size) ≤ call.data.length := fun hle => by
    obtain ⟨heq, hlen⟩ := size_le_of_fromPacket hcall hle
    rwa [heq]
  obtain ⟨howned, hproduced, hle⟩ := produce_spec hdoc hbound h
  have hreturns : lib.returnsTo k topic call = lib.returns k topic (toString call.sid.toNat) type
      call.data (producedSize call.size) := by rw [returnsTo, htype, Option.getD_some]
  rw [hreturns, hproduced]
  refine ⟨howned, ?_⟩
  split
  · next hacc =>
    have hsize := (size_le_of_fromPacket hcall (hle hacc)).1
    rw [messageOf, messageHeaders, htype, Option.getD_some, hsize]
  · rfl

/-- A call with a type that has a name and with a `NUL` in its data is survived, if there is a
dispatcher. -/
theorem exists_dispatchMessage (k : K) (hm : m.dispatcher = some ⟨topic⟩)
    (hname : (typeToString call.type).isSome = true) (hdata : 0 ∈ call.data) :
    ∃ k', lib.dispatchMessage k m call = some k' := by
  have hmanager : m.getDispatcher = some ⟨topic⟩ := hm
  obtain ⟨type, htype⟩ := Option.isSome_iff_exists.mp hname
  obtain ⟨⟨hdrs, k₁⟩, hnew⟩ : ∃ x, lib.headersNew k = x := ⟨_, rfl⟩
  obtain ⟨⟨sidErr, k₂⟩, hsid⟩ : ∃ x, lib.headerAdd k₁ hdrs "sid" (toString call.sid.toNat) = x :=
    ⟨_, rfl⟩
  obtain ⟨⟨typeErr, k₃⟩, hadd⟩ : ∃ x, lib.headerAdd k₂ hdrs "type" type = x := ⟨_, rfl⟩
  obtain ⟨hproduce, _⟩ := produce_eq topic hnew hsid hadd call.data (producedSize call.size)
  rw [dispatchMessage, guard, if_pos hdata, hmanager, htype]
  show ∃ k', lib.produce k topic _ type _ _ = some k'
  rw [hproduce, if_pos hdata]
  split
  · exact ⟨_, rfl⟩
  · split <;> exact ⟨_, rfl⟩

end RdKafkaProducer

/-! ## An instance -/

/-- The lists of headers by their number, and the messages that were accepted. -/
structure ProducerState where
  lists : List (Option RdKafkaHeaders)
  produced : List ProducedMessage

namespace ProducerState

def headers (k : ProducerState) (hdrs : Ptr) : Option RdKafkaHeaders := k.lists.getD hdrs none

theorem headers_append (k : ProducerState) : (fun p => (k.lists ++ [some []]).getD p none)
    = Function.update k.headers k.lists.length (some []) := by
  funext p
  by_cases hp : p = k.lists.length
  · simp [hp, List.getD_eq_getElem?_getD]
  · rw [Function.update_of_ne hp, headers, List.getD_eq_getElem?_getD, List.getD_eq_getElem?_getD]
    rcases Nat.lt_or_gt_of_ne hp with hlt | hgt
    · rw [List.getElem?_append_left hlt]
    · rw [List.getElem?_eq_none (by simp; omega), List.getElem?_eq_none (by omega)]

theorem headers_set {k : ProducerState} {hdrs : Ptr} {list : RdKafkaHeaders}
    (h : k.headers hdrs = some list) (new : Option RdKafkaHeaders) :
    (fun p => (k.lists.set hdrs new).getD p none) = Function.update k.headers hdrs new := by
  have hlt : hdrs < k.lists.length := by
    by_contra hge
    rw [headers, List.getD_eq_getElem?_getD, List.getElem?_eq_none (Nat.le_of_not_lt hge)] at h
    simp at h
  funext p
  by_cases hp : p = hdrs
  · subst hp
    rw [Function.update_self, List.getD_eq_getElem?_getD, List.getElem?_set_self hlt,
      Option.getD_some]
  · rw [Function.update_of_ne hp, headers, List.getD_eq_getElem?_getD, List.getD_eq_getElem?_getD,
      List.getElem?_set_ne (Ne.symm hp)]

end ProducerState

/-- A librdkafka that behaves as documented. Its queue has room for one message, so that it refuses
the next one with `RD_KAFKA_RESP_ERR__QUEUE_FULL`. -/
def rdkafkaProducer : RdKafkaProducer ProducerState where
  init := ⟨[], []⟩
  headersNew k := (k.lists.length, { k with lists := k.lists ++ [some []] })
  headerAdd k hdrs name value :=
    (0, { k with
      lists := k.lists.set hdrs ((k.headers hdrs).map (· ++ [(name, cString (utf8Bytes value))])) })
  producev k topic payload size hdrs :=
    if messageMaxBytes < size then (10, k)
    else if k.produced ≠ [] then (-184, k)
    else
      (0,
        { lists := k.lists.set hdrs none
          produced := [⟨topic, (k.headers hdrs).getD [], payload.take size⟩] })
  headersDestroy k hdrs := { k with lists := k.lists.set hdrs none }

theorem documented_rdkafkaProducer :
    rdkafkaProducer.Documented ProducerState.headers ProducerState.produced where
  headers_init _ := rfl
  produced_init := rfl
  fresh k := by simp [rdkafkaProducer, ProducerState.headers, List.getD_eq_getElem?_getD]
  headers_new k := ProducerState.headers_append k
  produced_new _ := rfl
  headers_add k hdrs list name value h := by
    have hset := ProducerState.headers_set h
      ((k.headers hdrs).map (· ++ [(name, cString (utf8Bytes value))]))
    exact hset.trans (by rw [h, Option.map_some]; rfl)
  produced_add _ _ _ _ _ _ := rfl
  headers_producev k hdrs list topic payload size h := by
    have hset := ProducerState.headers_set h none
    simp only [rdkafkaProducer]
    split
    · rfl
    · split
      · rfl
      · exact hset
  produced_producev k hdrs list topic payload size h _ := by
    simp only [rdkafkaProducer]
    split
    · simp
    · split
      · simp
      · next hempty => simp [not_not.mp hempty, h]
  produced_refused k hdrs list topic payload size _ herr := by
    simp only [rdkafkaProducer] at herr ⊢
    split
    · rfl
    · split
      · rfl
      · next hsize hempty => simp [hsize, not_not.mp hempty] at herr
  size_le k hdrs list topic payload size _ herr := by
    simp only [rdkafkaProducer] at herr
    split at herr
    · simp at herr
    · omega
  headers_destroy k hdrs list h := ProducerState.headers_set h none
  produced_destroy _ _ _ _ := rfl

end Easn
