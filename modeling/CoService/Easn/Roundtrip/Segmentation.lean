import CoService.Easn.Roundtrip.Stream
import CoService.Easn.Session

/-!
# Frames over several reads

The session loop keeps nothing of one read for the next: a read of fewer than 11 bytes is only
logged, and a frame that two reads share reaches `handle_packet` in two pieces. So what is
dispatched depends on how the stream was cut (`not_dispatched_of_cut`).

As long as every read holds whole frames, the messages are dispatched in order, each once
(`dispatched_of_frameReads`). The induction is on the turns of the loop.
-/

namespace Easn

open Infra

/-- A call of `dispatch_message` for the message. -/
structure DispatchCall.Carries (sid : UInt64) (call : DispatchCall) (m : Message) : Prop where
  sid : call.sid = sid
  type : call.type = m.type
  size : call.size = m.payload.length
  data : call.data.take call.size = m.payload

/-- What a turn of the loop reads: whole frames, at least one, or nothing yet. -/
def Turn.ReadsFrames (t : Turn) (msgs : List Message) : Prop :=
  (t.read = .error eagain ∧ msgs = []) ∨
    ∃ buf, t.read = .ok buf ∧ msgs ≠ [] ∧ buf.bytes = msgs.flatMap encode

/-! ## One read -/

theorem deliversAll_frames (fd : Int) (stale : Stale) {buf : ReadBuf} {msgs : List Message}
    (hbuf : buf.bytes = msgs.flatMap encode) : DeliversAll (handlePacket fd stale buf 0) msgs := by
  obtain ⟨hreturned, hframes⟩ := visits_flatMap hbuf stale
  exact deliversAll_of_finds hreturned (hframes.imp fun _ _ h => h.finds)

/-- A read of whole frames is long enough to be looked at. -/
theorem packetMinSize_le_length {msgs : List Message} (h : msgs ≠ []) :
    packetMinSize ≤ (msgs.flatMap encode).length := by
  obtain ⟨m, rest, rfl⟩ := List.exists_cons_of_ne_nil h
  have hsize := size_pos m
  rw [List.flatMap_cons, List.length_append, length_encode]
  show 11 ≤ _
  omega

section authenticated

variable {session : EasnConnT}

/-- An authenticated session dispatches every packet and stays authenticated. -/
theorem onPacket_of_auth (h : session.auth ≠ 0) (pkt : PacketT) :
    (onPacket session pkt).1.auth ≠ 0 ∧
      dispatched (onPacket session pkt).2 = [dispatchMessage session.sid pkt] := by
  unfold onPacket
  rw [if_neg (fun hc => h hc.2)]
  refine ⟨?_, rfl⟩
  simp only []
  split
  · decide
  · exact h

theorem onPackets_of_auth (h : session.auth ≠ 0) (pkts : List PacketT) :
    (onPackets session pkts).1.auth ≠ 0 ∧
      dispatched (onPackets session pkts).2 = pkts.map (dispatchMessage session.sid) := by
  induction pkts generalizing session with
  | nil => exact ⟨h, rfl⟩
  | cons pkt pkts ih =>
    obtain ⟨hauth, hdisp⟩ := onPacket_of_auth h pkt
    obtain ⟨hauth', hdisp'⟩ := ih hauth
    refine ⟨hauth', ?_⟩
    rw [onPackets, dispatched_append, hdisp, hdisp', (onPacket_frame session pkt).1]
    rfl

/-- The call for a packet carries what the packet carries. -/
theorem carries_dispatchMessage {pkt : PacketT} {m : Message} (h : Carries pkt m) (sid : UInt64) :
    (dispatchMessage sid pkt).Carries sid m := by
  constructor <;> simp only [dispatchMessage]
  · exact h.type
  · exact h.size
  · exact h.payload

theorem carries_dispatchMessages {sid : UInt64} {pkts : List PacketT} {msgs : List Message}
    (h : List.Forall₂ Carries pkts msgs) :
    List.Forall₂ (DispatchCall.Carries sid) (pkts.map (dispatchMessage sid)) msgs := by
  induction h with
  | nil => exact List.Forall₂.nil
  | cons hc _ ih => exact List.Forall₂.cons (carries_dispatchMessage hc sid) ih

/-- Where an authenticated session stands after a turn that read the messages. -/
structure Dispatches (o o' : Outcome) (msgs : List Message) : Prop where
  flow : o'.flow = .again
  auth : o'.session.auth ≠ 0
  sid : o'.session.sid = o.session.sid
  calls : ∃ calls, dispatched o'.events = dispatched o.events ++ calls ∧
    List.Forall₂ (DispatchCall.Carries o.session.sid) calls msgs

/-- **One turn of an authenticated session.** -/
theorem dispatches_turn {o : Outcome} (hflow : o.flow = .again) (hauth : o.session.auth ≠ 0)
    (fd : Int) (acceptTimestamp : Int32) {t : Turn} {msgs : List Message}
    (h : t.ReadsFrames msgs) : Dispatches o (o.turn fd acceptTimestamp t) msgs := by
  have hturn : o.turn fd acceptTimestamp t =
      ⟨(afterPoll fd o.session t.stale t.read).session,
        o.events ++ [.poll (-1)] ++ (afterPoll fd o.session t.stale t.read).events,
        (afterPoll fd o.session t.stale t.read).flow⟩ := by
    rw [Outcome.turn, hflow, beforePoll, if_neg hauth]
  rw [hturn]
  rcases h with ⟨hread, rfl⟩ | ⟨buf, hread, hne, hbuf⟩
  · have hafter : afterPoll fd o.session t.stale t.read = ⟨o.session, [], .again⟩ := by
      rw [hread, afterPoll, if_pos rfl, if_pos hauth]
    rw [hafter]
    refine ⟨rfl, hauth, rfl, [], ?_, List.Forall₂.nil⟩
    rw [List.append_nil, dispatched_append]
    rfl
  · have hmin := packetMinSize_le_length hne
    rw [← hbuf] at hmin
    have hdel := deliversAll_frames fd t.stale hbuf
    obtain ⟨hauth', hdisp⟩ := onPackets_of_auth hauth
      ((delivered (handlePacket fd t.stale buf 0)).map Prod.snd)
    have hpos : 0 < buf.bytes.length := Nat.lt_of_lt_of_le (by decide) hmin
    have hafter : afterPoll fd o.session t.stale t.read =
        ⟨(onPackets o.session ((delivered (handlePacket fd t.stale buf 0)).map Prod.snd)).1,
          (onPackets o.session ((delivered (handlePacket fd t.stale buf 0)).map Prod.snd)).2,
          .again⟩ := by
      rw [hread, afterPoll, if_pos hpos, if_neg (Nat.not_lt.mpr hmin)]
      simp only [hdel.returned, if_true]
    rw [hafter]
    refine ⟨rfl, hauth', (onPackets_frame _ _).1, _, ?_, carries_dispatchMessages hdel.delivered⟩
    simp only []
    rw [dispatched_append, dispatched_append, hdisp]
    simp [dispatched]

theorem dispatches_turns {turns : List Turn} {groups : List (List Message)}
    (h : List.Forall₂ Turn.ReadsFrames turns groups) (fd : Int) (acceptTimestamp : Int32)
    {o : Outcome} (hflow : o.flow = .again) (hauth : o.session.auth ≠ 0) :
    Dispatches o (turns.foldl (Outcome.turn fd acceptTimestamp) o) groups.flatten := by
  induction h generalizing o with
  | nil => exact ⟨hflow, hauth, rfl, [], by simp, List.Forall₂.nil⟩
  | cons ht _ ih =>
    have hd := dispatches_turn hflow hauth fd acceptTimestamp ht
    obtain ⟨calls, hcalls, hcarry⟩ := hd.calls
    have hrest := ih hd.flow hd.auth
    obtain ⟨calls', hcalls', hcarry'⟩ := hrest.calls
    refine ⟨hrest.flow, hrest.auth, hrest.sid.trans hd.sid, calls ++ calls', ?_, ?_⟩
    · rw [List.foldl_cons, hcalls', hcalls, List.append_assoc]
    · rw [hd.sid] at hcarry'
      rw [List.flatten_cons]
      exact List.rel_append hcarry hcarry'

end authenticated

/-! ## The whole stream -/

/-- **The messages of an authenticated session are dispatched in order, each once**, if every read
holds whole frames. -/
theorem dispatched_of_frameReads (fd : Int) (acceptTimestamp : Int32) (session : EasnConnT)
    (hauth : session.auth ≠ 0) (turns : List Turn) (groups : List (List Message))
    (h : List.Forall₂ Turn.ReadsFrames turns groups) :
    List.Forall₂ (DispatchCall.Carries session.sid)
      (dispatched (sessionLoop fd acceptTimestamp session turns).events) groups.flatten := by
  have hd := dispatches_turns h fd acceptTimestamp (o := ⟨session, [], .again⟩) rfl hauth
  obtain ⟨calls, hcalls, hcarry⟩ := hd.calls
  rw [sessionLoop, hcalls]
  exact hcarry

/-- Three messages in two reads. -/
theorem dispatched_of_frameReads_twoReads :
    List.Forall₂ (DispatchCall.Carries 7)
      (dispatched (sessionLoop 5 0 ⟨7, 5, 1⟩
        [⟨0, zeroStale, .ok ⟨[⟨2, 1, [0xaa, 0x55]⟩, ⟨3, 2, []⟩].flatMap encode, by decide +kernel⟩⟩,
          ⟨0, zeroStale, .error eagain⟩,
          ⟨0, zeroStale, .ok ⟨[⟨2, 3, [0x00]⟩].flatMap encode, by decide +kernel⟩⟩]).events)
      [⟨2, 1, [0xaa, 0x55]⟩, ⟨3, 2, []⟩, ⟨2, 3, [0x00]⟩] :=
  dispatched_of_frameReads 5 0 ⟨7, 5, 1⟩ (by decide) _
    [[⟨2, 1, [0xaa, 0x55]⟩, ⟨3, 2, []⟩], [], [⟨2, 3, [0x00]⟩]]
    (.cons (.inr ⟨_, rfl, by simp, rfl⟩)
      (.cons (.inl ⟨rfl, rfl⟩) (.cons (.inr ⟨_, rfl, by simp, rfl⟩) .nil)))

/-- A frame of 12 bytes that arrives in two reads of 6 is not dispatched. -/
theorem not_dispatched_of_cut :
    ¬ ∀ (fd : Int) (acceptTimestamp : Int32) (session : EasnConnT) (turns : List Turn)
      (bufs : List ReadBuf) (msgs : List Message), session.auth = 1 →
      (∀ m ∈ msgs, m.size ≤ maxSize) → turns.map Turn.read = bufs.map ReadResult.ok →
      (∀ buf ∈ bufs, buf.bytes ≠ []) → bufs.flatMap ReadBuf.bytes = msgs.flatMap encode →
      List.Forall₂ (DispatchCall.Carries session.sid)
        (dispatched (sessionLoop fd acceptTimestamp session turns).events) msgs := by
  intro h
  let m : Message := ⟨2, 1, [0x00]⟩
  let first : ReadBuf := ⟨(encode m).take 6, by decide +kernel⟩
  let second : ReadBuf := ⟨(encode m).drop 6, by decide +kernel⟩
  have hcut := h 5 0 ⟨7, 5, 1⟩ [⟨0, zeroStale, .ok first⟩, ⟨0, zeroStale, .ok second⟩]
    [first, second] [m] rfl (by decide +kernel) rfl (by decide +kernel) (by decide +kernel)
  have hlen := hcut.length_eq
  revert hlen
  decide +kernel

end Easn
