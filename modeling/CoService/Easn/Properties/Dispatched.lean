import CoService.Easn.Properties.Auth

/-!
# What reaches the dispatcher

The frames that a read holds and `handle_packet` accepts are the packets of the callback, and the gate
drops those in front of the first `TYPE_INIT`. `dispatched_turnEvents` says it of one turn of the
session loop, by what the turn reads.
-/

namespace Easn

open Infra

/-- The packets that a read hands to the callback: the frames that are accepted in it. -/
def acceptedPackets (stale : Stale) : ReadResult → List PacketT
  | .ok buf =>
    if buf.bytes.length < packetMinSize then []
    else (((scanner buf).run stale 0).events.filter (scanner buf).accepts).map (received buf)
  | .error _ => []

/-- The packets that are not dropped by a session with the flag: all of them, or those from the
first `TYPE_INIT` on. -/
def authenticated (auth : Int) (pkts : List PacketT) : List PacketT :=
  if auth = 0 then fromInit pkts else pkts

theorem authenticated_cons (auth : Int) (pkt : PacketT) (pkts : List PacketT) :
    authenticated auth (pkt :: pkts) =
      if pkt.type ≠ typeInit ∧ auth = 0 then authenticated auth pkts
      else pkt :: authenticated (if pkt.type = typeInit then 1 else auth) pkts := by
  by_cases hauth : auth = 0
  · by_cases ht : pkt.type = typeInit <;> simp [authenticated, fromInit, hauth, ht]
  · by_cases ht : pkt.type = typeInit <;> simp [authenticated, hauth, ht]

variable {fd : Int} {acceptTimestamp : Int32} {session : EasnConnT}

/-- They are what `handle_packet` hands over. -/
theorem handedOver_eq (fd : Int) (stale : Stale) (read : ReadResult) :
    handedOver fd stale read = acceptedPackets stale read := by
  cases read with
  | error errno => rfl
  | ok buf =>
    rw [handedOver, acceptedPackets, delivered_handlePacket, List.map_map]
    rfl

/-- **What the callback dispatches.** -/
theorem dispatched_onPackets (session : EasnConnT) (pkts : List PacketT) :
    dispatched (onPackets session pkts).2
      = (authenticated session.auth pkts).map (dispatchMessage session.sid) := by
  induction pkts generalizing session with
  | nil => simp [onPackets, dispatched, authenticated, fromInit]
  | cons pkt pkts ih =>
    rw [onPackets, dispatched_append, Gated.dispatched_onPacket, ih, authenticated_cons,
      (onPacket_frame session pkt).1]
    by_cases hc : pkt.type ≠ typeInit ∧ session.auth = 0
    · have hsession : (onPacket session pkt).1 = session := by rw [onPacket, if_pos hc]
      rw [if_pos hc, if_pos hc, hsession]
      rfl
    · have hauth : (onPacket session pkt).1.auth
          = if pkt.type = typeInit then 1 else session.auth := by rw [onPacket, if_neg hc]
      rw [if_neg hc, if_neg hc, hauth]
      rfl

theorem dispatched_afterPoll (fd : Int) (session : EasnConnT) (stale : Stale) (read : ReadResult) :
    dispatched (afterPoll fd session stale read).events
      = (authenticated session.auth (acceptedPackets stale read)).map
        (dispatchMessage session.sid) := by
  have hnone : authenticated session.auth [] = [] := by
    simp [authenticated, fromInit]
  cases read with
  | error errno =>
    rw [acceptedPackets, hnone, afterPoll]
    split_ifs <;> rfl
  | ok buf =>
    have hmin : packetMinSize = 11 := rfl
    rw [← handedOver_eq fd, handedOver, afterPoll]
    by_cases hshort : buf.bytes.length < packetMinSize
    · rw [if_pos hshort, if_pos hshort, hnone]
      split_ifs <;> rfl
    · rw [if_neg hshort, if_pos (by omega), if_neg hshort]
      exact dispatched_onPackets session _

/-- **What one turn dispatches.** -/
theorem dispatched_turnEvents (t : Turn) :
    dispatched (turnEvents fd acceptTimestamp session t) =
      if (beforePoll fd acceptTimestamp t.now session).flow = .again then
        (authenticated session.auth (acceptedPackets t.stale t.read)).map
          (dispatchMessage session.sid)
      else [] := by
  have hquiet : dispatched (beforePoll fd acceptTimestamp t.now session).events = [] := by
    rcases events_beforePoll fd acceptTimestamp t.now session with ⟨left, he, _⟩ | ⟨he, _⟩ <;>
      rw [he] <;> rfl
  rw [turnEvents, dispatched_append, hquiet, List.nil_append]
  split
  · exact dispatched_afterPoll fd session t.stale t.read
  · rfl

end Easn
