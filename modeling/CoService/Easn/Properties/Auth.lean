import CoService.Easn.Session
import Mathlib.Data.List.Induction
import Mathlib.Data.List.TakeWhile

/-!
# The authentication gate

A session begins without authentication. Until a packet of type `TYPE_INIT` arrives, the callback
drops every packet. From that packet on everything is dispatched.

The flag is read and written between any two packets, so the invariant `Gated` relates it to the
packets seen so far, and `Gated.onPacket` says that one packet keeps it. `packets_sessionLoop` says
that the callback sees what `handle_packet` hands over, and the theorem `authGate` puts both together
for whole sessions.
-/

namespace Easn

open Infra

/-- The flag of a session that got these packets. -/
def authAfter (pkts : List PacketT) : Int :=
  if ∀ pkt ∈ pkts, pkt.type ≠ typeInit then 0 else 1

/-- The packets from the first `TYPE_INIT` on. -/
def fromInit (pkts : List PacketT) : List PacketT :=
  pkts.dropWhile fun pkt => pkt.type ≠ typeInit

theorem authAfter_eq_zero_iff {pkts : List PacketT} :
    authAfter pkts = 0 ↔ ∀ pkt ∈ pkts, pkt.type ≠ typeInit := by
  unfold authAfter
  split
  · next h => exact iff_of_true rfl h
  · next h => exact iff_of_false (by decide) h

theorem authAfter_eq_one_iff {pkts : List PacketT} :
    authAfter pkts = 1 ↔ ∃ pkt ∈ pkts, pkt.type = typeInit := by
  unfold authAfter
  split
  · next h => exact iff_of_false (by decide) (fun ⟨pkt, hp, ht⟩ => h pkt hp ht)
  · next h => exact iff_of_true rfl (by simpa using h)

/-- The flag stays set when more packets come. -/
theorem authAfter_append {pkts : List PacketT} (h : authAfter pkts = 1) (more : List PacketT) :
    authAfter (pkts ++ more) = 1 := by
  obtain ⟨pkt, hp, ht⟩ := authAfter_eq_one_iff.mp h
  exact authAfter_eq_one_iff.mpr ⟨pkt, List.mem_append_left _ hp, ht⟩

theorem fromInit_eq_nil_iff {pkts : List PacketT} :
    fromInit pkts = [] ↔ ∀ pkt ∈ pkts, pkt.type ≠ typeInit := by
  simp [fromInit, List.dropWhile_eq_nil_iff]

/-- One more packet is dispatched if it is a `TYPE_INIT` or one came before. -/
theorem fromInit_append_singleton (pkts : List PacketT) (pkt : PacketT) :
    fromInit (pkts ++ [pkt]) =
      fromInit pkts ++ if pkt.type ≠ typeInit ∧ authAfter pkts = 0 then [] else [pkt] := by
  have happend : fromInit (pkts ++ [pkt])
      = if fromInit pkts = [] then fromInit [pkt] else fromInit pkts ++ [pkt] := by
    rw [fromInit, List.dropWhile_append, fromInit]
    split
    · next h => rw [if_pos (by simpa using h), fromInit]
    · next h => rw [if_neg (by simpa using h)]
  have hnil : fromInit pkts = [] ↔ authAfter pkts = 0 :=
    fromInit_eq_nil_iff.trans authAfter_eq_zero_iff.symm
  rw [happend]
  by_cases hall : authAfter pkts = 0
  · rw [if_pos (hnil.mpr hall), hnil.mpr hall]
    by_cases ht : pkt.type = typeInit <;> simp [fromInit, ht, hall]
  · rw [if_neg (fun h => hall (hnil.mp h)), if_neg (fun h => hall h.2)]

/-! ## The invariant -/

/-- What is dispatched and what the flag says follow from the packets handed over. -/
structure Gated (sid : UInt64) (session : EasnConnT) (events : List SessionEvent) : Prop where
  session_sid : session.sid = sid
  auth : session.auth = authAfter ((packets events).map Prod.fst)
  dispatched : dispatched events
    = (fromInit ((packets events).map Prod.fst)).map (dispatchMessage sid)
  flags : ∀ before x, before ++ [x] <+: packets events →
    x.2 = authAfter ((before ++ [x]).map Prod.fst)

namespace Gated

variable {sid : UInt64} {session : EasnConnT} {events : List SessionEvent}

theorem init (sid : UInt64) (fd : Int) : Gated sid (.init sid fd) [] where
  session_sid := rfl
  auth := rfl
  dispatched := rfl
  flags before x h := by simp [packets] at h

/-- Waiting and closing change nothing. -/
theorem append_quiet (h : Gated sid session events) {es : List SessionEvent}
    (hp : packets es = []) (hd : Easn.dispatched es = []) : Gated sid session (events ++ es) := by
  have hpackets : packets (events ++ es) = packets events := by
    rw [packets_append, hp, List.append_nil]
  refine ⟨h.session_sid, ?_, ?_, ?_⟩
  · rw [hpackets]
    exact h.auth
  · rw [hpackets, dispatched_append, hd, List.append_nil]
    exact h.dispatched
  · rw [hpackets]
    exact h.flags

/-- The callback sets the flag to what the packets so far demand. -/
theorem auth_onPacket (h : Gated sid session events) (pkt : PacketT) :
    (onPacket session pkt).1.auth
      = authAfter ((packets events).map Prod.fst ++ [pkt]) := by
  unfold onPacket
  split
  · next hc =>
    have hnone := authAfter_eq_zero_iff.mp (h.auth.symm.trans hc.2)
    rw [hc.2, eq_comm, authAfter_eq_zero_iff]
    intro p hp
    rcases List.mem_append.mp hp with hp | hp
    · exact hnone p hp
    · rw [List.mem_singleton.mp hp]
      exact hc.1
  · next hc =>
    simp only []
    rw [eq_comm]
    split
    · next ht => exact authAfter_eq_one_iff.mpr ⟨pkt, by simp, ht⟩
    · next ht =>
      have hne : session.auth ≠ 0 := fun h0 => hc ⟨ht, h0⟩
      have hone : authAfter ((packets events).map Prod.fst) = 1 := by
        have hauth := h.auth
        unfold authAfter at hauth ⊢
        split at hauth <;> simp_all
      rw [authAfter_append hone, h.auth, hone]

theorem packets_onPacket (session : EasnConnT) (pkt : PacketT) :
    packets (onPacket session pkt).2 = [(pkt, (onPacket session pkt).1.auth)] := by
  unfold onPacket
  split <;> rfl

theorem dispatched_onPacket (session : EasnConnT) (pkt : PacketT) :
    Easn.dispatched (onPacket session pkt).2 =
      (if pkt.type ≠ typeInit ∧ session.auth = 0 then [] else [pkt]).map
        (dispatchMessage session.sid) := by
  unfold onPacket
  split <;> rfl

/-- **One packet keeps the gate.** -/
theorem onPacket (h : Gated sid session events) (pkt : PacketT) :
    Gated sid (onPacket session pkt).1 (events ++ (Easn.onPacket session pkt).2) := by
  have hpackets : packets (events ++ (Easn.onPacket session pkt).2)
      = packets events ++ [(pkt, (Easn.onPacket session pkt).1.auth)] := by
    rw [packets_append, packets_onPacket]
  have hmap : (packets (events ++ (Easn.onPacket session pkt).2)).map Prod.fst
      = (packets events).map Prod.fst ++ [pkt] := by
    rw [hpackets, List.map_append]
    rfl
  refine ⟨?_, ?_, ?_, ?_⟩
  · rw [← h.session_sid, Easn.onPacket]
    split <;> rfl
  · rw [hmap]
    exact h.auth_onPacket pkt
  · rw [hmap, dispatched_append, dispatched_onPacket, h.dispatched, fromInit_append_singleton,
      List.map_append, h.session_sid, h.auth]
  · intro before x hpre
    rw [hpackets] at hpre
    rcases List.prefix_concat_iff.mp hpre with heq | hpre
    · obtain ⟨rfl, hx⟩ := List.append_inj' heq rfl
      obtain rfl : x = (pkt, (Easn.onPacket session pkt).1.auth) := by simpa using hx
      rw [List.map_append]
      exact h.auth_onPacket pkt
    · exact h.flags before x hpre

theorem onPackets (h : Gated sid session events) (pkts : List PacketT) :
    Gated sid (onPackets session pkts).1 (events ++ (Easn.onPackets session pkts).2) := by
  induction pkts generalizing session events with
  | nil => simpa [Easn.onPackets] using h
  | cons pkt pkts ih =>
    have hrest := ih (h.onPacket pkt)
    rwa [List.append_assoc] at hrest

/-- One time through the loop body. -/
theorem turn {o : Outcome} (h : Gated sid o.session o.events) (fd : Int) (acceptTimestamp : Int32)
    (t : Turn) :
    Gated sid (o.turn fd acceptTimestamp t).session (o.turn fd acceptTimestamp t).events := by
  unfold Outcome.turn
  split
  · have hwait : Gated sid o.session
        (o.events ++ (beforePoll fd acceptTimestamp t.now o.session).events) := by
      rcases events_beforePoll fd acceptTimestamp t.now o.session with ⟨left, he, _⟩ | ⟨he, _⟩ <;>
        exact h.append_quiet (by rw [he]; rfl) (by rw [he]; rfl)
    simp only [session_beforePoll]
    split
    · rcases afterPoll_cases fd o.session t.stale t.read with ⟨pkts, hs, he, _⟩ | ⟨hs, he, _⟩
      · rw [hs, he]
        exact hwait.onPackets pkts
      · rw [hs, he]
        exact hwait.append_quiet rfl rfl
    · exact hwait
  · exact h

end Gated

theorem gated_sessionLoop (sid : UInt64) (fd : Int) (acceptTimestamp : Int32)
    (turns : List Turn) :
    Gated sid (sessionLoop fd acceptTimestamp (.init sid fd) turns).session
      (sessionLoop fd acceptTimestamp (.init sid fd) turns).events := by
  induction turns using List.reverseRecOn with
  | nil => exact Gated.init sid fd
  | append_singleton turns t ih =>
    rw [sessionLoop, List.foldl_append]
    exact ih.turn fd acceptTimestamp t

/-! ## What `handle_packet` hands over -/

/-- The packets that `handle_packet` hands to the callback for a read. It is not called for fewer bytes
than a frame has. -/
def handedOver (fd : Int) (stale : Stale) : ReadResult → List PacketT
  | .ok buf =>
    if buf.bytes.length < packetMinSize then []
    else (delivered (handlePacket fd stale buf 0)).map Prod.snd
  | .error _ => []

/-- The packets that `handle_packet` hands to the callback over a whole session: turn by turn, as long
as the loop goes on. -/
def handedOverIn (fd : Int) (acceptTimestamp : Int32) (session : EasnConnT) :
    List Turn → List PacketT
  | [] => []
  | t :: turns =>
    let o := sessionLoop fd acceptTimestamp session [t]
    (if (beforePoll fd acceptTimestamp t.now session).flow = .again then
        handedOver fd t.stale t.read
      else []) ++
      if o.flow = .again then handedOverIn fd acceptTimestamp o.session turns else []

/-- The callback gets the packets it is called with. -/
theorem packets_onPackets (session : EasnConnT) (pkts : List PacketT) :
    (packets (onPackets session pkts).2).map Prod.fst = pkts := by
  induction pkts generalizing session with
  | nil => rfl
  | cons pkt pkts ih =>
    rw [onPackets, packets_append, Gated.packets_onPacket, List.map_append, ih]
    rfl

/-- The callback gets what `handle_packet` hands over. -/
theorem packets_afterPoll (fd : Int) (session : EasnConnT) (stale : Stale) (read : ReadResult) :
    (packets (afterPoll fd session stale read).events).map Prod.fst = handedOver fd stale read := by
  cases read with
  | error errno =>
    rw [handedOver, afterPoll]
    split_ifs <;> rfl
  | ok buf =>
    have hmin : packetMinSize = 11 := rfl
    rw [handedOver, afterPoll]
    by_cases hshort : buf.bytes.length < packetMinSize
    · rw [if_pos hshort, if_pos hshort]
      split_ifs <;> rfl
    · rw [if_neg hshort, if_neg hshort, if_pos (by omega)]
      exact packets_onPackets session _

/-- Waiting hands nothing to the callback. -/
theorem packets_beforePoll (fd : Int) (acceptTimestamp : Int32) (now : Int)
    (session : EasnConnT) : packets (beforePoll fd acceptTimestamp now session).events = [] := by
  rcases events_beforePoll fd acceptTimestamp now session with ⟨left, he, _⟩ | ⟨he, _⟩ <;>
    rw [he] <;> rfl

theorem packets_turnEvents (fd : Int) (acceptTimestamp : Int32) (session : EasnConnT) (t : Turn) :
    (packets (turnEvents fd acceptTimestamp session t)).map Prod.fst =
      if (beforePoll fd acceptTimestamp t.now session).flow = .again then
        handedOver fd t.stale t.read
      else [] := by
  rw [turnEvents, packets_append, packets_beforePoll, List.nil_append]
  split
  · exact packets_afterPoll fd session t.stale t.read
  · rfl

/-- **Over a whole session the callback gets what `handle_packet` hands over**, once and in order. -/
theorem packets_sessionLoop (fd : Int) (acceptTimestamp : Int32) (start : EasnConnT)
    (turns : List Turn) :
    (packets (sessionLoop fd acceptTimestamp start turns).events).map Prod.fst
      = handedOverIn fd acceptTimestamp start turns := by
  induction turns generalizing start with
  | nil => rfl
  | cons t turns ih =>
    have hfirst := packets_turnEvents fd acceptTimestamp start t
    rw [← events_sessionLoop_singleton] at hfirst
    rw [sessionLoop_cons, handedOverIn]
    simp only []
    split
    · rw [Outcome.behind, packets_append, List.map_append, hfirst, ih]
    · rw [hfirst, List.append_nil]

/-! ## The gate -/

/-- `handed` is what `handle_packet` hands to the callback. What reaches `dispatch_message` is this
without the packets before the first `TYPE_INIT`. The flag is 0 as long as there was none, after every
packet and at the end, and it does not fall back. -/
structure AuthGate (sid : UInt64) (handed : List PacketT) (o : Outcome) : Prop where
  handed_eq : (packets o.events).map Prod.fst = handed
  dispatched : Easn.dispatched o.events =
    (handed.dropWhile fun pkt => pkt.type ≠ typeInit).map (dispatchMessage sid)
  auth : o.session.auth = 0 ↔ ∀ x ∈ packets o.events, x.1.type ≠ typeInit
  flags : ∀ before x, before ++ [x] <+: packets o.events →
    (x.2 = 0 ↔ ∀ y ∈ before ++ [x], y.1.type ≠ typeInit)
  stays : ∀ before x, before ++ [x] <+: packets o.events → ∀ y ∈ before, y.2 = 1 → x.2 = 1
  last : ∀ x ∈ packets o.events, x.2 = 1 → o.session.auth = 1

/-- Once a packet left the flag set, the packets up to any later point demand it. -/
theorem Gated.authAfter_of_mem {sid : UInt64} {session : EasnConnT} {events : List SessionEvent}
    (h : Gated sid session events) {before : List (PacketT × Int)}
    (hpre : before <+: packets events) {y : PacketT × Int} (hy : y ∈ before) (hone : y.2 = 1) :
    authAfter (before.map Prod.fst) = 1 := by
  obtain ⟨b₁, b₂, rfl⟩ := List.append_of_mem hy
  rw [List.append_cons] at hpre ⊢
  rw [h.flags b₁ y ((List.prefix_append _ b₂).trans hpre)] at hone
  rw [List.map_append]
  exact authAfter_append hone _

theorem Gated.toAuthGate {sid : UInt64} {o : Outcome} (h : Gated sid o.session o.events) :
    AuthGate sid ((packets o.events).map Prod.fst) o where
  handed_eq := rfl
  dispatched := h.dispatched
  auth := by rw [h.auth, authAfter_eq_zero_iff, List.forall_mem_map]
  flags before x hpre := by
    rw [h.flags before x hpre, authAfter_eq_zero_iff, List.forall_mem_map]
  stays before x hpre y hy hone := by
    have hbefore := h.authAfter_of_mem ((List.prefix_append before [x]).trans hpre) hy hone
    rw [h.flags before x hpre, List.map_append]
    exact authAfter_append hbefore _
  last x hx hone := h.auth.trans (h.authAfter_of_mem (List.prefix_refl _) hx hone)

/-- The gate of a session that the loop was started with. -/
theorem authGate_sessionLoop (sid : UInt64) (fd : Int) (acceptTimestamp : Int32)
    (turns : List Turn) :
    AuthGate sid (handedOverIn fd acceptTimestamp (.init sid fd) turns)
      (sessionLoop fd acceptTimestamp (.init sid fd) turns) := by
  rw [← packets_sessionLoop]
  exact (gated_sessionLoop sid fd acceptTimestamp turns).toAuthGate

/-- **The authentication gate, over whole sessions.** The session is as `new_connection` left it,
and the turns may read anything. -/
theorem authGate (tv : Timeval) (fd : Int) (acceptTimestamp : Int32) (turns : List Turn) :
    AuthGate (timestamp tv) (handedOverIn fd acceptTimestamp (.init (timestamp tv) fd) turns)
      (sessionLoop fd acceptTimestamp (.init (timestamp tv) fd) turns) :=
  authGate_sessionLoop _ fd acceptTimestamp turns

end Easn
