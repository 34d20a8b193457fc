import CoService.Easn.Properties.Dispatched
import CoService.Easn.Properties.PayloadSize
import CoService.Easn.Roundtrip.Message

/-!
# The types that reach the dispatcher

`dispatch_message` turns the type of a packet into a string, and `type_to_string` has strings for
four of the 256 types. Nothing between the read and the call looks at the type of an authenticated
client's packet.

`knownTypes_iff` says which reads get a type without a string to the dispatcher, with any bytes in
`rece_ptk`. The condition follows the scan through the received bytes and carries the flag of the
session along:

* `LeavesFlag`, `MeetsUnknown` — what the calls of `handle_packet` for one read may do
* `TurnLeavesFlag`, `SessionMeetsUnknown` — the same, read after read

As in `Reach`, the inductions are on the calls in one direction and on the derivations in the other.
-/

namespace Easn

open Infra

/-- `type_to_string` has a string for the type. -/
def HasName (type : UInt8) : Prop := 1 ≤ type ∧ type ≤ 4

instance (type : UInt8) : Decidable (HasName type) := inferInstanceAs (Decidable (_ ∧ _))

theorem typeToString_isSome_iff_hasName {type : UInt8} :
    (typeToString type).isSome = true ↔ HasName type := by
  rw [typeToString_isSome_iff, HasName, typeInit, typeReport, typeSwitch, typeIpChange]
  simp only [← UInt8.toNat_inj, UInt8.le_iff_toNat_le]
  have hlt := type.toNat_lt
  simp only [UInt8.reduceToNat]
  omega

/-! ## The flag -/

/-- `session->auth` behind a packet of the type. -/
def flagBehind (auth : Int) (type : UInt8) : Int := if type = typeInit then 1 else auth

/-- A packet with a type that has no name comes while the flag is set. -/
def UnknownAmong (auth : Int) : List UInt8 → Prop
  | [] => False
  | type :: types => (auth ≠ 0 ∧ ¬ HasName type) ∨ UnknownAmong (flagBehind auth type) types

theorem unknownAmong_append (auth : Int) (types types' : List UInt8) :
    UnknownAmong auth (types ++ types') ↔
      UnknownAmong auth types ∨ UnknownAmong (types.foldl flagBehind auth) types' := by
  induction types generalizing auth with
  | nil => simp [UnknownAmong]
  | cons type types ih => simp only [List.cons_append, UnknownAmong, ih, List.foldl_cons, or_assoc]

/-- **What is dispatched under an unknown type.** -/
theorem unknownAmong_iff (auth : Int) (pkts : List PacketT) :
    UnknownAmong auth (pkts.map PacketT.type) ↔
      ∃ pkt ∈ authenticated auth pkts, ¬ HasName pkt.type := by
  induction pkts generalizing auth with
  | nil => simp [UnknownAmong, authenticated, fromInit]
  | cons pkt pkts ih =>
    rw [List.map_cons, UnknownAmong, ih, authenticated_cons, flagBehind]
    have hinit : HasName typeInit := by decide
    by_cases hauth : auth = 0 <;> by_cases ht : pkt.type = typeInit <;>
      simp [hauth, ht, hinit]

theorem auth_onPackets (session : EasnConnT) (pkts : List PacketT) :
    (onPackets session pkts).1.auth = (pkts.map PacketT.type).foldl flagBehind session.auth := by
  induction pkts generalizing session with
  | nil => rfl
  | cons pkt pkts ih =>
    have hone : (onPacket session pkt).1.auth = flagBehind session.auth pkt.type := by
      unfold onPacket flagBehind
      split
      · next hc => rw [if_neg hc.1]
      · rfl
    rw [List.map_cons, List.foldl_cons, ← hone]
    exact ih (onPacket session pkt).1

/-! ## One header -/

/-- The frame at `start` lies in the received bytes with a size that its length field leaves open, and
`ok` is the verdict on it. -/
def Inside (buf : ReadBuf) (start size : Nat) (ok : Bool) : Prop :=
  (∃ n, MayDeclare buf start n ∧ min n maxSize = size) ∧ size ≤ buf.bytes.length - start ∧
    checkCrc ((buf.bytes.drop start).take size) size = some ok

variable {buf : ReadBuf} {stale : Stale} {pos s size : Nat} {ok : Bool} {type : UInt8}
  {auth auth' : Int}

/-- **A frame lies in the received bytes, or reaches over their end.** -/
theorem look_cases (hv : ((scanner buf).look stale s).verdict = some ok) :
    Inside buf s ((scanner buf).look stale s).size ok ∨
      (buf.bytes.length - s < ((scanner buf).look stale s).size ∧ ¬ Whole buf s ∧
        (ok = true → Completable buf s)) := by
  by_cases hin : ((scanner buf).look stale s).size ≤ buf.bytes.length - s
  · left
    rw [scanner_verdict, ← scanner_size, checkCrc_recePtk (stale []) hin] at hv
    exact ⟨⟨_, mayDeclare_iff.mpr ⟨stale [], rfl⟩, (sizeofPacket_eq_min _).symm⟩, hin, hv⟩
  · have hw : ¬ Whole buf s := by
      intro hw
      rw [look_whole hw] at hin
      exact hin hw.2
    refine Or.inr ⟨Nat.lt_of_not_le hin, hw, ?_⟩
    rintro rfl
    exact completable_of_accepts hw hv

/-- A size that was left open is found in some `rece_ptk`. -/
theorem Inside.exists_look (h : Inside buf s size ok) :
    ∃ prior, ∀ resync next, (scanner buf).look (.join prior resync next) s = ⟨size, some ok⟩ := by
  obtain ⟨⟨n, hn, rfl⟩, hin, hcrc⟩ := h
  obtain ⟨prior, rfl⟩ := mayDeclare_iff.mp hn
  refine ⟨prior, fun resync next => ?_⟩
  have hsize := sizeofPacket_eq_min (recePtk prior buf s)
  rw [← hsize] at hin hcrc ⊢
  rw [← checkCrc_recePtk prior hin] at hcrc
  show (⟨_, checkCrc _ _⟩ : Look) = _
  rw [← hcrc]
  rfl

/-- A frame that was accepted inside the received bytes has a type that was received. -/
theorem Inside.type_lt (h : Inside buf s size true) (hs : isHeader buf.bytes s = true) :
    s + 2 < buf.bytes.length := by
  obtain ⟨prior, hlook⟩ := h.exists_look
  let v : Visit Stale := ⟨.join prior zeroStale zeroStale, s⟩
  have hverdict : ((scanner buf).look v.env v.start).verdict = some true := by rw [hlook]
  have hfour : 4 ≤ sizeofPacket (received buf v) :=
    four_le_of_accepts hs (Scanner.accepts_of_true hverdict)
  have hsize : sizeofPacket (received buf v) = size := congrArg Look.size (hlook zeroStale zeroStale)
  have hin := h.2.1
  omega

theorem type_recePtk (prior : PacketT) (hlt : s + 2 < buf.bytes.length) :
    (recePtk prior buf s).type = buf.bytes.getD (s + 2) 0 := by
  rw [PacketT.type, getD_recePtk prior (by omega)]

theorem mayHaveType (prior : PacketT) : MayHaveType buf s (recePtk prior buf s).type :=
  fun hlt => (type_recePtk prior hlt).symm

/-- **Acceptance and type together**: with some bytes in `rece_ptk` a frame that may be accepted is, as
one of any type that was left open. -/
theorem CanAccept.exists_type (h : CanAccept buf s) (ht : MayHaveType buf s type) :
    ∃ prior, checkCrc (recePtk prior buf s).buf (sizeofPacket (recePtk prior buf s)) = some true ∧
      (recePtk prior buf s).type = type := by
  by_cases hw : Whole buf s
  · obtain ⟨prior, hcrc⟩ := canAccept_iff.mp h
    have h9 := hw.1
    exact ⟨prior, hcrc, (type_recePtk prior (by omega)).trans (ht (by omega))⟩
  · rw [CanAccept, if_neg hw] at h
    obtain ⟨prior, _, hcrc, htype⟩ := exists_accepting_of_type hw h ht
    exact ⟨prior, hcrc, htype⟩

/-! ## The calls for one read -/

/-- The types of the packets that a call hands to the callback. -/
def acceptedTypes (buf : ReadBuf) (stale : Stale) (pos : Nat) : List UInt8 :=
  (((scanner buf).run stale pos).events.filter (scanner buf).accepts).map fun v =>
    (received buf v).type

theorem acceptedTypes_none (hs : (scanner buf).find pos = none) : acceptedTypes buf stale pos = [] := by
  rw [acceptedTypes, Scanner.run_none hs]
  rfl

theorem acceptedTypes_fault (hs : (scanner buf).find pos = some s)
    (hv : ((scanner buf).look stale s).verdict = none) : acceptedTypes buf stale pos = [] := by
  have hrejects : (scanner buf).accepts ⟨stale, s⟩ = false := by
    rw [Scanner.accepts, hv]
    rfl
  rw [acceptedTypes, Scanner.run_fault hs hv]
  simp [Run.fault, hrejects]

theorem acceptedTypes_accept (hs : (scanner buf).find pos = some s)
    (hv : ((scanner buf).look stale s).verdict = some true) :
    acceptedTypes buf stale pos = (recePtk (stale []) buf s).type ::
      acceptedTypes buf (stale.child .next) (s + ((scanner buf).look stale s).size) := by
  have haccepts : (scanner buf).accepts ⟨stale, s⟩ = true := Scanner.accepts_of_true hv
  rw [acceptedTypes, Scanner.run_accept hs hv, Run.events_emit_andThen, List.singleton_append,
    List.filter_cons, if_pos haccepts]
  rfl

theorem acceptedTypes_reject (hs : (scanner buf).find pos = some s)
    (hv : ((scanner buf).look stale s).verdict = some false) :
    acceptedTypes buf stale pos = acceptedTypes buf (stale.child .resync) (s + 2) ++
      if ((scanner buf).run (stale.child .resync) (s + 2)).returned then
        acceptedTypes buf (stale.child .next) (s + ((scanner buf).look stale s).size)
      else [] := by
  have hrejects : (scanner buf).accepts ⟨stale, s⟩ = false := Scanner.accepts_of_false hv
  rw [acceptedTypes, Scanner.run_reject hs hv, Run.events_emit_andThen, List.singleton_append,
    List.filter_cons, if_neg (by rw [hrejects]; decide), Run.events_andThen, List.filter_append,
    List.map_append]
  refine congrArg (acceptedTypes buf (stale.child .resync) (s + 2) ++ ·) ?_
  show List.map _ (List.filter _ (if ((scanner buf).run (stale.child .resync) (s + 2)).returned then
    _ else _)) = _
  split <;> rfl

/-- With some stale bytes the call at `pos` begins with one flag, comes back, and leaves the other. -/
inductive LeavesFlag (buf : ReadBuf) : Nat → Int → Int → Prop
  | none {pos : Nat} {auth : Int} : (scanner buf).find pos = none → LeavesFlag buf pos auth auth
  | complete {pos s : Nat} {auth : Int} {type : UInt8} : (scanner buf).find pos = some s →
      ¬ Whole buf s → Completable buf s → MayHaveType buf s type →
      LeavesFlag buf pos auth (flagBehind auth type)
  | cut {pos s : Nat} {auth auth' : Int} : (scanner buf).find pos = some s → ¬ Whole buf s →
      LeavesFlag buf (s + 2) auth auth' → LeavesFlag buf pos auth auth'
  | accept {pos s size : Nat} {auth auth' : Int} : (scanner buf).find pos = some s →
      Inside buf s size true →
      LeavesFlag buf (s + size) (flagBehind auth (buf.bytes.getD (s + 2) 0)) auth' →
      LeavesFlag buf pos auth auth'
  | reject {pos s size : Nat} {auth auth' auth'' : Int} : (scanner buf).find pos = some s →
      Inside buf s size false → LeavesFlag buf (s + 2) auth auth' →
      LeavesFlag buf (s + size) auth' auth'' → LeavesFlag buf pos auth auth''

/-- With some stale bytes the call at `pos` begins with the flag and accepts a frame with a type that
has no name while the flag is set. -/
inductive MeetsUnknown (buf : ReadBuf) : Nat → Int → Prop
  | here {pos s : Nat} {auth : Int} {type : UInt8} : (scanner buf).find pos = some s → auth ≠ 0 →
      CanAccept buf s → MayHaveType buf s type → ¬ HasName type → MeetsUnknown buf pos auth
  | cut {pos s : Nat} {auth : Int} : (scanner buf).find pos = some s → ¬ Whole buf s →
      MeetsUnknown buf (s + 2) auth → MeetsUnknown buf pos auth
  | accept {pos s size : Nat} {auth : Int} : (scanner buf).find pos = some s →
      Inside buf s size true →
      MeetsUnknown buf (s + size) (flagBehind auth (buf.bytes.getD (s + 2) 0)) →
      MeetsUnknown buf pos auth
  | resync {pos s size : Nat} {auth : Int} : (scanner buf).find pos = some s →
      Inside buf s size false → MeetsUnknown buf (s + 2) auth → MeetsUnknown buf pos auth
  | next {pos s size : Nat} {auth auth' : Int} : (scanner buf).find pos = some s →
      Inside buf s size false → LeavesFlag buf (s + 2) auth auth' →
      MeetsUnknown buf (s + size) auth' → MeetsUnknown buf pos auth

/-- **The flag that a call leaves.** -/
theorem leavesFlag_of_returned (h : ((scanner buf).run stale pos).returned = true) :
    LeavesFlag buf pos auth ((acceptedTypes buf stale pos).foldl flagBehind auth) := by
  induction stale, pos using (scanner buf).call_induction generalizing auth with
  | none stale pos hs =>
    rw [acceptedTypes_none hs]
    exact .none hs
  | fault stale pos s hs hv => simp [Scanner.run_fault hs hv] at h
  | accept stale pos s hs hv ih =>
    rw [acceptedTypes_accept hs hv, List.foldl_cons]
    rw [returned_accept hs hv] at h
    rcases look_cases hv with hin | ⟨hover, hw, hc⟩
    · have htype := type_recePtk (stale []) (hin.type_lt (Scanner.header_of_find hs))
      rw [htype]
      exact .accept hs hin (ih h)
    · rw [acceptedTypes_none (find_behind hover)]
      exact .complete hs hw (hc rfl) (mayHaveType (stale []))
  | reject stale pos s hs hv ih1 ih2 =>
    rw [returned_reject hs hv, Bool.and_eq_true] at h
    rw [acceptedTypes_reject hs hv, if_pos h.1, List.foldl_append]
    rcases look_cases hv with hin | ⟨hover, hw, _⟩
    · exact .reject hs hin (ih1 h.1) (ih2 h.2)
    · rw [acceptedTypes_none (find_behind hover)]
      exact .cut hs hw (ih1 h.1)

/-- **What a call accepts under an unknown type, the received bytes let it meet.** -/
theorem meetsUnknown_of_unknownAmong (h : UnknownAmong auth (acceptedTypes buf stale pos)) :
    MeetsUnknown buf pos auth := by
  induction stale, pos using (scanner buf).call_induction generalizing auth with
  | none stale pos hs =>
    rw [acceptedTypes_none hs] at h
    exact h.elim
  | fault stale pos s hs hv =>
    rw [acceptedTypes_fault hs hv] at h
    exact h.elim
  | accept stale pos s hs hv ih =>
    rw [acceptedTypes_accept hs hv, UnknownAmong] at h
    rcases h with ⟨hauth, hunknown⟩ | h
    · exact .here hs hauth (canAccept_iff.mpr ⟨stale [], hv⟩) (mayHaveType (stale [])) hunknown
    · rcases look_cases hv with hin | ⟨hover, _, _⟩
      · rw [type_recePtk (stale []) (hin.type_lt (Scanner.header_of_find hs))] at h
        exact .accept hs hin (ih h)
      · rw [acceptedTypes_none (find_behind hover)] at h
        exact h.elim
  | reject stale pos s hs hv ih1 ih2 =>
    rw [acceptedTypes_reject hs hv, unknownAmong_append] at h
    rcases look_cases hv with hin | ⟨hover, hw, _⟩
    · rcases h with h | h
      · exact .resync hs hin (ih1 h)
      · split at h
        · next hr => exact .next hs hin (leavesFlag_of_returned hr) (ih2 h)
        · exact h.elim
    · rw [acceptedTypes_none (find_behind hover), ite_self, UnknownAmong, or_false] at h
      exact .cut hs hw (ih1 h)

/-- **Whatever flag the received bytes let a call leave, some call leaves.** -/
theorem exists_flag (h : LeavesFlag buf pos auth auth') :
    ∃ stale, ((scanner buf).run stale pos).returned = true ∧
      (acceptedTypes buf stale pos).foldl flagBehind auth = auth' := by
  induction h with
  | none hs => exact ⟨zeroStale, by rw [Scanner.run_none hs]; rfl, by rw [acceptedTypes_none hs]; rfl⟩
  | complete hs hw hc ht =>
    obtain ⟨prior, hsize, hcrc, rfl⟩ := exists_accepting_of_type hw hc ht
    have hv : ((scanner buf).look (.join prior zeroStale zeroStale) _).verdict = some true := hcrc
    refine ⟨.join prior zeroStale zeroStale, returned_of_accepting hs hsize hv, ?_⟩
    rw [acceptedTypes_accept hs hv, scanner_size, join_nil, acceptedTypes_none (find_behind hsize)]
    rfl
  | cut hs hw _ ih =>
    obtain ⟨resync, hresync, hflag⟩ := ih
    obtain ⟨prior, hsize, hcrc⟩ := exists_rejecting hw
    have hv : ((scanner buf).look (.join prior resync zeroStale) _).verdict = some false := hcrc
    refine ⟨.join prior resync zeroStale, returned_of_rejecting hs hsize hv hresync, ?_⟩
    rw [acceptedTypes_reject hs hv, scanner_size, join_nil, acceptedTypes_none (find_behind hsize),
      ite_self, List.append_nil]
    exact hflag
  | @accept pos s size auth auth' hs hin _ ih =>
    obtain ⟨next, hnext, hflag⟩ := ih
    obtain ⟨prior, hlook⟩ := hin.exists_look
    have hv : ((scanner buf).look (.join prior zeroStale next) s).verdict = some true := by rw [hlook]
    refine ⟨.join prior zeroStale next, ?_, ?_⟩
    · rw [returned_accept hs hv, hlook]
      exact hnext
    · rw [acceptedTypes_accept hs hv, hlook, List.foldl_cons,
        type_recePtk _ (hin.type_lt (Scanner.header_of_find hs))]
      exact hflag
  | @reject pos s size auth auth' auth'' hs hin _ _ ih1 ih2 =>
    obtain ⟨resync, hresync, hflag⟩ := ih1
    obtain ⟨next, hnext, hflag'⟩ := ih2
    obtain ⟨prior, hlook⟩ := hin.exists_look
    have hv : ((scanner buf).look (.join prior resync next) s).verdict = some false := by rw [hlook]
    refine ⟨.join prior resync next, ?_, ?_⟩
    · rw [returned_reject hs hv, hlook, Bool.and_eq_true]
      exact ⟨hresync, hnext⟩
    · rw [acceptedTypes_reject hs hv, hlook, child_resync_join, if_pos hresync, List.foldl_append,
        hflag]
      exact hflag'

/-- **Whatever unknown type the received bytes let a call meet, some call accepts.** -/
theorem exists_unknownAmong (h : MeetsUnknown buf pos auth) :
    ∃ stale, UnknownAmong auth (acceptedTypes buf stale pos) := by
  induction h with
  | here hs hauth hc ht hunknown =>
    obtain ⟨prior, hcrc, rfl⟩ := hc.exists_type ht
    have hv : ((scanner buf).look (.join prior zeroStale zeroStale) _).verdict = some true := hcrc
    refine ⟨.join prior zeroStale zeroStale, ?_⟩
    rw [acceptedTypes_accept hs hv]
    exact Or.inl ⟨hauth, hunknown⟩
  | cut hs hw _ ih =>
    obtain ⟨resync, hresync⟩ := ih
    obtain ⟨prior, _, hcrc⟩ := exists_rejecting hw
    have hv : ((scanner buf).look (.join prior resync zeroStale) _).verdict = some false := hcrc
    refine ⟨.join prior resync zeroStale, ?_⟩
    rw [acceptedTypes_reject hs hv, unknownAmong_append]
    exact Or.inl hresync
  | @accept pos s size auth hs hin _ ih =>
    obtain ⟨next, hnext⟩ := ih
    obtain ⟨prior, hlook⟩ := hin.exists_look
    have hv : ((scanner buf).look (.join prior zeroStale next) s).verdict = some true := by rw [hlook]
    refine ⟨.join prior zeroStale next, ?_⟩
    rw [acceptedTypes_accept hs hv, hlook, UnknownAmong,
      type_recePtk _ (hin.type_lt (Scanner.header_of_find hs))]
    exact Or.inr hnext
  | @resync pos s size auth hs hin _ ih =>
    obtain ⟨resync, hresync⟩ := ih
    obtain ⟨prior, hlook⟩ := hin.exists_look
    have hv : ((scanner buf).look (.join prior resync zeroStale) s).verdict = some false := by
      rw [hlook]
    refine ⟨.join prior resync zeroStale, ?_⟩
    rw [acceptedTypes_reject hs hv, unknownAmong_append]
    exact Or.inl hresync
  | @next pos s size auth auth' hs hin hleaves _ ih =>
    obtain ⟨resync, hreturned, hflag⟩ := exists_flag hleaves
    obtain ⟨next, hnext⟩ := ih
    obtain ⟨prior, hlook⟩ := hin.exists_look
    have hv : ((scanner buf).look (.join prior resync next) s).verdict = some false := by rw [hlook]
    refine ⟨.join prior resync next, ?_⟩
    rw [acceptedTypes_reject hs hv, unknownAmong_append, hlook, child_resync_join,
      if_pos hreturned, hflag]
    exact Or.inr hnext

/-! ## The loop -/

/-- The loop waits for the session, with this flag and clock, instead of closing it. -/
def Waits (acceptTimestamp : Int32) (now : Int) (auth : Int) : Prop :=
  auth ≠ 0 ∨ 0 < timeoutLeft acceptTimestamp (Int32.ofInt now)

/-- With some stale bytes, a turn with this clock and read begins with one flag, and the loop goes on
with the other. -/
inductive TurnLeavesFlag (acceptTimestamp : Int32) : Int × ReadResult → Int → Int → Prop
  | short {now auth : Int} {buf : ReadBuf} : Waits acceptTimestamp now auth →
      0 < buf.bytes.length → buf.bytes.length < packetMinSize →
      TurnLeavesFlag acceptTimestamp (now, .ok buf) auth auth
  | frames {now auth auth' : Int} {buf : ReadBuf} : Waits acceptTimestamp now auth →
      packetMinSize ≤ buf.bytes.length → LeavesFlag buf 0 auth auth' →
      TurnLeavesFlag acceptTimestamp (now, .ok buf) auth auth'
  | again {now auth : Int} : auth ≠ 0 →
      TurnLeavesFlag acceptTimestamp (now, .error eagain) auth auth

/-- With some stale bytes, a session with the flag, these clocks and these reads gets a type that has
no name to the dispatcher. -/
inductive SessionMeetsUnknown (acceptTimestamp : Int32) : Int → List (Int × ReadResult) → Prop
  | here {now auth : Int} {buf : ReadBuf} {reads : List (Int × ReadResult)} :
      Waits acceptTimestamp now auth → packetMinSize ≤ buf.bytes.length → MeetsUnknown buf 0 auth →
      SessionMeetsUnknown acceptTimestamp auth ((now, .ok buf) :: reads)
  | later {x : Int × ReadResult} {auth auth' : Int} {reads : List (Int × ReadResult)} :
      TurnLeavesFlag acceptTimestamp x auth auth' →
      SessionMeetsUnknown acceptTimestamp auth' reads →
      SessionMeetsUnknown acceptTimestamp auth (x :: reads)

/-- Every call of `dispatch_message` has a type that `type_to_string` knows. -/
def KnownTypes (o : Outcome) : Prop :=
  ∀ call ∈ dispatched o.events, (typeToString call.type).isSome = true

variable {fd : Int} {acceptTimestamp : Int32} {session : EasnConnT} {now : Int}

theorem waits_iff (fd : Int) : Waits acceptTimestamp now session.auth ↔
    (beforePoll fd acceptTimestamp now session).flow = .again := by
  unfold Waits beforePoll
  by_cases hauth : session.auth = 0
  · simp only [hauth, ne_eq, not_true_eq_false, false_or, if_true]
    split
    · next hle => simpa using hle
    · next hlt => simpa using hlt
  · simp [hauth]

theorem types_acceptedPackets {stale : Stale} (h : packetMinSize ≤ buf.bytes.length) :
    (acceptedPackets stale (.ok buf)).map PacketT.type = acceptedTypes buf stale 0 := by
  rw [acceptedPackets, if_neg (Nat.not_lt.mpr h), List.map_map]
  rfl

/-- **When a turn dispatches an unknown type.** -/
theorem unknown_turnEvents (fd : Int) (acceptTimestamp : Int32) (session : EasnConnT) (t : Turn) :
    (∃ call ∈ dispatched (turnEvents fd acceptTimestamp session t),
        (typeToString call.type).isSome ≠ true) ↔
      Waits acceptTimestamp t.now session.auth ∧
        UnknownAmong session.auth ((acceptedPackets t.stale t.read).map PacketT.type) := by
  rw [dispatched_turnEvents, unknownAmong_iff, waits_iff fd]
  split
  · next hwait =>
    simp only [hwait, true_and, List.mem_map, ne_eq, typeToString_isSome_iff_hasName]
    constructor
    · rintro ⟨_, ⟨pkt, hpkt, rfl⟩, hunknown⟩
      exact ⟨pkt, hpkt, hunknown⟩
    · rintro ⟨pkt, hpkt, hunknown⟩
      exact ⟨_, ⟨pkt, hpkt, rfl⟩, hunknown⟩
  · next hleft => simp [hleft]

/-- A read of frames. -/
theorem afterPoll_frames (fd : Int) (session : EasnConnT) (stale : Stale)
    (h : packetMinSize ≤ buf.bytes.length) :
    ((afterPoll fd session stale (.ok buf)).flow = .again ↔
        ((scanner buf).run stale 0).returned = true) ∧
      (afterPoll fd session stale (.ok buf)).session.auth
        = (acceptedTypes buf stale 0).foldl flagBehind session.auth := by
  have hmin : packetMinSize = 11 := rfl
  rw [afterPoll, if_pos (by omega), if_neg (Nat.not_lt.mpr h)]
  constructor
  · simp only []
    rw [returned_handlePacket]
    simp
  · simp only []
    rw [auth_onPackets, delivered_handlePacket, List.map_map, List.map_map]
    rfl

/-- **The flag that a turn leaves.** -/
theorem turnLeavesFlag_of_again {t : Turn}
    (h : (sessionLoop fd acceptTimestamp session [t]).flow = .again) :
    TurnLeavesFlag acceptTimestamp (t.now, t.read) session.auth
      (sessionLoop fd acceptTimestamp session [t]).session.auth := by
  rw [session_sessionLoop_singleton h]
  obtain ⟨hwait, hagain⟩ := (flow_sessionLoop_singleton session t).mp h
  have hwaits := (waits_iff fd).mpr hwait
  obtain ⟨now, stale, read⟩ := t
  simp only [] at hwaits hagain ⊢
  cases read with
  | ok buf =>
    rcases Nat.lt_or_ge buf.bytes.length packetMinSize with hshort | hlong
    · rw [afterPoll] at hagain ⊢
      split at hagain
      · next hpos =>
        rw [if_pos hpos, if_pos hshort]
        exact .short hwaits hpos hshort
      · simp at hagain
    · obtain ⟨hflow, hauth⟩ := afterPoll_frames fd session stale hlong
      rw [hauth]
      exact .frames hwaits hlong (leavesFlag_of_returned (hflow.mp hagain))
  | error errno =>
    rw [afterPoll] at hagain ⊢
    split at hagain
    · next herrno =>
      split at hagain
      · next hauth =>
        rw [if_pos herrno, if_pos hauth, herrno]
        exact .again hauth
      · simp at hagain
    · simp at hagain

/-- **Whatever flag a turn may leave, some turn leaves**, with the same clock and read. -/
theorem TurnLeavesFlag.exists_turn {x : Int × ReadResult}
    (h : TurnLeavesFlag acceptTimestamp x session.auth auth') (fd : Int) :
    ∃ t : Turn, (t.now, t.read) = x ∧
      (sessionLoop fd acceptTimestamp session [t]).flow = .again ∧
      (sessionLoop fd acceptTimestamp session [t]).session.auth = auth' := by
  -- it is enough that the read goes on
  have hturn : ∀ t : Turn, Waits acceptTimestamp t.now session.auth →
      (afterPoll fd session t.stale t.read).flow = .again →
      (afterPoll fd session t.stale t.read).session.auth = auth' →
      (sessionLoop fd acceptTimestamp session [t]).flow = .again ∧
        (sessionLoop fd acceptTimestamp session [t]).session.auth = auth' := by
    intro t hwaits hagain hauth
    have hflow := (flow_sessionLoop_singleton session t).mpr ⟨(waits_iff fd).mp hwaits, hagain⟩
    exact ⟨hflow, by rw [session_sessionLoop_singleton hflow, hauth]⟩
  cases h with
  | @short now _ buf hwaits hpos hshort =>
    refine ⟨⟨now, zeroStale, .ok buf⟩, rfl, hturn _ hwaits ?_ ?_⟩ <;>
      rw [afterPoll, if_pos hpos, if_pos hshort]
  | @frames now _ _ buf hwaits hlong hleaves =>
    obtain ⟨stale, hreturned, hflag⟩ := exists_flag hleaves
    obtain ⟨hflow, hauth⟩ := afterPoll_frames fd session stale hlong
    exact ⟨⟨now, stale, .ok buf⟩, rfl, hturn _ hwaits (hflow.mpr hreturned) (hauth.trans hflag)⟩
  | @again now _ hauth =>
    refine ⟨⟨now, zeroStale, .error eagain⟩, rfl, hturn _ (Or.inl hauth) ?_ ?_⟩ <;>
      rw [afterPoll, if_pos rfl, if_pos hauth]

/-! ## The known types -/

/-- The clock and the read of a turn: all but the stack. -/
def Turn.seen (t : Turn) : Int × ReadResult := (t.now, t.read)

theorem not_knownTypes_iff {o : Outcome} :
    ¬ KnownTypes o ↔ ∃ call ∈ dispatched o.events, (typeToString call.type).isSome ≠ true := by
  simp [KnownTypes]

/-- An unknown type comes in the first turn, or behind it. -/
theorem not_knownTypes_cons (session : EasnConnT) (t : Turn) (turns : List Turn) :
    ¬ KnownTypes (sessionLoop fd acceptTimestamp session (t :: turns)) ↔
      (Waits acceptTimestamp t.now session.auth ∧
        UnknownAmong session.auth ((acceptedPackets t.stale t.read).map PacketT.type)) ∨
      ((sessionLoop fd acceptTimestamp session [t]).flow = .again ∧
        ¬ KnownTypes (sessionLoop fd acceptTimestamp
          (sessionLoop fd acceptTimestamp session [t]).session turns)) := by
  rw [← unknown_turnEvents fd, ← events_sessionLoop_singleton, not_knownTypes_iff, not_knownTypes_iff,
    sessionLoop_cons]
  simp only []
  split
  · next hflow =>
    simp only [Outcome.behind, dispatched_append, List.mem_append, or_and_right, exists_or, hflow,
      true_and]
  · next hflow => simp [hflow]

/-- **What a session dispatches under an unknown type, its reads let it meet.** -/
theorem sessionMeetsUnknown_of_turns (turns : List Turn)
    (h : ¬ KnownTypes (sessionLoop fd acceptTimestamp session turns)) :
    SessionMeetsUnknown acceptTimestamp session.auth (turns.map Turn.seen) := by
  induction turns generalizing session with
  | nil => exact absurd (fun call hcall => by simp [sessionLoop, dispatched] at hcall) h
  | cons t turns ih =>
    rcases (not_knownTypes_cons session t turns).mp h with ⟨hwaits, hunknown⟩ | ⟨hflow, hrest⟩
    · obtain ⟨now, stale, read⟩ := t
      cases read with
      | ok buf =>
        rcases Nat.lt_or_ge buf.bytes.length packetMinSize with hshort | hlong
        · rw [acceptedPackets, if_pos hshort] at hunknown
          exact hunknown.elim
        · rw [types_acceptedPackets hlong] at hunknown
          exact .here hwaits hlong (meetsUnknown_of_unknownAmong hunknown)
      | error errno => exact hunknown.elim
    · exact .later (turnLeavesFlag_of_again hflow) (ih hrest)

/-- **Whatever unknown type the reads let a session meet, some session dispatches.** -/
theorem exists_turns {reads : List (Int × ReadResult)}
    (h : SessionMeetsUnknown acceptTimestamp auth reads) (fd : Int) (session : EasnConnT)
    (hauth : session.auth = auth) :
    ∃ turns, turns.map Turn.seen = reads ∧
      ¬ KnownTypes (sessionLoop fd acceptTimestamp session turns) := by
  induction h generalizing session with
  | @here now auth buf reads hwaits hlong hmeets =>
    subst hauth
    obtain ⟨stale, hunknown⟩ := exists_unknownAmong hmeets
    refine ⟨⟨now, stale, .ok buf⟩ :: reads.map fun x => ⟨x.1, zeroStale, x.2⟩, ?_, ?_⟩
    · simp [Turn.seen, Function.comp_def]
    · rw [not_knownTypes_cons, types_acceptedPackets hlong]
      exact Or.inl ⟨hwaits, hunknown⟩
  | @later x auth auth' reads hleaves _ ih =>
    subst hauth
    obtain ⟨t, rfl, hflow, hauth'⟩ := hleaves.exists_turn fd
    obtain ⟨turns, rfl, hunknown⟩ := ih _ hauth'
    exact ⟨t :: turns, rfl, (not_knownTypes_cons session t turns).mpr (Or.inr ⟨hflow, hunknown⟩)⟩

/--
**When only known types reach the dispatcher**, with any bytes in `rece_ptk`.

The condition is on the clocks and reads of the session: following the scans through the bytes, with
the flag that the frames in front have left, there is no frame to get to with the flag set that may be
accepted and has a type other than 1 to 4.
-/
theorem knownTypes_iff (fd : Int) (acceptTimestamp : Int32) (start : EasnConnT)
    (reads : List (Int × ReadResult)) :
    (∀ turns, turns.map Turn.seen = reads →
        KnownTypes (sessionLoop fd acceptTimestamp start turns)) ↔
      ¬ SessionMeetsUnknown acceptTimestamp start.auth reads := by
  constructor
  · intro h hmeets
    obtain ⟨turns, hreads, hunknown⟩ := exists_turns hmeets fd start rfl
    exact hunknown (h turns hreads)
  · intro h turns hreads
    by_contra hunknown
    exact h (hreads ▸ sessionMeetsUnknown_of_turns turns hunknown)

/-- A client that authenticates and then sends a packet of type 9, in one read. -/
def unknownType : ReadBuf :=
  ⟨encode ⟨typeInit, 1, []⟩ ++ encode ⟨0x09, 2, []⟩, by decide +kernel⟩

theorem not_knownTypes :
    ¬ ∀ (fd : Int) (acceptTimestamp : Int32) (sid : UInt64) (turns : List Turn),
      KnownTypes (sessionLoop fd acceptTimestamp (.init sid fd) turns) := by
  intro h
  have htypes : (dispatched (sessionLoop 5 0 (.init 7 5)
      [⟨0, zeroStale, .ok unknownType⟩]).events).map DispatchCall.type = [typeInit, 0x09] := by
    decide +kernel
  obtain ⟨call, hcall, htype⟩ : ∃ call ∈ dispatched (sessionLoop 5 0 (.init 7 5)
      [⟨0, zeroStale, .ok unknownType⟩]).events, call.type = 0x09 := by
    have hmem : (0x09 : UInt8) ∈ [typeInit, 0x09] := by simp
    rw [← htypes] at hmem
    exact List.mem_map.mp hmem
  have hknown := h 5 0 7 [⟨0, zeroStale, .ok unknownType⟩] call hcall
  rw [htype, typeToString_isSome_iff] at hknown
  revert hknown
  decide

end Easn
