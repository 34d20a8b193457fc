import CoService.Easn.ClientManager
import CoService.Easn.HandlePacket
import Mathlib.Data.List.Induction

/-!
# The session loop of `server_read_write`

A coroutine serves one session in a loop: it computes how long to wait, waits in `co_poll`, reads
once and handles what it read. The loop is cut where the coroutine waits.

* `beforePoll` — from the head of the loop to `co_poll`
* `afterPoll` — from `co_poll` to the end of the body

Each says what it does, what becomes of the session and whether the loop goes on. `turnEvents` is
what both add in one turn.
-/

namespace Easn

open Infra

/-- `server_channel::TIMEOUT`. -/
def timeout : Int32 := 10

/-- `EAGAIN` of `errno.h`. -/
def eagain : Int := 11

/-- What `read()` returns: bytes, none of them when the peer has closed, or -1 with an `errno`. -/
inductive ReadResult
  | ok (buf : ReadBuf)
  | error (errno : Int)

/-- A call of `dispatch_message`. `data` is what the pointer points to. -/
structure DispatchCall where
  sid : UInt64
  type : UInt8
  data : List UInt8
  size : Nat

/-- What a session does. `auth` is `session->auth` as the callback leaves it. -/
inductive SessionEvent
  | poll (timeoutLeft : Int32)
  | packet (pkt : PacketT) (auth : Int)
  | dispatch (call : DispatchCall)
  | close (fd : Int)

/-- Where the control goes: on in the loop, out of it, or nowhere after a fault. -/
inductive Flow
  | again
  | left
  | fault
deriving DecidableEq

/-- What a part of the loop body did. -/
structure Outcome where
  session : EasnConnT
  events : List SessionEvent
  flow : Flow

/-! ## Waiting -/

/-- `timeout_left` of a session that is not authenticated, in milliseconds. The product is computed
as a `long` and stored as an `int32_t`. -/
def timeoutLeft (acceptTimestamp currentTimestamp : Int32) : Int32 :=
  Int32.ofInt ((timeout - (currentTimestamp - acceptTimestamp)).toInt * 1000)

/-- The head of the loop, where `now` is `time(NULL)`. -/
def beforePoll (fd : Int) (acceptTimestamp : Int32) (now : Int) (session : EasnConnT) : Outcome :=
  if session.auth = 0 then
    let left := timeoutLeft acceptTimestamp (Int32.ofInt now)
    if left ≤ 0 then ⟨session, [.close fd], .left⟩ else ⟨session, [.poll left], .again⟩
  else ⟨session, [.poll (-1)], .again⟩

/-! ## Handling what was read -/

/-- The call of `dispatch_message` for a packet. -/
def dispatchMessage (sid : UInt64) (pkt : PacketT) : DispatchCall :=
  ⟨sid, pkt.type, pkt.data, sizeofData pkt⟩

/-- The callback that is given to `handle_packet`. `dispatch_message` returns. -/
def onPacket (session : EasnConnT) (pkt : PacketT) : EasnConnT × List SessionEvent :=
  if pkt.type ≠ typeInit ∧ session.auth = 0 then (session, [.packet pkt session.auth])
  else
    let auth := if pkt.type = typeInit then 1 else session.auth
    ({ session with auth := auth },
      [.packet pkt auth, .dispatch (dispatchMessage session.sid pkt)])

/-- The callback, once for every packet. -/
def onPackets (session : EasnConnT) : List PacketT → EasnConnT × List SessionEvent
  | [] => (session, [])
  | pkt :: pkts =>
    let (session₁, events₁) := onPacket session pkt
    let (session₂, events₂) := onPackets session₁ pkts
    (session₂, events₁ ++ events₂)

/-- The rest of the loop, with the result of `read()`. -/
def afterPoll (fd : Int) (session : EasnConnT) (stale : Stale) : ReadResult → Outcome
  | .ok buf =>
    if 0 < buf.bytes.length then
      if buf.bytes.length < packetMinSize then ⟨session, [], .again⟩
      else
        let r := handlePacket fd stale buf 0
        let (session', events) := onPackets session ((delivered r).map Prod.snd)
        ⟨session', events, if r.returned then .again else .fault⟩
    else ⟨session, [.close fd], .left⟩
  | .error errno =>
    if errno = eagain then
      if session.auth ≠ 0 then ⟨session, [], .again⟩ else ⟨session, [.close fd], .left⟩
    else ⟨session, [.close fd], .left⟩

/-! ## Runs of the loop -/

/-- What happens around the loop body once: the clock, the stack and the result of `read()`. -/
structure Turn where
  now : Int
  stale : Stale
  read : ReadResult

/-- One time through the loop body, from the state `o` that the loop was left in. -/
def Outcome.turn (fd : Int) (acceptTimestamp : Int32) (o : Outcome) (t : Turn) : Outcome :=
  match o.flow with
  | .again =>
    let b := beforePoll fd acceptTimestamp t.now o.session
    match b.flow with
    | .again =>
      let a := afterPoll fd b.session t.stale t.read
      ⟨a.session, o.events ++ b.events ++ a.events, a.flow⟩
    | flow => ⟨b.session, o.events ++ b.events, flow⟩
  | _ => o

/-- The session loop, as far as the given turns take it. -/
def sessionLoop (fd : Int) (acceptTimestamp : Int32) (session : EasnConnT) (turns : List Turn) :
    Outcome :=
  turns.foldl (Outcome.turn fd acceptTimestamp) ⟨session, [], .again⟩

/-- The packets handed to the callback, in order, each with the flag that it left. -/
def packets (events : List SessionEvent) : List (PacketT × Int) :=
  events.filterMap fun
    | .packet pkt auth => some (pkt, auth)
    | _ => none

/-- The calls of `dispatch_message`, in order. -/
def dispatched (events : List SessionEvent) : List DispatchCall :=
  events.filterMap fun
    | .dispatch call => some call
    | _ => none

section

variable {fd : Int} {acceptTimestamp : Int32} {now : Int} {session : EasnConnT} {stale : Stale}
  {read : ReadResult}

theorem packets_append (es es' : List SessionEvent) :
    packets (es ++ es') = packets es ++ packets es' := List.filterMap_append ..

theorem dispatched_append (es es' : List SessionEvent) :
    dispatched (es ++ es') = dispatched es ++ dispatched es' := List.filterMap_append ..

/-! ## What waiting does -/

@[simp] theorem session_beforePoll : (beforePoll fd acceptTimestamp now session).session = session := by
  unfold beforePoll
  split
  · simp only []
    split <;> rfl
  · rfl

/-- Waiting hands nothing to the callback. -/
theorem events_beforePoll (fd : Int) (acceptTimestamp : Int32) (now : Int) (session : EasnConnT) :
    (∃ left, (beforePoll fd acceptTimestamp now session).events = [.poll left] ∧
      (beforePoll fd acceptTimestamp now session).flow = .again) ∨
    ((beforePoll fd acceptTimestamp now session).events = [.close fd] ∧
      (beforePoll fd acceptTimestamp now session).flow = .left) := by
  unfold beforePoll
  split
  · simp only []
    split
    · exact Or.inr ⟨rfl, rfl⟩
    · exact Or.inl ⟨_, rfl, rfl⟩
  · exact Or.inl ⟨_, rfl, rfl⟩

/-! ## What handling does -/

theorem onPacket_frame (session : EasnConnT) (pkt : PacketT) :
    (onPacket session pkt).1.sid = session.sid ∧
      (onPacket session pkt).1.socketFd = session.socketFd := by
  unfold onPacket
  split <;> exact ⟨rfl, rfl⟩

/-- The callback changes nothing of a session but the flag. -/
theorem onPackets_frame (session : EasnConnT) (pkts : List PacketT) :
    (onPackets session pkts).1.sid = session.sid ∧
      (onPackets session pkts).1.socketFd = session.socketFd := by
  induction pkts generalizing session with
  | nil => exact ⟨rfl, rfl⟩
  | cons pkt pkts ih =>
    obtain ⟨h1, h2⟩ := onPacket_frame session pkt
    obtain ⟨h1', h2'⟩ := ih (onPacket session pkt).1
    exact ⟨h1'.trans h1, h2'.trans h2⟩

/-- Reading either handles packets, or does nothing but close. -/
theorem afterPoll_cases (fd : Int) (session : EasnConnT) (stale : Stale) (read : ReadResult) :
    (∃ pkts, (afterPoll fd session stale read).session = (onPackets session pkts).1 ∧
      (afterPoll fd session stale read).events = (onPackets session pkts).2 ∧
      (afterPoll fd session stale read).flow ≠ .left) ∨
    ((afterPoll fd session stale read).session = session ∧
      (afterPoll fd session stale read).events = [.close fd] ∧
      (afterPoll fd session stale read).flow = .left) := by
  cases read with
  | ok buf =>
    rw [afterPoll]
    split
    · left
      split
      · exact ⟨[], rfl, rfl, by simp⟩
      · refine ⟨(delivered (handlePacket fd stale buf 0)).map Prod.snd, rfl, rfl, ?_⟩
        simp only []
        split <;> simp
    · exact Or.inr ⟨rfl, rfl, rfl⟩
  | error errno =>
    rw [afterPoll]
    split
    · split
      · exact Or.inl ⟨[], rfl, rfl, by simp⟩
      · exact Or.inr ⟨rfl, rfl, rfl⟩
    · exact Or.inr ⟨rfl, rfl, rfl⟩

/-- Reading changes nothing of a session but the flag. -/
theorem afterPoll_frame (fd : Int) (session : EasnConnT) (stale : Stale) (read : ReadResult) :
    (afterPoll fd session stale read).session.sid = session.sid ∧
      (afterPoll fd session stale read).session.socketFd = session.socketFd := by
  rcases afterPoll_cases fd session stale read with ⟨pkts, hs, _⟩ | ⟨hs, _⟩
  · rw [hs]
    exact onPackets_frame session pkts
  · rw [hs]
    exact ⟨rfl, rfl⟩

end

/-! ## Turn by turn -/

/-- What a turn adds to the events of a loop that is still going. -/
def turnEvents (fd : Int) (acceptTimestamp : Int32) (session : EasnConnT) (t : Turn) :
    List SessionEvent :=
  (beforePoll fd acceptTimestamp t.now session).events ++
    if (beforePoll fd acceptTimestamp t.now session).flow = .again then
      (afterPoll fd session t.stale t.read).events
    else []

/-- The loop, still going, comes to the turn `t` with the session. -/
def ComesTo (fd : Int) (acceptTimestamp : Int32) (start : EasnConnT) (turns : List Turn)
    (session : EasnConnT) (t : Turn) : Prop :=
  ∃ before, before ++ [t] <+: turns ∧
    (sessionLoop fd acceptTimestamp start before).flow = .again ∧
    (sessionLoop fd acceptTimestamp start before).session = session

section

variable {fd : Int} {acceptTimestamp : Int32} {start : EasnConnT}

theorem events_turn {o : Outcome} (h : o.flow = .again) (t : Turn) :
    (o.turn fd acceptTimestamp t).events
      = o.events ++ turnEvents fd acceptTimestamp o.session t := by
  rw [Outcome.turn, h, turnEvents]
  simp only [session_beforePoll]
  split
  · next hb => rw [if_pos hb, List.append_assoc]
  · next hb => rw [if_neg hb, List.append_nil]

theorem turn_of_flow {o : Outcome} (h : o.flow ≠ .again) (t : Turn) :
    o.turn fd acceptTimestamp t = o := by
  rw [Outcome.turn]
  split
  · next hagain => exact absurd hagain h
  · rfl

theorem sessionLoop_append (turns : List Turn) (t : Turn) :
    sessionLoop fd acceptTimestamp start (turns ++ [t])
      = (sessionLoop fd acceptTimestamp start turns).turn fd acceptTimestamp t := by
  rw [sessionLoop, List.foldl_append]
  rfl

/-- The same, with what was done before. -/
def Outcome.behind (events : List SessionEvent) (o : Outcome) : Outcome :=
  ⟨o.session, events ++ o.events, o.flow⟩

/-- What was done before a turn does not matter to it. -/
theorem turn_behind (events : List SessionEvent) (o : Outcome) (t : Turn) :
    (o.behind events).turn fd acceptTimestamp t = (o.turn fd acceptTimestamp t).behind events := by
  obtain ⟨session, es, flow⟩ := o
  cases flow with
  | again =>
    simp only [Outcome.turn, Outcome.behind, session_beforePoll]
    cases (beforePoll fd acceptTimestamp t.now session).flow <;> simp
  | left => rfl
  | fault => rfl

theorem foldl_turn_behind (events : List SessionEvent) (o : Outcome) (turns : List Turn) :
    turns.foldl (Outcome.turn fd acceptTimestamp) (o.behind events)
      = (turns.foldl (Outcome.turn fd acceptTimestamp) o).behind events := by
  induction turns generalizing o with
  | nil => rfl
  | cons t turns ih => rw [List.foldl_cons, turn_behind, ih, List.foldl_cons]

theorem foldl_turn_of_flow {o : Outcome} (h : o.flow ≠ .again) (turns : List Turn) :
    turns.foldl (Outcome.turn fd acceptTimestamp) o = o := by
  induction turns with
  | nil => rfl
  | cons t turns ih => rw [List.foldl_cons, turn_of_flow h, ih]

/-- **The first turn, and then the loop from the session that it leaves.** -/
theorem sessionLoop_cons (start : EasnConnT) (t : Turn) (turns : List Turn) :
    sessionLoop fd acceptTimestamp start (t :: turns) =
      let o := sessionLoop fd acceptTimestamp start [t]
      if o.flow = .again then (sessionLoop fd acceptTimestamp o.session turns).behind o.events
      else o := by
  have hsplit : sessionLoop fd acceptTimestamp start (t :: turns)
      = turns.foldl (Outcome.turn fd acceptTimestamp) (sessionLoop fd acceptTimestamp start [t]) := rfl
  rw [hsplit]
  generalize sessionLoop fd acceptTimestamp start [t] = o
  simp only []
  split
  · next hflow =>
    have ho : o = Outcome.behind o.events ⟨o.session, [], .again⟩ := by simp [Outcome.behind, ← hflow]
    conv_lhs => rw [ho]
    exact foldl_turn_behind o.events ⟨o.session, [], .again⟩ turns
  · next hflow => exact foldl_turn_of_flow hflow turns

theorem events_sessionLoop_singleton (session : EasnConnT) (t : Turn) :
    (sessionLoop fd acceptTimestamp session [t]).events
      = turnEvents fd acceptTimestamp session t := by
  have hstart : (⟨session, [], .again⟩ : Outcome).flow = .again := rfl
  exact events_turn hstart t

/-- When the loop goes on after one turn. -/
theorem flow_sessionLoop_singleton (session : EasnConnT) (t : Turn) :
    (sessionLoop fd acceptTimestamp session [t]).flow = .again ↔
      (beforePoll fd acceptTimestamp t.now session).flow = .again ∧
        (afterPoll fd session t.stale t.read).flow = .again := by
  show (Outcome.turn fd acceptTimestamp ⟨session, [], .again⟩ t).flow = .again ↔ _
  unfold Outcome.turn
  simp only [session_beforePoll]
  cases (beforePoll fd acceptTimestamp t.now session).flow <;> simp

theorem session_sessionLoop_singleton {session : EasnConnT} {t : Turn}
    (h : (sessionLoop fd acceptTimestamp session [t]).flow = .again) :
    (sessionLoop fd acceptTimestamp session [t]).session
      = (afterPoll fd session t.stale t.read).session := by
  have hwait := ((flow_sessionLoop_singleton session t).mp h).1
  show (Outcome.turn fd acceptTimestamp ⟨session, [], .again⟩ t).session = _
  unfold Outcome.turn
  simp only [session_beforePoll, hwait]

end

end Easn
