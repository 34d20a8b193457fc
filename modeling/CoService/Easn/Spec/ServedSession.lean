import CoService.Easn.Properties.Auth
import CoService.Easn.Server

/-!
# The server runs the session loop

A coroutine takes its session from one `co_poll` to the next, and the others run in between.
`sessionLoop` takes a session through its turns one after the other. The server refines it: when a
coroutine waits, its session is what `sessionLoop` makes of some turns.

So what holds of every run of the session loop holds of the sessions of the server;
`authGate_of_polling` says it of the authentication gate.
-/

namespace Easn

open Infra

/-- The loop was left in `conn` after these turns, and waits again in the second `now`. -/
structure WaitsAfter (fd : Int) (acceptTimestamp : Int32) (conn : EasnConnT) (turns : List Turn)
    (now : Int) : Prop where
  session : (sessionLoop fd acceptTimestamp (.init conn.sid fd) turns).session = conn
  flow : (sessionLoop fd acceptTimestamp (.init conn.sid fd) turns).flow = .again
  wait : (beforePoll fd acceptTimestamp now conn).flow = .again

namespace WaitsAfter

variable {fd : Int} {acceptTimestamp : Int32} {conn : EasnConnT} {turns : List Turn} {now : Int}

/-- One more turn. -/
theorem append_singleton (h : WaitsAfter fd acceptTimestamp conn turns now) {stale : Stale}
    {read : ReadResult} {now' : Int} (hread : (afterPoll fd conn stale read).flow = .again)
    (hwait : (beforePoll fd acceptTimestamp now' (afterPoll fd conn stale read).session).flow
      = .again) :
    WaitsAfter fd acceptTimestamp (afterPoll fd conn stale read).session
      (turns ++ [⟨now, stale, read⟩]) now' := by
  have hturn : ∀ o : Outcome, o.session = conn → o.flow = .again →
      (o.turn fd acceptTimestamp ⟨now, stale, read⟩).session
          = (afterPoll fd conn stale read).session ∧
        (o.turn fd acceptTimestamp ⟨now, stale, read⟩).flow = .again := by
    rintro o rfl hflow
    simp [Outcome.turn, hflow, h.wait, hread]
  obtain ⟨hsession, hflow⟩ := hturn _ h.session h.flow
  have hsid := (afterPoll_frame fd conn stale read).1
  refine ⟨?_, ?_, hwait⟩
  · rw [hsid, sessionLoop, List.foldl_append]
    exact hsession
  · rw [hsid, sessionLoop, List.foldl_append]
    exact hflow

end WaitsAfter

namespace Server

/-- Every coroutine that waits serves a session of its own, which the session loop led to. -/
structure ServedInv (s : Server) : Prop where
  polling : ∀ i fd acceptTimestamp p, s.pc i = .polling fd acceptTimestamp p →
    ∃ conn turns now, s.manager.heap p = some conn ∧ WaitsAfter fd acceptTimestamp conn turns now
  apart : ∀ i j fd fd' ts ts' p, s.pc i = .polling fd ts p → s.pc j = .polling fd' ts' p → i = j

namespace ServedInv

variable {s s' : Server}

theorem init : Server.init.ServedInv where
  polling i fd ts p h := by simp [Server.init] at h
  apart i j fd fd' ts ts' p h := by simp [Server.init] at h

/-- Coroutines that stop waiting, and a heap that stays as it is. -/
theorem congr (h : s.ServedInv) (hm : s'.manager.heap = s.manager.heap)
    (hpc : ∀ i fd ts p, s'.pc i = .polling fd ts p → s.pc i = .polling fd ts p) :
    s'.ServedInv where
  polling i fd ts p hi := by
    rw [hm]
    exact h.polling i fd ts p (hpc i fd ts p hi)
  apart i j fd fd' ts ts' p hi hj :=
    h.apart i j fd fd' ts ts' p (hpc i fd ts p hi) (hpc j fd' ts' p hj)

/-- The coroutines do not use a cell that is free. -/
theorem ne_of_free (h : s.ServedInv) {cell : Ptr} (hcell : s.manager.heap cell = none)
    {i : TaskId} {fd : Int} {ts : Int32} {p : Ptr} (hi : s.pc i = .polling fd ts p) :
    p ≠ cell := by
  rintro rfl
  obtain ⟨conn, _, _, hconn, _⟩ := h.polling i fd ts p hi
  simp [hcell] at hconn

/-- A new session is in a cell that is nobody's. -/
theorem newSession (h : s.ServedInv) {i : TaskId} {input : TaskInput}
    (hcell : s.manager.heap input.cell = none) : (s.newSession i input).ServedInv where
  polling j fd ts p hj := by
    obtain ⟨conn, turns, now, hconn, hwaits⟩ := h.polling j fd ts p hj
    exact ⟨conn, turns, now,
      (ClientManager.heap_newConnection_of_ne (h.ne_of_free hcell hj)).trans hconn, hwaits⟩
  apart := h.apart

/-- A coroutine that writes to its session does not touch those of the others. -/
theorem store (h : s.ServedInv) {i j : TaskId} {fd fd' : Int} {ts ts' : Int32} {session p : Ptr}
    {conn' : Option EasnConnT} (hi : s.pc i = .polling fd ts session)
    (hj : s.pc j = .polling fd' ts' p) (hji : j ≠ i) :
    ∃ conn turns now, (s.manager.store session conn').heap p = some conn ∧
      WaitsAfter fd' ts' conn turns now := by
  obtain ⟨conn, turns, now, hconn, hwaits⟩ := h.polling j fd' ts' p hj
  have hne : p ≠ session := by
    rintro rfl
    exact hji (h.apart j i fd' fd ts' ts p hj hi)
  exact ⟨conn, turns, now, (ClientManager.heap_store_of_ne hne).trans hconn, hwaits⟩

/-- **Every action keeps the coroutines in their session loops.** -/
theorem acts (h : s.ServedInv) {left : Bool} (ha : Acts s left s') : s'.ServedInv := by
  cases ha with
  | pass control => exact h.congr rfl fun _ _ _ _ hj => hj
  | refuse connfd hopen hnone => exact h.congr rfl fun _ _ _ _ hj => hj
  | give connfd i rest hpos hopen htask => exact h.congr rfl fun _ _ _ _ hj => hj
  | idle i r hpc =>
    refine h.congr rfl fun j fd ts p hj => ?_
    rwa [pc_coYield hpc] at hj
  | begin i r input hpc hfd hcell hwait =>
    refine ⟨?_, apart_coPoll h.apart fun j fd ts p hj => h.ne_of_free hcell hj⟩
    intro j fd ts p hj
    rcases pc_coPoll_cases hj with ⟨rfl, rfl, rfl, rfl⟩ | ⟨_, hj⟩
    · exact ⟨_, [], input.now, ClientManager.heap_newConnection_self, rfl, rfl, hwait⟩
    · exact (h.newSession hcell).polling j fd ts p hj
  | beginLeave i r input hpc hfd hcell =>
    exact (h.newSession hcell).congr rfl fun j fd ts p hj => (pc_leaveLoop hj).2
  | again i r fd acceptTimestamp session conn input hpc hheap hread hwait =>
    refine ⟨?_, ?_⟩
    · intro j fd' ts p hj
      rcases pc_coPoll_cases hj with ⟨rfl, rfl, rfl, rfl⟩ | ⟨hji, hj⟩
      · obtain ⟨conn₀, turns, now, hconn, hwaits⟩ := h.polling j _ _ _ hpc
        obtain rfl := Option.some.inj (hheap.symm.trans hconn)
        exact ⟨_, _, _, ClientManager.heap_store_self, hwaits.append_singleton hread hwait⟩
      · exact h.store hpc hj hji
    · rw [pc_coPoll (by exact hpc)]
      exact h.apart
  | leave i r fd acceptTimestamp session conn input hpc hheap =>
    refine ⟨?_, ?_⟩
    · intro j fd' ts p hj
      obtain ⟨hji, hj⟩ := pc_leaveLoop hj
      exact h.store hpc hj hji
    · intro j k fd' fd'' ts ts' p hj hk
      exact h.apart j k fd' fd'' ts ts' p (pc_leaveLoop hj).2 (pc_leaveLoop hk).2

theorem run {is : List Input} (h : machine.run is = some s) : s.ServedInv :=
  Machine.invariant (P := fun _ s => s.ServedInv) init
    (fun _ _ _ _ _ hinv hs => hinv.acts (step_acts hs)) h

end ServedInv

/-- **The server refines the session loop**: when a coroutine waits, its session is what
`sessionLoop` makes of some turns, and the loop is to go on. -/
theorem sessionLoop_of_polling {is : List Input} {s : Server} (h : machine.run is = some s)
    {i : TaskId} {fd : Int} {acceptTimestamp : Int32} {p : Ptr}
    (hi : s.pc i = .polling fd acceptTimestamp p) :
    ∃ conn turns, s.manager.heap p = some conn ∧
      (sessionLoop fd acceptTimestamp (.init conn.sid fd) turns).session = conn ∧
      (sessionLoop fd acceptTimestamp (.init conn.sid fd) turns).flow = .again := by
  obtain ⟨conn, turns, now, hconn, hwaits⟩ := (ServedInv.run h).polling i fd acceptTimestamp p hi
  exact ⟨conn, turns, hconn, hwaits.session, hwaits.flow⟩

/-- The sessions that the coroutines serve are behind the authentication gate: a coroutine that
waits without a deadline has handed a `TYPE_INIT` to the callback. -/
theorem authGate_of_polling {is : List Input} {s : Server} (h : machine.run is = some s)
    {i : TaskId} {fd : Int} {acceptTimestamp : Int32} {p : Ptr}
    (hi : s.pc i = .polling fd acceptTimestamp p) :
    ∃ conn turns, s.manager.heap p = some conn ∧
      (sessionLoop fd acceptTimestamp (.init conn.sid fd) turns).session = conn ∧
      AuthGate conn.sid (handedOverIn fd acceptTimestamp (.init conn.sid fd) turns)
        (sessionLoop fd acceptTimestamp (.init conn.sid fd) turns) := by
  obtain ⟨conn, turns, hconn, hsession, _⟩ := sessionLoop_of_polling h hi
  exact ⟨conn, turns, hconn, hsession, authGate_sessionLoop conn.sid fd acceptTimestamp turns⟩

end Server

end Easn
