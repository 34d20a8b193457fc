import CoService.Easn.Properties.Deadline
import CoService.Easn.Properties.Dispatched
import CoService.Easn.Spec.Isolation

/-!
# What the server does for one connection

Three properties of the session loop, carried over to the connections of the server by
`serves_of_acceptedIn`.

* `dispatched_eventsOf` — what reaches the dispatcher, in terms of the bytes that were read
* `closed_last` — a connection is closed once, and nothing is done for it afterwards
* `dispatched_of_sid` — the calls with a connection's `sid` are its own
-/

namespace Easn

open Infra

/-! ## From the reads to the dispatcher -/

theorem packets_nextPart (fd : Int) (acceptTimestamp : Int32) (conn : EasnConnT) (x : TaskInput) :
    (packets (nextPart fd acceptTimestamp conn x).events).map Prod.fst
      = acceptedPackets x.stale x.read := by
  rw [← handedOver_eq fd, ← packets_afterPoll fd conn, nextPart]
  simp only []
  split
  · rw [packets_append, packets_beforePoll, List.append_nil]
  · rfl

/-- The packets that were received in the inputs. -/
def receivedIn (xs : List TaskInput) : List PacketT :=
  xs.flatMap fun x => acceptedPackets x.stale x.read

section connLoop

variable {fd : Int} {first : TaskInput} {rest : List TaskInput}

/-- A session that waits for every input hands over all that is read. -/
theorem packets_connLoop
    (h : ∀ before x, before ++ [x] <+: rest → (connLoop fd first before).flow = .again) :
    (packets (connLoop fd first rest).events).map Prod.fst = receivedIn rest := by
  induction rest using List.reverseRecOn with
  | nil =>
    rw [connLoop_nil, packets_beforePoll]
    rfl
  | append_singleton rest x ih =>
    have hbefore := ih fun before y hpre => h before y (hpre.trans (List.prefix_append _ _))
    rw [connLoop_append_singleton (h rest x (List.prefix_refl _)), packets_append, List.map_append,
      hbefore, packets_nextPart, receivedIn, receivedIn, List.flatMap_append]
    simp

/-- The gate holds of a connection up to its next `co_poll`. -/
theorem gated_connLoop (fd : Int) (first : TaskInput) (rest : List TaskInput) :
    Gated (timestamp first.tv) (connLoop fd first rest).session (connLoop fd first rest).events := by
  have h := gated_sessionLoop (timestamp first.tv) fd (Int32.ofInt first.acceptTime)
    (turnsOf first.now rest)
  unfold connLoop loopTo
  simp only []
  split
  · have hquiet := packets_beforePoll fd (Int32.ofInt first.acceptTime) (lastNow first.now rest)
      (sessionLoop fd (Int32.ofInt first.acceptTime) (.init (timestamp first.tv) fd)
        (turnsOf first.now rest)).session
    refine h.append_quiet hquiet ?_
    rcases events_beforePoll fd (Int32.ofInt first.acceptTime) (lastNow first.now rest)
        (sessionLoop fd (Int32.ofInt first.acceptTime) (.init (timestamp first.tv) fd)
          (turnsOf first.now rest)).session with ⟨left, he, _⟩ | ⟨he, _⟩ <;>
      rw [he] <;> rfl
  · exact h

end connLoop

/-! ## Closing -/

/-- Nothing is closed while the loop goes on. When it is left, its descriptor is closed, last. -/
def ClosesLast (fd : Int) (o : Outcome) : Prop :=
  (o.flow ≠ .left ∧ ∀ fd', .close fd' ∉ o.events) ∨
    (o.flow = .left ∧ ∃ es, o.events = es ++ [.close fd] ∧ ∀ fd', .close fd' ∉ es)

section closesLast

variable {fd : Int}

theorem closesLast_beforePoll (fd : Int) (acceptTimestamp : Int32) (now : Int)
    (session : EasnConnT) : ClosesLast fd (beforePoll fd acceptTimestamp now session) := by
  rcases events_beforePoll fd acceptTimestamp now session with ⟨left, he, hf⟩ | ⟨he, hf⟩
  · exact Or.inl ⟨by simp [hf], by simp [he]⟩
  · exact Or.inr ⟨hf, [], he, by simp⟩

theorem closesLast_afterPoll (fd : Int) (session : EasnConnT) (stale : Stale) (read : ReadResult) :
    ClosesLast fd (afterPoll fd session stale read) := by
  rcases afterPoll_cases fd session stale read with ⟨pkts, _, he, hf⟩ | ⟨_, he, hf⟩
  · exact Or.inl ⟨hf, fun fd' => he ▸ close_notMem_onPackets session pkts⟩
  · exact Or.inr ⟨hf, [], he, by simp⟩

/-- What goes on without closing, and then goes on to what closes last. -/
theorem ClosesLast.append {o : Outcome} {session : EasnConnT} {es : List SessionEvent}
    (h : ClosesLast fd o) (hes : ∀ fd', .close fd' ∉ es) :
    ClosesLast fd ⟨session, es ++ o.events, o.flow⟩ := by
  rcases h with ⟨hf, he⟩ | ⟨hf, es', he, hes'⟩
  · exact Or.inl ⟨hf, fun fd' hmem => (List.mem_append.mp hmem).elim (hes fd') (he fd')⟩
  · refine Or.inr ⟨hf, es ++ es', by rw [he, List.append_assoc], fun fd' hmem => ?_⟩
    exact (List.mem_append.mp hmem).elim (hes fd') (hes' fd')

/-- The loop goes on, so nothing was closed. -/
theorem ClosesLast.notMem {o : Outcome} (h : ClosesLast fd o) (hf : o.flow ≠ .left) (fd' : Int) :
    .close fd' ∉ o.events :=
  h.elim (fun h => h.2 fd') fun h => absurd h.1 hf

theorem closesLast_nextPart (fd : Int) (acceptTimestamp : Int32) (conn : EasnConnT)
    (x : TaskInput) : ClosesLast fd (nextPart fd acceptTimestamp conn x) := by
  have hread := closesLast_afterPoll fd conn x.stale x.read
  unfold nextPart
  simp only []
  split
  · next hf => exact (closesLast_beforePoll ..).append (hread.notMem (by simp [hf]))
  · exact hread

theorem closesLast_connLoop {first : TaskInput} {rest : List TaskInput}
    (h : ∀ before x, before ++ [x] <+: rest → (connLoop fd first before).flow = .again) :
    ClosesLast fd (connLoop fd first rest) := by
  induction rest using List.reverseRecOn with
  | nil =>
    rw [connLoop_nil, ← List.nil_append (beforePoll _ _ _ _).events]
    exact (closesLast_beforePoll ..).append (by simp)
  | append_singleton rest x ih =>
    have hbefore := ih fun before y hpre => h before y (hpre.trans (List.prefix_append _ _))
    have hflow := h rest x (List.prefix_refl _)
    rw [connLoop_append_singleton hflow]
    exact (closesLast_nextPart ..).append (hbefore.notMem (by simp [hflow]))

end closesLast

/-- Before each of its inputs the session waits. -/
theorem Serves.again {fd : Int} {first : TaskInput} {rest : List TaskInput}
    {events : List SessionEvent} (h : Serves fd (first :: rest) events) (before : List TaskInput)
    (x : TaskInput) (hpre : before ++ [x] <+: rest) : (connLoop fd first before).flow = .again := by
  obtain ⟨after, rfl⟩ := hpre
  exact h.waits first before x ⟨after, by simp⟩

namespace Server

/-- The `sid` of a connection's session. -/
def sidOf (c : Conn) (is : List Input) : UInt64 :=
  match inputsOf c is with
  | [] => 0
  | first :: _ => timestamp first.tv

/--
**From the reads of a client to the dispatcher, in every interleaving.**

The packets that are dispatched for a connection are those that its own reads hold, in their order,
from its own first `TYPE_INIT` on, and they go out under the `sid` of its session. No other
connection can authenticate it or have packets dispatched in its name.
-/
theorem dispatched_eventsOf (is : List Input) (c : Conn) (fd : Int) (h : AcceptedIn is c fd) :
    dispatched (eventsOf c is)
      = ((receivedIn (inputsOf c is).tail).dropWhile fun pkt => pkt.type ≠ typeInit).map
        (dispatchMessage (sidOf c is)) := by
  have hserves := serves_of_acceptedIn h
  rw [hserves.events_eq, sidOf]
  cases hinputs : inputsOf c is with
  | nil => rfl
  | cons first rest =>
    rw [hinputs] at hserves
    rw [connEvents, (gated_connLoop fd first rest).dispatched, packets_connLoop hserves.again]
    rfl

/-- What was done for a connection stays when the run goes on. -/
theorem activationsOf_prefix (c : Conn) (is js : List Input) :
    activationsOf c is <+: activationsOf c (is ++ js) := by
  have h : activations is <+: activations (is ++ js) := by
    rw [activations, activations, Machine.trace, Machine.trace, Machine.traceFrom_append]
    exact List.prefix_append ..
  exact h.filter _

/--
**A connection that was given to a task is closed once, and nothing is done for it afterwards.**

What is closed is the connection's own descriptor, it is the last thing done for the connection, and
it stays the last in every continuation of the run, also when the number of the descriptor is given
to a new connection. A connection that finds no idle task is closed by `server_accept` at once: it is
not accepted for a task, and `eventsOf` has nothing of it.
-/
theorem closed_last (is : List Input) (c : Conn) (fd fd' : Int) (h : AcceptedIn is c fd)
    (hclose : .close fd' ∈ eventsOf c is) :
    (∃ es, eventsOf c is = es ++ [.close fd] ∧ ∀ fd'', .close fd'' ∉ es) ∧
      ∀ js, activationsOf c (is ++ js) = activationsOf c is := by
  have hserves := serves_of_acceptedIn h
  cases hinputs : inputsOf c is with
  | nil =>
    rw [hserves.events_eq, hinputs] at hclose
    simp [connEvents] at hclose
  | cons first rest =>
    have hinputs' := hinputs
    rw [hinputs] at hserves
    have hloop := closesLast_connLoop hserves.again
    rw [hserves.events_eq, connEvents] at hclose ⊢
    rcases hloop with ⟨_, hnone⟩ | ⟨hleft, hlast⟩
    · exact absurd hclose (hnone fd')
    · refine ⟨hlast, fun js => ?_⟩
      -- one more input would find the session waiting
      obtain ⟨more, hmore⟩ := activationsOf_prefix c is js
      cases more with
      | nil => rw [← hmore, List.append_nil]
      | cons a more =>
        obtain ⟨before, s, hpre, hacc⟩ := h
        have hacc' : AcceptedIn (is ++ js) c fd :=
          ⟨before, s, hpre.trans (List.prefix_append _ _), hacc⟩
        have hagain := (serves_of_acceptedIn hacc').waits first rest a.input
          ⟨more.map Activation.input, by
            rw [inputsOf] at hinputs'
            rw [inputsOf, ← hmore, List.map_append, hinputs']
            simp⟩
        simp [hleft] at hagain

/-- The descriptor that an event closes. -/
def closedBy : SessionEvent → Option Int
  | .close fd => some fd
  | .poll _ => none
  | .packet _ _ => none
  | .dispatch _ => none

/-- The first client of `twoClients` has hung up. -/
theorem closed_last_twoClients :
    (∃ es, eventsOf 0 twoClients = es ++ [.close 5] ∧ ∀ fd'', .close fd'' ∉ es) ∧
      ∀ js, activationsOf 0 (twoClients ++ js) = activationsOf 0 twoClients := by
  have hmem : (5 : Int) ∈ (eventsOf 0 twoClients).filterMap closedBy := by decide +kernel
  obtain ⟨e, he, hfd⟩ := List.mem_filterMap.mp hmem
  cases e with
  | close fd =>
    obtain rfl := Option.some.inj hfd
    exact closed_last twoClients 0 5 _ acceptedIn_twoClients he
  | poll left => simp [closedBy] at hfd
  | packet pkt auth => simp [closedBy] at hfd
  | dispatch call => simp [closedBy] at hfd

/-! ## The `sid`s -/

/-- A step runs no coroutine for a connection, or the one of a connection that has a session, or it
begins a session, whose `sid` is read from the clock. -/
theorem activation_cases {is : List Input} {s s' : Server} {input : Input}
    (hrun : machine.run is = some s) (hs : s.step input = some s') :
    (s.activation input = [] ∧ s'.sids = s.sids) ∨
    (∃ a, s.activation input = [a] ∧ inputsOf a.conn is ≠ [] ∧ s'.sids = s.sids) ∨
    (∃ a, s.activation input = [a] ∧ inputsOf a.conn is = [] ∧
      s'.sids = s.sids ++ [timestamp a.input.tv]) := by
  have hinv := Isolated.of_run hrun
  cases input with
  | resumeAccept =>
    simp only [step, Option.ite_none_right_eq_some, Option.some.injEq] at hs
    obtain ⟨_, rfl⟩ := hs
    exact Or.inl ⟨rfl, rfl⟩
  | coAccept connfd =>
    cases connfd with
    | none =>
      simp only [step, Option.ite_none_right_eq_some, Option.some.injEq] at hs
      obtain ⟨_, rfl⟩ := hs
      exact Or.inl ⟨rfl, rfl⟩
    | some connfd =>
      simp only [step, Option.ite_none_right_eq_some] at hs
      obtain ⟨_, hs⟩ := hs
      refine Or.inl ⟨rfl, ?_⟩
      split at hs <;> (obtain rfl := Option.some.inj hs; rfl)
  | wake i =>
    simp only [step, Option.ite_none_right_eq_some, Option.some.injEq] at hs
    obtain ⟨_, rfl⟩ := hs
    exact Or.inl ⟨rfl, rfl⟩
  | run x =>
    cases step_runs hs with
    | idle i r hc hpc hi hs =>
      subst hs
      exact Or.inl ⟨by simp [activation, hc, hpc, hi], rfl⟩
    | begin i r hc hpc hi hcell hs =>
      refine Or.inr (Or.inr ⟨_, activation_begin hc hpc hi hcell, ?_, ?_⟩)
      · rw [inputsOf, hinv.given i hpc hi]
        rfl
      · rcases runTask_begin hpc hi hcell hs with ⟨_, rfl⟩ | rfl <;> rfl
    | next i r fd ts session conn hc hpc hheap hs =>
      refine Or.inr (Or.inl ⟨_, activation_next hc hpc hheap, ?_, ?_⟩)
      · obtain ⟨first, rest, _, hinputs, _⟩ := hinv.polling i fd ts session hpc
        rw [hinputs]
        exact List.cons_ne_nil _ _
      · rcases runTask_next hpc hheap hs with ⟨_, rfl⟩ | rfl <;> rfl

/-- The `sid`s of the connections are clock readings, and different ones if these are. -/
structure SidInv (is : List Input) (s : Server) : Prop where
  mem : ∀ c, inputsOf c is ≠ [] → sidOf c is ∈ s.sids
  inj : s.sids.Nodup → ∀ c c', inputsOf c is ≠ [] → inputsOf c' is ≠ [] →
    sidOf c is = sidOf c' is → c = c'

namespace SidInv

variable {is : List Input} {s s' : Server} {input : Input}

theorem inputsOf_of_ne (hrun : machine.run is = some s) {a : Activation}
    (hact : s.activation input = [a]) {c : Conn} (hc : c ≠ a.conn) :
    inputsOf c (is ++ [input]) = inputsOf c is := by
  rw [inputsOf, activationsOf_append_singleton hrun, hact, inputsOf]
  simp [hc.symm]

theorem inputsOf_self (hrun : machine.run is = some s) {a : Activation}
    (hact : s.activation input = [a]) :
    inputsOf a.conn (is ++ [input]) = inputsOf a.conn is ++ [a.input] := by
  rw [inputsOf, activationsOf_append_singleton hrun, hact, inputsOf]
  simp

/-- The first input of a connection stays the first. -/
theorem sidOf_append {c : Conn} (hc : inputsOf c is ≠ []) {xs : List TaskInput}
    (h : inputsOf c (is ++ [input]) = inputsOf c is ++ xs) : sidOf c (is ++ [input]) = sidOf c is := by
  rw [sidOf, sidOf, h]
  cases hinputs : inputsOf c is with
  | nil => exact absurd hinputs hc
  | cons first rest => rfl

/-- A step that begins no session. -/
theorem congr (h : SidInv is s) (hsids : s'.sids = s.sids)
    (hinputs : ∀ c, inputsOf c (is ++ [input]) ≠ [] →
      inputsOf c is ≠ [] ∧ sidOf c (is ++ [input]) = sidOf c is) :
    SidInv (is ++ [input]) s' where
  mem c hc := by
    obtain ⟨hne, hsid⟩ := hinputs c hc
    rw [hsids, hsid]
    exact h.mem c hne
  inj hn c c' hc hc' heq := by
    obtain ⟨hne, hsid⟩ := hinputs c hc
    obtain ⟨hne', hsid'⟩ := hinputs c' hc'
    rw [hsids] at hn
    rw [hsid, hsid'] at heq
    exact h.inj hn c c' hne hne' heq

/-- A step that begins a session. -/
theorem begin (h : SidInv is s) (hrun : machine.run is = some s) {a : Activation}
    (hact : s.activation input = [a]) (hnew : inputsOf a.conn is = [])
    (hsids : s'.sids = s.sids ++ [timestamp a.input.tv]) : SidInv (is ++ [input]) s' := by
  have hself : sidOf a.conn (is ++ [input]) = timestamp a.input.tv := by
    rw [sidOf, inputsOf_self hrun hact, hnew]
    rfl
  have hother : ∀ c, c ≠ a.conn → inputsOf c (is ++ [input]) ≠ [] →
      inputsOf c is ≠ [] ∧ sidOf c (is ++ [input]) = sidOf c is := by
    intro c hc hne
    have hinputs := inputsOf_of_ne hrun hact hc
    rw [hinputs] at hne
    exact ⟨hne, sidOf_append hne (hinputs.trans (List.append_nil _).symm)⟩
  refine ⟨fun c hc => ?_, fun hn c c' hc hc' heq => ?_⟩
  · rw [hsids]
    by_cases hca : c = a.conn
    · rw [hca, hself]
      simp
    · obtain ⟨hne, hsid⟩ := hother c hca hc
      rw [hsid]
      exact List.mem_append_left _ (h.mem c hne)
  · rw [hsids] at hn
    have hfresh : timestamp a.input.tv ∉ s.sids := (List.nodup_append_comm.mp hn).notMem
    by_cases hca : c = a.conn <;> by_cases hca' : c' = a.conn
    · exact hca.trans hca'.symm
    · obtain ⟨hne, hsid⟩ := hother c' hca' hc'
      rw [hca, hself, hsid] at heq
      exact absurd (heq ▸ h.mem c' hne) hfresh
    · obtain ⟨hne, hsid⟩ := hother c hca hc
      rw [hca', hself, hsid] at heq
      exact absurd (heq ▸ h.mem c hne) hfresh
    · obtain ⟨hne, hsid⟩ := hother c hca hc
      obtain ⟨hne', hsid'⟩ := hother c' hca' hc'
      rw [hsid, hsid'] at heq
      exact h.inj hn.of_append_left c c' hne hne' heq

theorem step (h : SidInv is s) (hrun : machine.run is = some s) (hs : s.step input = some s') :
    SidInv (is ++ [input]) s' := by
  rcases activation_cases hrun hs with ⟨hact, hsids⟩ | ⟨a, hact, hne, hsids⟩ | ⟨a, hact, hnew, hsids⟩
  · refine h.congr hsids fun c hc => ?_
    have hinputs : inputsOf c (is ++ [input]) = inputsOf c is := by
      rw [inputsOf, Isolated.activationsOf_eq hrun hact, inputsOf]
    rw [hinputs] at hc
    exact ⟨hc, sidOf_append hc (hinputs.trans (List.append_nil _).symm)⟩
  · refine h.congr hsids fun c hc => ?_
    by_cases hca : c = a.conn
    · subst hca
      exact ⟨hne, sidOf_append hne (inputsOf_self hrun hact)⟩
    · have hinputs := inputsOf_of_ne hrun hact hca
      rw [hinputs] at hc
      exact ⟨hc, sidOf_append hc (hinputs.trans (List.append_nil _).symm)⟩
  · exact h.begin hrun hact hnew hsids

theorem of_run (h : machine.run is = some s) : SidInv is s :=
  Machine.invariant (P := SidInv) ⟨fun _ h => absurd rfl h, fun _ _ _ h => absurd rfl h⟩
    (fun _ _ _ _ hrun hinv hs => hinv.step hrun hs) h

end SidInv

/-- All calls of `dispatch_message` in a run, in order. -/
def dispatchedIn (is : List Input) : List DispatchCall :=
  (activations is).flatMap fun a => dispatched a.events

section sid

variable {is : List Input} {s : Server} {c : Conn} {fd : Int}

theorem dispatched_eventsOf_eq_flatMap (c : Conn) (is : List Input) :
    dispatched (eventsOf c is) = (activationsOf c is).flatMap fun a => dispatched a.events :=
  List.filterMap_flatMap ..

/-- The calls for a connection carry its `sid`. -/
theorem sid_of_mem_dispatched (h : AcceptedIn is c fd) {call : DispatchCall}
    (hcall : call ∈ dispatched (eventsOf c is)) : call.sid = sidOf c is := by
  have hserves := serves_of_acceptedIn h
  rw [hserves.events_eq] at hcall
  rw [sidOf]
  cases hinputs : inputsOf c is with
  | nil => simp [hinputs, connEvents, dispatched] at hcall
  | cons first rest =>
    rw [hinputs, connEvents, (gated_connLoop fd first rest).dispatched] at hcall
    obtain ⟨pkt, _, rfl⟩ := List.mem_map.mp hcall
    rfl

/-- Coroutines run for connections that were accepted. -/
theorem acceptedIn_of_activation (h : machine.run is = some s) {a : Activation}
    (ha : a ∈ activations is) : ∃ fd, AcceptedIn is a.conn fd := by
  have hlt : a.conn < s.pool.accepted := by
    by_contra hge
    have hnone := (Isolated.of_run h).fresh a.conn (Nat.not_lt.mp hge)
    have hmem : a ∈ activationsOf a.conn is := List.mem_filter.mpr ⟨ha, by simp⟩
    simp [hnone] at hmem
  have hlog : ∃ fd, PoolEvent.accepted a.conn fd ∈ lifeOf s.pool.log a.conn := by
    cases (PoolInv.run h).pool.life a.conn hlt with
    | refused fd hlife => exact ⟨fd, by rw [hlife]; simp⟩
    | serving i hfd hopen hlife => exact ⟨s.pool.fd i, by rw [hlife]; simp⟩
    | ended fd i hlife => exact ⟨fd, by rw [hlife]; simp⟩
  obtain ⟨fd, hmem⟩ := hlog
  exact ⟨fd, is, s, List.prefix_refl _, h, (List.mem_filter.mp hmem).1⟩

/-- The items that come from the elements that `q` picks. -/
theorem filter_flatMap_eq {α β : Type*} {f : α → List β} {p : β → Bool} {q : α → Bool} {l : List α}
    (h : ∀ a ∈ l, ∀ b ∈ f a, p b = q a) : (l.flatMap f).filter p = (l.filter q).flatMap f := by
  induction l with
  | nil => rfl
  | cons a l ih =>
    have hrest := ih fun a' ha' => h a' (List.mem_cons_of_mem _ ha')
    have hone := h a List.mem_cons_self
    rw [List.flatMap_cons, List.filter_append, hrest, List.filter_cons]
    cases hq : q a with
    | true =>
      rw [List.filter_eq_self.mpr fun b hb => (hone b hb).trans hq, if_pos rfl, List.flatMap_cons]
    | false =>
      rw [List.filter_eq_nil_iff.mpr fun b hb => by simp [hone b hb, hq]]
      rfl

end sid

/--
**The calls with a connection's `sid` are the connection's own.**

If the clock never shows a millisecond twice, then of all that the server dispatches, in whatever
order the connections are served, the calls with a connection's `sid` are those made for it.
-/
theorem dispatched_of_sid (is : List Input) (s : Server) (h : machine.run is = some s)
    (hn : s.sids.Nodup) (c : Conn) (hc : inputsOf c is ≠ []) :
    (dispatchedIn is).filter (fun call => call.sid = sidOf c is) = dispatched (eventsOf c is) := by
  have hinv := SidInv.of_run h
  rw [dispatched_eventsOf_eq_flatMap, dispatchedIn, activationsOf]
  refine filter_flatMap_eq fun a ha call hcall => ?_
  obtain ⟨fd, hacc⟩ := acceptedIn_of_activation h ha
  have hmem : a ∈ activationsOf a.conn is := List.mem_filter.mpr ⟨ha, by simp⟩
  have hsid : call.sid = sidOf a.conn is := by
    refine sid_of_mem_dispatched hacc ?_
    rw [dispatched_eventsOf_eq_flatMap]
    exact List.mem_flatMap.mpr ⟨a, hmem, hcall⟩
  have hne : inputsOf a.conn is ≠ [] := by
    intro hnil
    rw [List.map_eq_nil_iff.mp hnil] at hmem
    simp at hmem
  rw [decide_eq_decide, hsid]
  exact ⟨hinv.inj hn a.conn c hne hc, fun heq => by rw [heq]⟩

end Server

end Easn
