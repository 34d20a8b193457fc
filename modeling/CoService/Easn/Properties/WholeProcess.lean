import CoService.Easn.Properties.Produced
import CoService.Easn.Properties.Resources
import CoService.Easn.Spec.Composition

/-!
# What the whole process does

* `sent_lastTopic` — the messages of the clients of all servers go to the topic of the last one
* `exists_quiet` — when nothing more comes, everything can be worked off
-/

namespace Easn

open Infra

namespace Process

variable {H Q : Type*} {lib : RdKafkaLib H} {queue : RdKafkaQueue Q}
  {contents : Q → List RdKafkaMessage} {payload : Q → List UInt8} {p p' : Process Q}
  {i : ProcessInput} {is : List ProcessInput}

/-! ## The topic -/

/-- The `pid` of a server that is created. -/
def pidOf : ProcessInput → Option String
  | .createServer _ pid => some pid
  | .created => none
  | .eventLoop => none
  | .start => none
  | .server _ => none
  | .queue _ _ => none

/-- The `pid`s of the servers, in the order of their creation. -/
def pids (is : List ProcessInput) : List String := is.filterMap pidOf

/-- The dispatcher is that of the server created last. -/
theorem manager_of_run (h : (machine lib queue).run is = some p) {pid : String}
    (hlast : (pids is).getLast? = some pid) : p.manager = createDispatcher .init pid := by
  refine Machine.invariant (P := fun is p => ∀ pid, (pids is).getLast? = some pid →
    p.manager = createDispatcher .init pid) ?_ ?_ h pid hlast
  · intro pid hnil
    simp [pids] at hnil
  · intro is p i p' _ ih hs pid hlast
    rw [pids, List.filterMap_append] at hlast
    cases step_acts hs with
    | createServer port pid' hphase =>
      have hpid : pid' = pid := by simpa [pidOf] using hlast
      rw [hpid]
      rfl
    | created port q q' hphase hq hs => exact ih pid (by simpa [pids, pidOf] using hlast)
    | returned hphase hnil => exact ih pid (by simpa [pids, pidOf] using hlast)
    | looping hphase hne => exact ih pid (by simpa [pids, pidOf] using hlast)
    | startDispatch k rest hphase hc => exact ih pid (by simpa [pids, pidOf] using hlast)
    | startServer port rest s hphase hs => exact ih pid (by simpa [pids, pidOf] using hlast)
    | server input rest s hphase hquiet hrest hs => exact ih pid (by simpa [pids, pidOf] using hlast)
    | queue k input q q' hq hs hinput hwake => exact ih pid (by simpa [pids, pidOf] using hlast)

/-- What the clients of all servers send to the dispatcher. -/
def dispatchedIn (lib : RdKafkaLib H) (queue : RdKafkaQueue Q) (is : List ProcessInput) :
    List DispatchCall :=
  Server.dispatchedIn ((machine lib queue).trace serverInputs is)

/--
**The clients of all servers write to one topic**, that of the server created last, through whichever
port they are connected. What is there is as for a single server.
-/
theorem sent_lastTopic (lib : RdKafkaLib H) (queue : RdKafkaQueue Q) {K : Type}
    (prod : RdKafkaProducer K) (headers : K → Ptr → Option RdKafkaHeaders)
    (produced : K → List ProducedMessage) (hdoc : prod.Documented headers produced)
    (is : List ProcessInput) (p : Process Q) (h : (machine lib queue).run is = some p) (pid : String)
    (hlast : (pids is).getLast? = some pid) :
    (∀ call ∈ dispatchedIn lib queue is, Dispatchable call) ↔
      ∃ k, (prod.producer p.manager).run (dispatchedIn lib queue is) = some k ∧
        RdKafkaProducer.Sent headers produced ("topic-send-" ++ pid)
          (prod.offeredIn p.manager ("topic-send-" ++ pid) (dispatchedIn lib queue is)) k := by
  have hdispatcher : p.manager.dispatcher = some ⟨"topic-send-" ++ pid⟩ := by
    rw [manager_of_run h hlast]
    rfl
  exact Server.sent_iff_dispatchable hdoc hdispatcher _

/-- Two servers. The clients of `twoClients` connect to the second one. -/
def twoServers : List ProcessInput :=
  [.createServer 40625 "first", .created, .createServer 40626 "mypid", .created, .eventLoop,
    .start, .start, .server (.coAccept none), .start, .start] ++ Server.twoClients.tail.map .server

theorem twoServers_isSome :
    ((machine rdkafka DispatchQueue.rdkafkaQueue).run twoServers).isSome = true := by decide +kernel

/-- The state after `twoServers`. -/
def servedTwo : Process (List RdKafkaMessage × List UInt8) :=
  ((machine rdkafka DispatchQueue.rdkafkaQueue).run twoServers).get twoServers_isSome

/-- The first server has a topic of its own, which stays empty. -/
theorem sent_lastTopic_twoServers :
    (∀ call ∈ dispatchedIn rdkafka DispatchQueue.rdkafkaQueue twoServers, Dispatchable call) ↔
      ∃ k, (rdkafkaProducer.producer servedTwo.manager).run
          (dispatchedIn rdkafka DispatchQueue.rdkafkaQueue twoServers) = some k ∧
        RdKafkaProducer.Sent ProducerState.headers ProducerState.produced ("topic-send-" ++ "mypid")
          (rdkafkaProducer.offeredIn servedTwo.manager ("topic-send-" ++ "mypid")
            (dispatchedIn rdkafka DispatchQueue.rdkafkaQueue twoServers)) k :=
  sent_lastTopic rdkafka DispatchQueue.rdkafkaQueue rdkafkaProducer _ _ documented_rdkafkaProducer
    twoServers servedTwo (Option.some_get twoServers_isSome).symm "mypid" (by decide)

/-! ## When nothing more comes -/

/-- No client connects, and no message comes. -/
def calm : ProcessInput → Bool
  | .createServer _ _ => true
  | .created => true
  | .eventLoop => true
  | .start => true
  | .server .resumeAccept => true
  | .server (.coAccept none) => true
  | .server (.coAccept (some _)) => false
  | .server (.wake _) => true
  | .server (.run _) => true
  | .queue _ (.enqueue _) => false
  | .queue _ .enable => true
  | .queue _ .wake => true
  | .queue _ .take => true

theorem calm_server {js : List Input} (h : Server.HangUps js) :
    ∀ i ∈ js.map ProcessInput.server, calm i = true := by
  intro i hi
  obtain ⟨j, hj, rfl⟩ := List.mem_map.mp hi
  cases j with
  | resumeAccept => rfl
  | coAccept connfd =>
    cases connfd with
    | none => rfl
    | some fd => exact absurd hj (h.noAccept fd)
  | wake _ => rfl
  | run _ => rfl

theorem calm_queue (k : Nat) {js : List (WakeupInput RdKafkaMessage)}
    (h : ∀ j ∈ js, WakeupQueue.isWork j = true) :
    ∀ i ∈ js.map (ProcessInput.queue k), calm i = true := by
  intro i hi
  obtain ⟨j, hj, rfl⟩ := List.mem_map.mp hi
  cases j with
  | enqueue msg => exact absurd (h _ hj) (by simp [WakeupQueue.isWork])
  | enable => rfl
  | wake => rfl
  | take => rfl

theorem calm_append {js ks : List ProcessInput} (hj : ∀ i ∈ js, calm i = true)
    (hk : ∀ i ∈ ks, calm i = true) : ∀ i ∈ js ++ ks, calm i = true :=
  fun i hi => (List.mem_append.mp hi).elim (hj i) (hk i)

/-- The process survives the messages that wait in its queues. -/
def Survives (lib : RdKafkaLib H) (contents : Q → List RdKafkaMessage) (p : Process Q) : Prop :=
  ∀ (j : Nat) (q : DispatchQueue Q), p.queues[j]? = some q →
    ∀ msg ∈ contents q.queueT, (handleMessage lib msg).returned = true

/-- One queue is worked off, while the server and the other queues are left alone. -/
theorem exists_queue_idle (hdoc : queue.Documented contents payload)
    (h : (machine lib queue).run is = some p) (hphase : p.phase = .looping [])
    (hmsgs : p.Survives lib contents) (hserver : p.server.control = .caller .eventLoop) {k : Nat}
    (hlt : k < p.queues.length) (hothers : ∀ (j : Nat) (q : DispatchQueue Q), j ≠ k →
      p.queues[j]? = some q → q.pc ≠ .draining) :
    ∃ js p', (machine lib queue).run (is ++ js) = some p' ∧ (∀ i ∈ js, calm i = true) ∧
      Consuming k p.server p.queues p' ∧ p'.Survives lib contents ∧
      ∀ q, p'.queues[k]? = some q → q.Idle := by
  have hview := (component_queue k).run_trace h
  rw [queueView_of_some (List.getElem?_eq_getElem hlt)] at hview
  obtain ⟨js, t, hwork, _, hrun, hidle, hleft⟩ :=
    DispatchQueue.exists_idle hdoc hview (hmsgs k _ (List.getElem?_eq_getElem hlt))
  obtain ⟨p', hrun', hview', hcons, _⟩ := (component_queue k).exists_run
    (follows_queue hserver hlt hothers) h ⟨hphase, rfl, rfl, fun _ _ => rfl⟩ hwork hrun
  refine ⟨_, p', hrun', calm_queue k hwork, hcons, fun j q hq => ?_, fun q hq => ?_⟩
  · by_cases hj : j = k
    · subst hj
      rw [queueView_of_some hq] at hview'
      rwa [hview']
    · rw [hcons.others_eq j hj] at hq
      exact hmsgs j q hq
  · rw [queueView_of_some hq] at hview'
    rwa [hview']

/-- The queue that is drained is worked off. -/
theorem exists_not_draining (hdoc : queue.Documented contents payload)
    (h : (machine lib queue).run is = some p) (hphase : p.phase = .looping [])
    (hmsgs : p.Survives lib contents) :
    ∃ js p', (machine lib queue).run (is ++ js) = some p' ∧ (∀ i ∈ js, calm i = true) ∧
      p'.phase = .looping [] ∧ p'.draining = false ∧ p'.Survives lib contents := by
  by_cases hnone : p.draining = false
  · exact ⟨[], p, by rwa [List.append_nil], by simp, hphase, hnone, hmsgs⟩
  · obtain ⟨k, q, hq, hpc⟩ : ∃ (k : Nat) (q : DispatchQueue Q),
        p.queues[k]? = some q ∧ q.pc = .draining := by
      by_contra hall
      refine hnone (draining_eq_false.mpr fun j q hq hpc => hall ⟨j, q, hq, hpc⟩)
    have hex := Exclusive.of_run h
    have hothers : ∀ (j : Nat) (r : DispatchQueue Q), j ≠ k → p.queues[j]? = some r →
        r.pc ≠ .draining := fun j r hj hr hpc' => hj (hex.one j k r q hr hq hpc' hpc)
    obtain ⟨js, p', hrun, hcalm, hcons, hmsgs', hidle⟩ := exists_queue_idle hdoc h hphase hmsgs
      (hex.loop k q hq hpc).2 (List.getElem?_eq_some_iff.mp hq).1 hothers
    refine ⟨js, p', hrun, hcalm, hcons.phase, draining_eq_false.mpr fun j r hr => ?_, hmsgs'⟩
    by_cases hj : j = k
    · subst hj
      exact (hidle r hr).1
    · exact hothers j r hj (hcons.others_eq j hj ▸ hr)

/-- The clients hang up. -/
theorem exists_server_rested (h : (machine lib queue).run is = some p)
    (hphase : p.phase = .looping []) (hnone : p.draining = false) :
    ∃ js p', (machine lib queue).run (is ++ js) = some p' ∧ (∀ i ∈ js, calm i = true) ∧
      Serving p.queues p' ∧ p'.server.Rested := by
  have hne := (Booted.of_run h).looping [] hphase
  obtain ⟨js, t, hrun, hno, hrested⟩ := Server.exists_rested (component_server.run_trace h)
  obtain ⟨p', hrun', hview, hserving, _⟩ := component_server.exists_run (follows_server p.queues) h
    ⟨hphase, hne, rfl, hnone⟩ (fun _ _ => trivial) hrun
  refine ⟨_, p', hrun', calm_server hno, hserving, ?_⟩
  rw [serverView_of_ne hserving.nonempty] at hview
  rwa [hview]

/-- The queues are worked off one after the other. -/
theorem exists_queues_idle (hdoc : queue.Documented contents payload)
    (h : (machine lib queue).run is = some p) (hphase : p.phase = .looping [])
    (hmsgs : p.Survives lib contents) (hserver : p.server.control = .caller .eventLoop)
    (hnone : p.draining = false) (n : Nat) (hn : n ≤ p.queues.length) :
    ∃ js p', (machine lib queue).run (is ++ js) = some p' ∧ (∀ i ∈ js, calm i = true) ∧
      Serving p'.queues p' ∧ p'.server = p.server ∧ p'.queues.length = p.queues.length ∧
      p'.Survives lib contents ∧
      ∀ (j : Nat) (q : DispatchQueue Q), j < n → p'.queues[j]? = some q → q.Idle := by
  induction n with
  | zero =>
    have hne := (Booted.of_run h).looping [] hphase
    exact ⟨[], p, by rwa [List.append_nil], by simp, ⟨hphase, hne, rfl, hnone⟩, rfl, rfl, hmsgs,
      by simp⟩
  | succ n ih =>
    obtain ⟨js, p₁, hrun, hcalm, hserving, hserver₁, hlen, hmsgs₁, hidle⟩ := ih (by omega)
    have hnone₁ := draining_eq_false.mp hserving.quiet
    obtain ⟨ks, p', hrun', hcalm', hcons, hmsgs', hidle'⟩ := exists_queue_idle hdoc hrun
      hserving.phase hmsgs₁ (hserver₁ ▸ hserver) (show n < p₁.queues.length by omega)
      fun j q _ hq => hnone₁ j q hq
    have hall : ∀ (j : Nat) (q : DispatchQueue Q), p'.queues[j]? = some q →
        q.pc ≠ .draining ∧ (j < n + 1 → q.Idle) := by
      intro j q hq
      by_cases hj : j = n
      · subst hj
        have hq' := hidle' q hq
        exact ⟨hq'.1, fun _ => hq'⟩
      · rw [hcons.others_eq j hj] at hq
        exact ⟨hnone₁ j q hq, fun hlt => hidle j q (by omega) hq⟩
    refine ⟨js ++ ks, p', by rwa [← List.append_assoc], calm_append hcalm hcalm', ⟨hcons.phase, ?_,
      rfl, draining_eq_false.mpr fun j q hq => (hall j q hq).1⟩, hcons.server_eq.trans hserver₁,
      hcons.length_eq.trans hlen, hmsgs', fun j q hj hq => (hall j q hq).2 hj⟩
    exact (Booted.of_run hrun').looping [] hcons.phase

/-- Everything is worked off. -/
structure Quiet (p : Process Q) : Prop where
  rested : p.server.Rested
  idle : ∀ (k : Nat) (q : DispatchQueue Q), p.queues[k]? = some q → q.Idle

/-- A queue where nothing is left to do has been handled, if no message came too early. -/
theorem destroyed_of_idle (hdoc : queue.Documented contents payload)
    (h : (machine lib queue).run is = some p) (hphase : p.phase = .looping []) (fd : Int) {k : Nat}
    {q : DispatchQueue Q} (hq : p.queues[k]? = some q) (hidle : q.Idle)
    (hearly : DispatchQueue.receivedEarly ((machine lib queue).trace (queueInputs k) is) = []) :
    destroyed (DispatchQueue.eventsIn lib queue fd ((machine lib queue).trace (queueInputs k) is))
      = DispatchQueue.received ((machine lib queue).trace (queueInputs k) is) := by
  have hrun := (component_queue k).run_trace h
  rw [queueView_of_some hq] at hrun
  have hpc : q.pc ≠ .setup := by
    intro hpc
    obtain ⟨⟨port, hcreating⟩, _⟩ := Enabled.of_run h k q hq hpc
    simp [hphase] at hcreating
  rw [DispatchQueue.destroyed_eventsIn fd hdoc hrun]
  exact (WakeupQueue.taken_eq_enqueued_iff (DispatchQueue.run_view hdoc hrun) hpc
    (DispatchQueue.idle_view.mpr hidle)).mpr hearly

/--
**When nothing more comes, the process can work everything off.**

From every state of the event loop, if the messages that wait are survived, there is a continuation to
one where all clients are gone, all tasks are idle and no descriptor is open, and where the coroutines
of the queues wait. Each queue where no message came too early has been handled completely.
-/
theorem exists_quiet (lib : RdKafkaLib H) (queue : RdKafkaQueue Q)
    (contents : Q → List RdKafkaMessage) (payload : Q → List UInt8)
    (hdoc : queue.Documented contents payload) (is : List ProcessInput) (p : Process Q)
    (h : (machine lib queue).run is = some p) (hphase : p.phase = .looping [])
    (hmsgs : p.Survives lib contents) :
    ∃ js p', (machine lib queue).run (is ++ js) = some p' ∧ (∀ i ∈ js, calm i = true) ∧ p'.Quiet ∧
      ∀ (fd : Int) (k : Nat), k < p'.queues.length →
        DispatchQueue.receivedEarly ((machine lib queue).trace (queueInputs k) (is ++ js)) = [] →
        destroyed (DispatchQueue.eventsIn lib queue fd
            ((machine lib queue).trace (queueInputs k) (is ++ js)))
          = DispatchQueue.received ((machine lib queue).trace (queueInputs k) (is ++ js)) := by
  obtain ⟨js₁, p₁, hrun₁, hcalm₁, hphase₁, hnone₁, hmsgs₁⟩ := exists_not_draining hdoc h hphase hmsgs
  obtain ⟨js₂, p₂, hrun₂, hcalm₂, hserving, hrested⟩ := exists_server_rested hrun₁ hphase₁ hnone₁
  have hmsgs₂ : p₂.Survives lib contents := fun j q hq => hmsgs₁ j q (hserving.queues_eq ▸ hq)
  obtain ⟨js₃, p', hrun₃, hcalm₃, hserving', hserver, hlen, _, hidle⟩ := exists_queues_idle hdoc hrun₂
    hserving.phase hmsgs₂ hrested.control hserving.quiet p₂.queues.length (Nat.le_refl _)
  have hidle' : ∀ (k : Nat) (q : DispatchQueue Q), p'.queues[k]? = some q → q.Idle :=
    fun k q hq => hidle k q (hlen ▸ (List.getElem?_eq_some_iff.mp hq).1) hq
  rw [List.append_assoc, List.append_assoc] at hrun₃
  refine ⟨js₁ ++ (js₂ ++ js₃), p', hrun₃, calm_append hcalm₁ (calm_append hcalm₂ hcalm₃),
    ⟨hserver ▸ hrested, hidle'⟩, fun fd k hk hearly => ?_⟩
  have hq := List.getElem?_eq_getElem hk
  exact destroyed_of_idle hdoc hrun₃ hserving'.phase fd hq (hidle' k _ hq) hearly

/-- A message has woken the coroutine of the only queue. -/
def oneMessage : List ProcessInput :=
  [.createServer 40625 "mypid", .created, .eventLoop, .start, .start, .server (.coAccept none),
    .queue 0 (.enqueue (dataMessage 1)), .queue 0 .wake]

/-- The state after `oneMessage`. -/
def woken : Process (List RdKafkaMessage × List UInt8) where
  phase := .looping []
  manager := createDispatcher .init "mypid"
  customerChennelList := [.dispatch 0, .server 40625]
  queues := [⟨.draining, ([dataMessage 1], DispatchQueue.dot), []⟩]
  server := .init

theorem survives_woken : woken.Survives rdkafka Prod.fst := by
  have hall : ∀ q ∈ woken.queues, ∀ msg ∈ q.queueT.1,
      (handleMessage rdkafka msg).returned = true := by decide
  exact fun _ q hq => hall q (List.mem_of_getElem? hq)

theorem exists_quiet_oneMessage :
    ∃ js p', (machine rdkafka DispatchQueue.rdkafkaQueue).run (oneMessage ++ js) = some p' ∧
      (∀ i ∈ js, calm i = true) ∧ p'.Quiet ∧
      ∀ (fd : Int) (k : Nat), k < p'.queues.length →
        DispatchQueue.receivedEarly ((machine rdkafka DispatchQueue.rdkafkaQueue).trace
          (queueInputs k) (oneMessage ++ js)) = [] →
        destroyed (DispatchQueue.eventsIn rdkafka DispatchQueue.rdkafkaQueue fd
            ((machine rdkafka DispatchQueue.rdkafkaQueue).trace (queueInputs k) (oneMessage ++ js)))
          = DispatchQueue.received
            ((machine rdkafka DispatchQueue.rdkafkaQueue).trace (queueInputs k) (oneMessage ++ js)) :=
  exists_quiet rdkafka DispatchQueue.rdkafkaQueue Prod.fst Prod.snd
    DispatchQueue.documented_rdkafkaQueue oneMessage woken rfl rfl survives_woken

end Process

end Easn
