import CoService.Easn.Process

/-!
# The process is made of the server and the queues

* `component_server`, `component_queue` — a run of the process is a run of the server, and one of each
  queue, so that what is proved about their runs holds in the process
* `follows_server`, `follows_queue` — what a component can do next, the process can do, when no other
  coroutine has control

`Inv` says in which phases the components may move at all.
-/

namespace Easn

open Infra

namespace Process

variable {H Q : Type*} {lib : RdKafkaLib H} {queue : RdKafkaQueue Q} {p p' : Process Q}
  {i : ProcessInput}

/-- The steps of the server. Until the first `init` there is none. -/
def serverInputs (p : Process Q) : ProcessInput → List Input
  | .start =>
    match p.phase with
    | .looping (.server _ :: _) => [.resumeAccept]
    | _ => []
  | .server input => [input]
  | _ => []

/-- The steps at the queue of the `k`-th `dispatch_channel`. -/
def queueInputs (k : Nat) (p : Process Q) : ProcessInput → List (WakeupInput RdKafkaMessage)
  | .created => if k = p.queues.length - 1 then [.enable] else []
  | .queue j input => if j = k then [input] else []
  | _ => []

/-- The server as its coroutines find it. -/
def serverView (p : Process Q) : Server :=
  if p.customerChennelList = [] then .init else p.server

/-- The queue of the `k`-th `dispatch_channel`, which is empty before the channel is created. -/
def queueView (queue : RdKafkaQueue Q) (k : Nat) (p : Process Q) : DispatchQueue Q :=
  p.queues.getD k (.init queue)

/-! ## Who has control -/

theorem draining_eq_false : p.draining = false ↔
    ∀ (j : Nat) (q : DispatchQueue Q), p.queues[j]? = some q → q.pc ≠ .draining := by
  rw [draining, List.any_eq_false]
  simp only [decide_eq_true_eq]
  refine ⟨fun h j q hq => h q (List.mem_of_getElem? hq), fun h q hq => ?_⟩
  obtain ⟨j, hj⟩ := List.mem_iff_getElem?.mp hq
  exact h j q hj

/-- One coroutine of a `dispatch_channel` has control at most, and then no coroutine of the server
has it. -/
structure Exclusive (p : Process Q) : Prop where
  loop : ∀ (j : Nat) (q : DispatchQueue Q), p.queues[j]? = some q → q.pc = .draining →
    p.phase = .looping [] ∧ p.server.control = .caller .eventLoop
  one : ∀ (j k : Nat) (q q' : DispatchQueue Q), p.queues[j]? = some q →
    p.queues[k]? = some q' → q.pc = .draining → q'.pc = .draining → j = k

namespace Exclusive

theorem of_not_draining (h : p.draining = false) : p.Exclusive where
  loop j q hq hpc := absurd hpc (draining_eq_false.mp h j q hq)
  one j _ q _ hq _ hpc _ := absurd hpc (draining_eq_false.mp h j q hq)

/-- In a phase in which no coroutine of a `dispatch_channel` runs. -/
theorem not_draining (h : p.Exclusive) (hphase : p.phase ≠ .looping []) : p.draining = false :=
  draining_eq_false.mpr fun j q hq hpc => hphase (h.loop j q hq hpc).1

/-- A queue that is draining was draining before, or it was woken now. -/
theorem pc_of_step {q q' : DispatchQueue Q} {input : WakeupInput RdKafkaMessage}
    (hs : q.step lib queue input = some q') (hpc : q'.pc = .draining) :
    input = .wake ∨ q.pc = .draining := by
  cases DispatchQueue.step_acts hs with
  | enqueue a => exact Or.inr hpc
  | enable _ => simp at hpc
  | wake _ _ => exact Or.inl rfl
  | take hd _ _ _ => exact Or.inr hd
  | stop _ _ => simp at hpc

/-- What is draining after a step at one queue. -/
theorem draining_set {queues : List (DispatchQueue Q)} {j k : Nat}
    {q q' r : DispatchQueue Q} {input : WakeupInput RdKafkaMessage}
    (hq : queues[k]? = some q) (hs : q.step lib queue input = some q')
    (hr : (queues.set k q')[j]? = some r) (hpc : r.pc = .draining) :
    input = .wake ∧ j = k ∨ ∃ r', queues[j]? = some r' ∧ r'.pc = .draining := by
  by_cases hkj : k = j
  · subst hkj
    have hlt : k < queues.length := (List.getElem?_eq_some_iff.mp hq).1
    rw [List.getElem?_set_self hlt] at hr
    obtain rfl := Option.some.inj hr
    rcases pc_of_step hs hpc with hwake | hold
    · exact Or.inl ⟨hwake, rfl⟩
    · exact Or.inr ⟨q, hq, hold⟩
  · rw [List.getElem?_set_ne hkj] at hr
    exact Or.inr ⟨r, hr, hpc⟩

theorem init : (Process.init : Process Q).Exclusive := of_not_draining rfl

/-- **A step keeps control with one coroutine.** -/
theorem acts (h : p.Exclusive) (ha : Acts lib queue p i p') : p'.Exclusive := by
  cases ha with
  | createServer port pid hphase =>
    have hnone := h.not_draining (by simp [hphase])
    refine of_not_draining ?_
    rw [draining] at hnone ⊢
    rw [List.any_append, hnone]
    rfl
  | created port q q' hphase hq hs =>
    have hnone := draining_eq_false.mp (h.not_draining (by simp [hphase]))
    refine of_not_draining (draining_eq_false.mpr fun j r hr hpc => ?_)
    rcases draining_set hq hs hr hpc with ⟨hwake, _⟩ | ⟨r', hr', hpc'⟩
    · simp at hwake
    · exact hnone j r' hr' hpc'
  | returned hphase hnil => exact of_not_draining (h.not_draining (by simp [hphase]))
  | looping hphase hne => exact of_not_draining (h.not_draining (by simp [hphase]))
  | startDispatch k rest hphase hc => exact of_not_draining (h.not_draining (by simp [hphase]))
  | startServer port rest s hphase hs => exact of_not_draining (h.not_draining (by simp [hphase]))
  | server input rest s hphase hquiet hrest hs => exact of_not_draining hquiet
  | queue k input q q' hq hs hinput hwake =>
    refine ⟨fun j r hr hpc => ?_, fun j l r r' hr hr' hpc hpc' => ?_⟩
    · rcases draining_set hq hs hr hpc with ⟨hw, _⟩ | ⟨r₀, hr₀, hpc₀⟩
      · exact ⟨(hwake hw).1, (hwake hw).2.1⟩
      · exact h.loop j r₀ hr₀ hpc₀
    · rcases draining_set hq hs hr hpc with ⟨hw, hj⟩ | ⟨r₀, hr₀, hpc₀⟩ <;>
        rcases draining_set hq hs hr' hpc' with ⟨hw', hl⟩ | ⟨r₁, hr₁, hpc₁⟩
      · exact hj.trans hl.symm
      · exact absurd hpc₁ (draining_eq_false.mp (hwake hw).2.2 l r₁ hr₁)
      · exact absurd hpc₀ (draining_eq_false.mp (hwake hw').2.2 j r₀ hr₀)
      · exact h.one j l r₀ r₁ hr₀ hr₁ hpc₀ hpc₁

theorem of_run {is : List ProcessInput} (h : (machine lib queue).run is = some p) : p.Exclusive :=
  Machine.invariant (P := fun _ p => p.Exclusive) init
    (fun _ _ _ _ _ hex hs => hex.acts (step_acts hs)) h

end Exclusive

/-! ## Before the loop -/

/-- No channel is started. -/
def Booting (p : Process Q) : Prop := p.phase = .main ∨ ∃ port, p.phase = .creating port

/-- Until the channels are started the server is as `init` leaves it, and there is a channel to
start. -/
structure Booted (p : Process Q) : Prop where
  booting : p.Booting → { p.server with pool := .init } = Server.init ∧
    (p.customerChennelList ≠ [] → p.server = Server.init)
  looping : ∀ rest, p.phase = .looping rest → p.customerChennelList ≠ []

namespace Booted

theorem init : (Process.init : Process Q).Booted where
  booting _ := ⟨rfl, fun h => absurd rfl h⟩
  looping rest h := by simp [Process.init] at h

theorem acts (h : p.Booted) (ha : Acts lib queue p i p') : p'.Booted := by
  cases ha with
  | createServer port pid hphase =>
    exact ⟨fun _ => h.booting (Or.inl hphase), fun rest hrest => by simp at hrest⟩
  | created port q q' hphase hq hs =>
    have hserver := (h.booting (Or.inr ⟨port, hphase⟩)).1
    exact ⟨fun _ => ⟨hserver, fun _ => hserver⟩, fun rest hrest => by simp at hrest⟩
  | returned hphase hnil =>
    exact ⟨fun hb => by simp [Booting] at hb, fun rest hrest => by simp at hrest⟩
  | looping hphase hne => exact ⟨fun hb => by simp [Booting] at hb, fun _ _ => hne⟩
  | startDispatch k rest hphase hc =>
    exact ⟨fun hb => by simp [Booting] at hb, fun _ _ => h.looping _ hphase⟩
  | startServer port rest s hphase hs =>
    exact ⟨fun hb => by simp [Booting] at hb, fun _ _ => h.looping _ hphase⟩
  | server input rest s hphase hquiet hrest hs =>
    exact ⟨fun hb => by simp [Booting, hphase] at hb, h.looping⟩
  | queue k input q q' hq hs hinput hwake => exact ⟨h.booting, h.looping⟩

theorem of_run {is : List ProcessInput} (h : (machine lib queue).run is = some p) : p.Booted :=
  Machine.invariant (P := fun _ p => p.Booted) init
    (fun _ _ _ _ _ hbooted hs => hbooted.acts (step_acts hs)) h

end Booted

/-- A queue whose event is not enabled is that of the channel that is being created. -/
def Enabled (p : Process Q) : Prop :=
  ∀ (j : Nat) (q : DispatchQueue Q), p.queues[j]? = some q → q.pc = .setup →
    (∃ port, p.phase = .creating port) ∧ j = p.queues.length - 1

namespace Enabled

theorem acts (h : p.Enabled) (ha : Acts lib queue p i p') : p'.Enabled := by
  -- outside of `create_server` there is none
  have hnone : (∀ port, p.phase ≠ .creating port) → ∀ (j : Nat) (q : DispatchQueue Q),
      p.queues[j]? = some q → q.pc ≠ .setup := fun hphase j q hq hpc =>
    (h j q hq hpc).1.elim hphase
  cases ha with
  | createServer port pid hphase =>
    intro j q hq hpc
    refine ⟨⟨port, rfl⟩, ?_⟩
    rcases Nat.lt_or_ge j p.queues.length with hlt | hge
    · rw [List.getElem?_append_left hlt] at hq
      exact absurd hpc (hnone (by simp [hphase]) j q hq)
    · have hlt := (List.getElem?_eq_some_iff.mp hq).1
      simp only [List.length_append, List.length_singleton] at hlt ⊢
      omega
  | created port q q' hphase hq hs =>
    intro j r hr hpc
    have hne : j ≠ p.queues.length - 1 := by
      rintro rfl
      rw [List.getElem?_set_self (List.getElem?_eq_some_iff.mp hq).1] at hr
      obtain rfl := Option.some.inj hr
      cases DispatchQueue.step_acts hs with
      | enable _ => simp at hpc
    rw [List.getElem?_set_ne hne.symm] at hr
    exact absurd (h j r hr hpc).2 hne
  | returned hphase hnil =>
    exact fun j q hq hpc => absurd hpc (hnone (by simp [hphase]) j q hq)
  | looping hphase hne =>
    exact fun j q hq hpc => absurd hpc (hnone (by simp [hphase]) j q hq)
  | startDispatch k rest hphase hc =>
    exact fun j q hq hpc => absurd hpc (hnone (by simp [hphase]) j q hq)
  | startServer port rest s hphase hs =>
    exact fun j q hq hpc => absurd hpc (hnone (by simp [hphase]) j q hq)
  | server input rest s hphase hquiet hrest hs => exact h
  | queue k input q q' hq hs hinput hwake =>
    intro j r hr hpc
    rw [List.length_set]
    by_cases hkj : k = j
    · subst hkj
      rw [List.getElem?_set_self (List.getElem?_eq_some_iff.mp hq).1] at hr
      obtain rfl := Option.some.inj hr
      cases DispatchQueue.step_acts hs with
      | enqueue a => exact h k q hq hpc
      | enable _ => simp at hpc
      | wake _ _ => simp at hpc
      | take hd _ _ _ => simp [hd] at hpc
      | stop _ _ => simp at hpc
    · rw [List.getElem?_set_ne hkj] at hr
      exact h j r hr hpc

theorem of_run {is : List ProcessInput} (h : (machine lib queue).run is = some p) : p.Enabled :=
  Machine.invariant (P := fun _ p => p.Enabled) (fun j q hq => by simp [machine, Process.init] at hq)
    (fun _ _ _ _ _ hen hs => hen.acts (step_acts hs)) h

end Enabled

/-! ## The components -/

theorem serverView_of_ne (h : p.customerChennelList ≠ []) : p.serverView = p.server := if_neg h

theorem serverView_update (h : p.customerChennelList ≠ []) (phase : Phase) (s : Server) :
    ({ p with phase := phase, server := s } : Process Q).serverView = s := if_neg h

/-- Before the loop the coroutines find the server as `init` leaves it. -/
theorem Booted.serverView_eq (h : p.Booted) (hb : p.Booting) : p.serverView = Server.init := by
  unfold serverView
  split
  · rfl
  · next hne => exact (h.booting hb).2 hne

/-- **The server is a component of the process.** -/
theorem component_server :
    (machine lib queue).Component Server.machine serverView serverInputs where
  init := rfl
  step is p i p' hrun hstep := by
    have hbooted := Booted.of_run hrun
    cases step_acts hstep with
    | createServer port pid hphase => rfl
    | created port q q' hphase hq hs =>
      have hb : p.Booting := Or.inr ⟨port, hphase⟩
      rw [hbooted.serverView_eq hb, serverView_of_ne (by simp)]
      exact congrArg some (hbooted.booting hb).1.symm
    | returned hphase hnil => rfl
    | looping hphase hne => rfl
    | startDispatch k rest hphase hc =>
      simp only [serverInputs, hphase]
      rfl
    | startServer port rest s hphase hs =>
      have hne := hbooted.looping _ hphase
      rw [serverView_of_ne hne]
      simp only [serverInputs, hphase]
      exact Option.bind_eq_some_iff.mpr ⟨s, hs, congrArg some (serverView_update hne _ s).symm⟩
    | server input rest s hphase hquiet hrest hs =>
      have hne := hbooted.looping _ hphase
      rw [serverView_of_ne hne]
      exact Option.bind_eq_some_iff.mpr ⟨s, hs, congrArg some (serverView_update hne _ s).symm⟩
    | queue k input q q' hq hs hinput hwake => rfl

theorem queueView_of_some {k : Nat} {q : DispatchQueue Q} (h : p.queues[k]? = some q) :
    p.queueView queue k = q := by
  rw [queueView, List.getD_eq_getElem?_getD, h, Option.getD_some]

/-- A step at one queue, as the others see it. -/
theorem queueView_set {j k : Nat} {q' : DispatchQueue Q} (hjk : j ≠ k)
    (hp : p'.queues = p.queues.set j q') : p'.queueView queue k = p.queueView queue k := by
  rw [queueView, queueView, List.getD_eq_getElem?_getD, List.getD_eq_getElem?_getD, hp,
    List.getElem?_set_ne hjk]

/-- A step at one queue. -/
theorem queueView_set_self {k : Nat} {q q' : DispatchQueue Q}
    (hq : p.queues[k]? = some q) (hp : p'.queues = p.queues.set k q') :
    p'.queueView queue k = q' := by
  refine queueView_of_some ?_
  rw [hp, List.getElem?_set_self (List.getElem?_eq_some_iff.mp hq).1]

/-- The queue of a channel that is only now created was empty before. -/
theorem queueView_append_init (k : Nat) (hp : p'.queues = p.queues ++ [.init queue]) :
    p'.queueView queue k = p.queueView queue k := by
  rw [queueView, queueView, List.getD_eq_getElem?_getD, List.getD_eq_getElem?_getD, hp]
  by_cases hlt : k < p.queues.length
  · rw [List.getElem?_append_left hlt]
  · have hnone : p.queues[k]? = none := List.getElem?_eq_none (by omega)
    rw [List.getElem?_append_right (by omega), hnone]
    cases k - p.queues.length <;> rfl

/-- **The queue of each `dispatch_channel` is a component of the process.** -/
theorem component_queue (k : Nat) :
    (machine lib queue).Component (DispatchQueue.machine lib queue) (queueView queue k)
      (queueInputs k) where
  init := rfl
  step is p i p' hrun hstep := by
    cases step_acts hstep with
    | createServer port pid hphase => exact congrArg some (queueView_append_init k rfl).symm
    | created port q q' hphase hq hs =>
      simp only [queueInputs]
      split
      · next hk =>
        subst hk
        rw [queueView_of_some hq, queueView_set_self hq rfl]
        exact Option.bind_eq_some_iff.mpr ⟨q', hs, rfl⟩
      · next hk => exact congrArg some (queueView_set (Ne.symm hk) rfl).symm
    | returned hphase hnil => rfl
    | looping hphase hne => rfl
    | startDispatch j rest hphase hc => rfl
    | startServer port rest s hphase hs => rfl
    | server input rest s hphase hquiet hrest hs => rfl
    | queue j input q q' hq hs hinput hwake =>
      simp only [queueInputs]
      split
      · next hj =>
        subst hj
        rw [queueView_of_some hq, queueView_set_self hq rfl]
        exact Option.bind_eq_some_iff.mpr ⟨q', hs, rfl⟩
      · next hj => exact congrArg some (queueView_set hj rfl).symm

/-! ## What a component can do next -/

/-- In the event loop, with the queues as given. -/
structure Serving (queues : List (DispatchQueue Q)) (p : Process Q) : Prop where
  phase : p.phase = .looping []
  nonempty : p.customerChennelList ≠ []
  queues_eq : p.queues = queues
  quiet : p.draining = false

/-- **While no queue is drained, the process can do what the server can do.** -/
theorem follows_server (queues : List (DispatchQueue Q)) :
    (machine lib queue).Follows Server.machine serverView serverInputs (Serving queues)
      (fun _ => True) .server where
  step p j s h _ hs := by
    rw [serverView_of_ne h.nonempty] at hs
    refine ⟨{ p with server := s }, ?_, serverView_of_ne h.nonempty,
      ⟨h.phase, h.nonempty, h.queues_eq, h.quiet⟩⟩
    have hserver : p.stepServer j = some { p with server := s } := stepServer_eq_some.mpr ⟨s, hs, rfl⟩
    show p.step lib queue (.server j) = _
    rw [← hserver]
    simp [step, h.phase, h.quiet]
  inputs p j _ _ := rfl

/-- In the event loop, with the server as given, and with all queues but one as given and not
drained. -/
structure Consuming (k : Nat) (server : Server) (queues : List (DispatchQueue Q))
    (p : Process Q) : Prop where
  phase : p.phase = .looping []
  server_eq : p.server = server
  length_eq : p.queues.length = queues.length
  others_eq : ∀ j, j ≠ k → p.queues[j]? = queues[j]?

/-- **While the server and the other queues wait, the process can do what a queue can do.** -/
theorem follows_queue {k : Nat} {server : Server} {queues : List (DispatchQueue Q)}
    (hserver : server.control = .caller .eventLoop) (hlt : k < queues.length)
    (hquiet : ∀ (j : Nat) (q : DispatchQueue Q), j ≠ k → queues[j]? = some q →
      q.pc ≠ .draining) :
    (machine lib queue).Follows (DispatchQueue.machine lib queue) (queueView queue k)
      (queueInputs k) (Consuming k server queues) (fun j => WakeupQueue.isWork j = true)
      (.queue k) where
  step p j t h hj hs := by
    obtain ⟨q, hq⟩ : ∃ q, p.queues[k]? = some q :=
      ⟨_, List.getElem?_eq_getElem (h.length_eq ▸ hlt)⟩
    rw [queueView_of_some hq] at hs
    have hstep : p.stepQueue lib queue k j = some { p with queues := p.queues.set k t } :=
      stepQueue_eq_some.mpr ⟨q, t, hq, hs, rfl⟩
    refine ⟨{ p with queues := p.queues.set k t }, ?_, queueView_set_self hq rfl,
      ⟨h.phase, h.server_eq, by simpa using h.length_eq, fun l hl => ?_⟩⟩
    · cases j with
      | enqueue msg => simp [WakeupQueue.isWork] at hj
      | enable => simp [WakeupQueue.isWork] at hj
      | wake =>
        have hnone : p.draining = false := by
          refine draining_eq_false.mpr fun l r hr hpc => ?_
          by_cases hl : l = k
          · subst hl
            obtain rfl := Option.some.inj (hq.symm.trans hr)
            have hwake : q.step lib queue .wake = some t := hs
            cases DispatchQueue.step_acts hwake with
            | wake hwaiting _ => simp [hpc] at hwaiting
          · exact hquiet l r hl ((h.others_eq l hl).symm.trans hr) hpc
        show p.step lib queue (.queue k .wake) = _
        rw [step, if_pos ⟨h.phase, by rw [h.server_eq, hserver], hnone⟩, hstep]
      | take => exact hstep
    · rw [← h.others_eq l hl]
      exact List.getElem?_set_ne (Ne.symm hl)
  inputs p j _ _ := by simp [queueInputs]

end Process

end Easn
