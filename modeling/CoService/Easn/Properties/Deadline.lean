import CoService.Easn.Session

/-!
# The authentication deadline

A session that is not authenticated waits for what is left of `TIMEOUT` seconds and is closed when
nothing is left. What is left is computed in 64 bits and stored in an `int32_t`, so a clock that
goes far ahead can make it positive again.

* `toInt_timeoutLeft` — what is stored, as a balanced residue
* `timeoutLeft_le_zero_iff` — when a deadline that has passed is seen
* `deadline_iff` — every turn of a run meets the deadline, exactly when no head of the loop computes
  a product that is stored as a positive number though the deadline has passed
-/

namespace Easn

open Infra

/-! ## The arithmetic -/

theorem toInt_timeout : timeout.toInt = 10 := by decide

theorem toInt_ofInt_reading {x : Int} (h0 : 0 ≤ x) (hlt : x < 2 ^ 31) :
    (Int32.ofInt x).toInt = x :=
  Int32.toInt_ofInt_of_le (by omega) hlt

/-- The seconds that are left, in `int` arithmetic. -/
theorem toInt_secondsLeft {accept now : Int} (h0 : 0 ≤ accept) (hle : accept ≤ now)
    (hlt : now < 2 ^ 31) :
    (timeout - (Int32.ofInt now - Int32.ofInt accept)).toInt = 10 - (now - accept) := by
  have helapsed : (Int32.ofInt now - Int32.ofInt accept).toInt = now - accept := by
    rw [Int32.toInt_sub, toInt_ofInt_reading (by omega) hlt, toInt_ofInt_reading h0 (by omega)]
    exact Int.bmod_eq_of_le (by omega) (by omega)
  rw [Int32.toInt_sub, helapsed, toInt_timeout]
  exact Int.bmod_eq_of_le (by omega) (by omega)

/-- **What is stored in `timeout_left`.** -/
theorem toInt_timeoutLeft {accept now : Int} (h0 : 0 ≤ accept) (hle : accept ≤ now)
    (hlt : now < 2 ^ 31) :
    (timeoutLeft (Int32.ofInt accept) (Int32.ofInt now)).toInt
      = ((10 - (now - accept)) * 1000).bmod (2 ^ 32) := by
  rw [timeoutLeft, toInt_secondsLeft h0 hle hlt, Int32.toInt_ofInt]
  rfl

/-- Before the deadline the product fits. -/
theorem toInt_timeoutLeft_of_lt {accept now : Int} (h0 : 0 ≤ accept) (hle : accept ≤ now)
    (hlt : now < 2 ^ 31) (h : now - accept < 10) :
    (timeoutLeft (Int32.ofInt accept) (Int32.ofInt now)).toInt = (10 - (now - accept)) * 1000 := by
  rw [toInt_timeoutLeft h0 hle hlt]
  exact Int.bmod_eq_of_le (by omega) (by omega)

/-- The balanced residue of a negative number is positive for the upper half of the residues. -/
theorem bmod_neg_le_zero_iff {x : Int} : (-x).bmod (2 ^ 32) ≤ 0 ↔ x % 2 ^ 32 ≤ 2 ^ 31 := by
  unfold Int.bmod
  simp only []
  split <;> omega

/-- The deadline has not passed, or what is stored says that it has. -/
def SeesDeadline (elapsed : Int) : Prop :=
  elapsed < timeout.toInt ∨ (elapsed - timeout.toInt) * 1000 % 2 ^ 32 ≤ 2 ^ 31

theorem timeoutLeft_le_zero_iff {accept now : Int} (h0 : 0 ≤ accept) (hle : accept ≤ now)
    (hlt : now < 2 ^ 31) (h : 10 ≤ now - accept) :
    timeoutLeft (Int32.ofInt accept) (Int32.ofInt now) ≤ 0 ↔ SeesDeadline (now - accept) := by
  have hneg : (10 - (now - accept)) * 1000 = -((now - accept - 10) * 1000) := by omega
  rw [Int32.le_iff_toInt_le, toInt_timeoutLeft h0 hle hlt, SeesDeadline, toInt_timeout, hneg]
  show Int.bmod _ _ ≤ 0 ↔ _
  rw [bmod_neg_le_zero_iff]
  exact ⟨Or.inr, fun hsees => hsees.resolve_left (by omega)⟩

/-! ## What a turn does about it -/

/-- The timeouts that `co_poll` is given. -/
def polls (events : List SessionEvent) : List Int32 :=
  events.filterMap fun
    | .poll left => some left
    | _ => none

/-- The read ends the session of an authenticated client: it returned 0, or failed with something
other than `EAGAIN`. -/
def ReadResult.Ends : ReadResult → Prop
  | .ok buf => buf.bytes = []
  | .error errno => errno ≠ eagain

/-- What the deadline asks of a turn that begins with the session. -/
structure MeetsDeadline (fd : Int) (accept : Int) (session : EasnConnT) (t : Turn) : Prop where
  waits : session.auth = 0 → ∀ left ∈ polls (turnEvents fd (Int32.ofInt accept) session t),
    t.now - accept < timeout.toInt ∧ 0 < left ∧ left.toInt ≤ timeout.toInt * 1000
  closes : session.auth = 0 → timeout.toInt ≤ t.now - accept →
    turnEvents fd (Int32.ofInt accept) session t = [.close fd]
  forever : session.auth ≠ 0 → polls (turnEvents fd (Int32.ofInt accept) session t) = [-1]
  stays : session.auth ≠ 0 → .close fd ∈ turnEvents fd (Int32.ofInt accept) session t →
    t.read.Ends

section

variable {fd : Int} {accept : Int} {session : EasnConnT} {t : Turn}

theorem polls_append (es es' : List SessionEvent) : polls (es ++ es') = polls es ++ polls es' :=
  List.filterMap_append ..

theorem polls_poll_cons (left : Int32) (es : List SessionEvent) :
    polls (.poll left :: es) = left :: polls es := rfl

theorem polls_onPackets (session : EasnConnT) (pkts : List PacketT) :
    polls (onPackets session pkts).2 = [] := by
  induction pkts generalizing session with
  | nil => rfl
  | cons pkt pkts ih =>
    have hone : polls (onPacket session pkt).2 = [] := by
      unfold onPacket
      split <;> rfl
    rw [onPackets, polls_append, hone, ih]
    rfl

theorem polls_afterPoll (fd : Int) (session : EasnConnT) (stale : Stale) (read : ReadResult) :
    polls (afterPoll fd session stale read).events = [] := by
  rcases afterPoll_cases fd session stale read with ⟨pkts, _, he, _⟩ | ⟨_, he, _⟩
  · rw [he, polls_onPackets]
  · rw [he]
    rfl

theorem close_notMem_onPackets (session : EasnConnT) (pkts : List PacketT) :
    .close fd ∉ (onPackets session pkts).2 := by
  induction pkts generalizing session with
  | nil => simp [onPackets]
  | cons pkt pkts ih =>
    have hone : .close fd ∉ (onPacket session pkt).2 := by
      unfold onPacket
      split <;> simp
    rw [onPackets, List.mem_append]
    exact fun h => h.elim hone (ih _)

/-- An authenticated session is closed for what the read says. -/
theorem ends_of_close (hauth : session.auth ≠ 0) {stale : Stale} {read : ReadResult}
    (h : .close fd ∈ (afterPoll fd session stale read).events) : read.Ends := by
  cases read with
  | ok buf =>
    rw [afterPoll] at h
    split at h
    · split at h
      · simp at h
      · exact absurd h (close_notMem_onPackets _ _)
    · next hpos => exact List.length_eq_zero_iff.mp (Nat.eq_zero_of_not_pos hpos)
  | error errno =>
    by_cases heagain : errno = eagain
    · rw [afterPoll, if_pos heagain, if_pos hauth] at h
      simp at h
    · exact heagain

/-- An authenticated session waits without a timeout. -/
theorem turnEvents_of_auth (hauth : session.auth ≠ 0) :
    turnEvents fd (Int32.ofInt accept) session t
      = .poll (-1) :: (afterPoll fd session t.stale t.read).events := by
  rw [turnEvents, beforePoll, if_neg hauth]
  rfl

theorem turnEvents_of_late (hauth : session.auth = 0)
    (h : timeoutLeft (Int32.ofInt accept) (Int32.ofInt t.now) ≤ 0) :
    turnEvents fd (Int32.ofInt accept) session t = [.close fd] := by
  rw [turnEvents, beforePoll, if_pos hauth]
  simp [h]

theorem turnEvents_of_early (hauth : session.auth = 0)
    (h : ¬ timeoutLeft (Int32.ofInt accept) (Int32.ofInt t.now) ≤ 0) :
    turnEvents fd (Int32.ofInt accept) session t
      = .poll (timeoutLeft (Int32.ofInt accept) (Int32.ofInt t.now))
        :: (afterPoll fd session t.stale t.read).events := by
  rw [turnEvents, beforePoll, if_pos hauth]
  simp [h]

/-- **One turn meets the deadline** if it is authenticated or sees the deadline, and only then. -/
theorem meetsDeadline_iff (h0 : 0 ≤ accept) (hle : accept ≤ t.now) (hlt : t.now < 2 ^ 31) :
    MeetsDeadline fd accept session t ↔ (session.auth = 0 → SeesDeadline (t.now - accept)) := by
  constructor
  · intro h hauth
    by_contra hsees
    have hlate : 10 ≤ t.now - accept := by
      by_contra hearly
      exact hsees (Or.inl (by rw [toInt_timeout]; omega))
    have hclose := h.closes hauth (by rw [toInt_timeout]; exact hlate)
    rw [turnEvents_of_early hauth
      (fun hneg => hsees ((timeoutLeft_le_zero_iff h0 hle hlt hlate).mp hneg))] at hclose
    simp at hclose
  · intro h
    refine ⟨fun hauth => ?_, fun hauth hlate => ?_, fun hauth => ?_, fun hauth hclose => ?_⟩
    · intro left hleft
      by_cases hlate : 10 ≤ t.now - accept
      · rw [turnEvents_of_late hauth
          ((timeoutLeft_le_zero_iff h0 hle hlt hlate).mpr (h hauth))] at hleft
        simp [polls] at hleft
      · have hval := toInt_timeoutLeft_of_lt h0 hle hlt (Int.lt_of_not_ge hlate)
        have hpos : ¬ timeoutLeft (Int32.ofInt accept) (Int32.ofInt t.now) ≤ 0 := by
          rw [Int32.le_iff_toInt_le, hval]
          show ¬ _ ≤ (0 : Int)
          omega
        rw [turnEvents_of_early hauth hpos, polls_poll_cons, polls_afterPoll,
          List.mem_singleton] at hleft
        rw [hleft, toInt_timeout, Int32.lt_iff_toInt_lt, hval]
        refine ⟨by omega, ?_, by omega⟩
        show (0 : Int) < _
        omega
    · rw [toInt_timeout] at hlate
      exact turnEvents_of_late hauth
        ((timeoutLeft_le_zero_iff h0 hle hlt hlate).mpr (h hauth))
    · rw [turnEvents_of_auth hauth, polls_poll_cons, polls_afterPoll]
    · rw [turnEvents_of_auth hauth, List.mem_cons] at hclose
      rcases hclose with hpoll | hclose
      · simp at hpoll
      · exact ends_of_close hauth hclose

end

/-! ## Runs -/

/-- The readings of `time(NULL)`, the one at the start and those of the turns: nonnegative numbers
below `2 ^ 31` that do not decrease. -/
structure Clock (accept : Int) (turns : List Turn) : Prop where
  nonneg : ∀ now ∈ accept :: turns.map Turn.now, 0 ≤ now
  lt : ∀ now ∈ accept :: turns.map Turn.now, now < 2 ^ 31
  nondecreasing : (accept :: turns.map Turn.now).Pairwise (· ≤ ·)

/-- **When a run keeps the authentication deadline.** -/
theorem deadline_iff (fd : Int) (accept : Int) (start : EasnConnT) (turns : List Turn)
    (hclock : Clock accept turns) :
    (∀ session t, ComesTo fd (Int32.ofInt accept) start turns session t →
        MeetsDeadline fd accept session t) ↔
      ∀ session t, ComesTo fd (Int32.ofInt accept) start turns session t →
        session.auth = 0 → SeesDeadline (t.now - accept) := by
  refine forall_congr' fun session => forall_congr' fun t => forall_congr' fun hcomes => ?_
  obtain ⟨before, hpre, _⟩ := hcomes
  have hmem : t.now ∈ turns.map Turn.now :=
    List.mem_map_of_mem (hpre.subset (by simp))
  exact meetsDeadline_iff (hclock.nonneg accept List.mem_cons_self)
    ((List.pairwise_cons.mp hclock.nondecreasing).1 _ hmem)
    (hclock.lt _ (List.mem_cons_of_mem _ hmem))

/-- A client that is silent for 3 seconds and is closed then. -/
theorem deadline_iff_silent :
    (∀ session t, ComesTo 5 (Int32.ofInt 1600000000) (.init 7 5)
        [⟨1600000003, zeroStale, .error eagain⟩] session t →
        MeetsDeadline 5 1600000000 session t) ↔
      ∀ session t, ComesTo 5 (Int32.ofInt 1600000000) (.init 7 5)
        [⟨1600000003, zeroStale, .error eagain⟩] session t →
        session.auth = 0 → SeesDeadline (t.now - 1600000000) :=
  deadline_iff 5 1600000000 (.init 7 5) [⟨1600000003, zeroStale, .error eagain⟩]
    ⟨by decide, by decide, by decide⟩

/-- A clock that goes 2147494 seconds ahead: `co_poll` is given 2147483296 ms. -/
theorem not_deadline :
    ¬ ∀ (fd accept : Int) (sid : UInt64) (turns : List Turn), Clock accept turns →
      ∀ session t, ComesTo fd (Int32.ofInt accept) (.init sid fd) turns session t →
        MeetsDeadline fd accept session t := by
  intro h
  have hturn := h 5 1600000000 7 [⟨1602147494, zeroStale, .error eagain⟩]
    ⟨by decide, by decide, by decide⟩ (.init 7 5) ⟨1602147494, zeroStale, .error eagain⟩
    ⟨[], List.prefix_refl _, rfl, rfl⟩
  have hclose := hturn.closes rfl (by decide)
  have hleft : polls (turnEvents 5 (Int32.ofInt 1600000000) (.init 7 5)
      ⟨1602147494, zeroStale, .error eagain⟩) = [2147483296] := by decide
  rw [hclose] at hleft
  simp [polls] at hleft

end Easn
