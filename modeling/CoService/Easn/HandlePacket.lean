import CoService.Easn.Package

/-!
# `server_channel::handle_packet`

One `read()` of a client's bytes is taken apart by a function that calls itself up to twice. What
it does is observed as a list of events: the calls of `check_crc`, the acknowledgements written,
the packets handed to the callback and the recursive calls.

## What `rece_ptk` held before

`rece_ptk` is an uninitialised local, so each call of the recursion starts with whatever lies on
its stack. `Stale` gives these contents for every call. A call is named by the path of recursive
calls that leads to it.

## The abstract scanner

`scanner` forgets the events and keeps which headers are looked at and with which verdict.
`handlePacket_own` says that `handlePacket` does what the scanner's visits say, so that facts
about its recursion are facts about `Infra.Scanner`.
-/

namespace Easn

open Infra

/-- The bytes that one `read()` returned. The array has room for `MAX_SIZE` of them. -/
structure ReadBuf where
  bytes : List UInt8
  length_le : bytes.length ≤ maxSize

/-- What `rece_ptk` holds when each call of the recursion begins. -/
def Stale := List Branch → PacketT

/-- The prior contents as a recursive call sees them. -/
def Stale.child (b : Branch) (stale : Stale) : Stale := fun path => stale (b :: path)

/-- A stack of zeros. -/
def zeroStale : Stale := fun _ => .zero

/-- What `handle_packet` does. `start` is the header position that the event is about. -/
inductive Event
  | checkCrc (start size : Nat)
  | write (fd : Int) (start : Nat) (ack : AckT)
  | callback (start : Nat) (pkt : PacketT)
  | recurse (start pos : Nat)

theorem findHeaderPosition_bounds {buf : List UInt8} {pos s : Nat}
    (h : findHeaderPosition buf pos = some s) : pos ≤ s ∧ s + 1 < buf.length := by
  obtain ⟨_, h1, h2, _⟩ := firstFrom_eq_some.mp h
  omega

/-- `rece_ptk` after the `memcpy`, where `prior` is what it held. -/
def recePtk (prior : PacketT) (buf : ReadBuf) (start : Nat) : PacketT :=
  memcpy prior (buf.bytes.drop start) (by
    have h := buf.length_le
    rw [List.length_drop]
    omega)

/--
`handle_packet(fd, buf, pos, len, callback)`, where `len` is the length of `buf`.

The messages for the log are left out. A `check_crc` whose length wraps around reads out of bounds,
and nothing happens after it.
-/
def handlePacket (fd : Int) (stale : Stale) (buf : ReadBuf) (pos : Nat) : Run Event :=
  match _hs : findHeaderPosition buf.bytes pos with
  | none => .done
  | some start =>
    let length := buf.bytes.length - start
    match _hc : checkCrc (recePtk (stale []) buf start).buf (sizeofPacket (recePtk (stale []) buf start)) with
    | none => .fault [.checkCrc start (sizeofPacket (recePtk (stale []) buf start))]
    | some ok =>
      ((Run.emit [.checkCrc start (sizeofPacket (recePtk (stale []) buf start))]).andThen
        (if ok then
          Run.emit [.write fd start (fillAckPacket .init (recePtk (stale []) buf start) .success),
            .callback start (recePtk (stale []) buf start)]
        else
          (Run.emit [.write fd start (fillAckPacket .init (recePtk (stale []) buf start) .crcError),
            .recurse start (start + 2)]).andThen
          (handlePacket fd (stale.child .resync) buf (start + 2)))).andThen
      -- more than one packet: reached after a CRC error as well
      (if ntohs (recePtk (stale []) buf start).length < length then
        (Run.emit [.recurse start (start + sizeofPacket (recePtk (stale []) buf start))]).andThen
        (handlePacket fd (stale.child .next) buf
          (start + sizeofPacket (recePtk (stale []) buf start)))
      else .done)
termination_by buf.bytes.length - pos
decreasing_by
  · have h1 := findHeaderPosition_bounds _hs
    omega
  · have h1 := findHeaderPosition_bounds _hs
    have h2 := two_le_of_checkCrc _hc
    omega

/-- The last `if` of `handle_packet`: what happens behind the packet at `start`. -/
def handleRest (fd : Int) (stale : Stale) (buf : ReadBuf) (start : Nat) : Run Event :=
  if ntohs (recePtk (stale []) buf start).length < buf.bytes.length - start then
    (Run.emit [.recurse start (start + sizeofPacket (recePtk (stale []) buf start))]).andThen
    (handlePacket fd (stale.child .next) buf (start + sizeofPacket (recePtk (stale []) buf start)))
  else .done

section cases

variable {fd : Int} {stale : Stale} {buf : ReadBuf} {pos s : Nat}

theorem handlePacket_none (hs : findHeaderPosition buf.bytes pos = none) :
    handlePacket fd stale buf pos = .done := by
  rw [handlePacket]
  split <;> simp_all

theorem handlePacket_fault (hs : findHeaderPosition buf.bytes pos = some s)
    (hv : checkCrc (recePtk (stale []) buf s).buf (sizeofPacket (recePtk (stale []) buf s)) = none) :
    handlePacket fd stale buf pos
      = .fault [.checkCrc s (sizeofPacket (recePtk (stale []) buf s))] := by
  rw [handlePacket]
  split
  · simp_all
  · next s' hs' =>
    obtain rfl : s' = s := by simpa [hs] using hs'.symm
    split <;> simp_all

theorem handlePacket_accept (hs : findHeaderPosition buf.bytes pos = some s)
    (hv : checkCrc (recePtk (stale []) buf s).buf (sizeofPacket (recePtk (stale []) buf s)) = some true) :
    handlePacket fd stale buf pos =
      (Run.emit [.checkCrc s (sizeofPacket (recePtk (stale []) buf s)),
        .write fd s (fillAckPacket .init (recePtk (stale []) buf s) .success),
        .callback s (recePtk (stale []) buf s)]).andThen (handleRest fd stale buf s) := by
  rw [handlePacket]
  split
  · simp_all
  · next s' hs' =>
    obtain rfl : s' = s := by simpa [hs] using hs'.symm
    split
    · simp_all
    · next ok hok =>
      obtain rfl : ok = true := by simpa [hv] using hok.symm
      rfl

theorem handlePacket_reject (hs : findHeaderPosition buf.bytes pos = some s)
    (hv : checkCrc (recePtk (stale []) buf s).buf (sizeofPacket (recePtk (stale []) buf s)) = some false) :
    handlePacket fd stale buf pos =
      (Run.emit [.checkCrc s (sizeofPacket (recePtk (stale []) buf s)),
        .write fd s (fillAckPacket .init (recePtk (stale []) buf s) .crcError),
        .recurse s (s + 2)]).andThen
      ((handlePacket fd (stale.child .resync) buf (s + 2)).andThen
        (handleRest fd stale buf s)) := by
  rw [handlePacket]
  split
  · simp_all
  · next s' hs' =>
    obtain rfl : s' = s := by simpa [hs] using hs'.symm
    split
    · simp_all
    · next ok hok =>
      obtain rfl : ok = false := by simpa [hv] using hok.symm
      simp only [Bool.false_eq_true, if_false, Run.andThen_assoc]
      rfl

end cases

/-! ## The scanner behind it -/

/-- Two headers do not overlap. -/
theorem isHeader_apart {buf : List UInt8} {s q : Nat} (hs : isHeader buf s = true) (h1 : s < q)
    (h2 : q < s + 2) : isHeader buf q = false := by
  obtain rfl : q = s + 1 := by omega
  simp only [isHeader, Bool.and_eq_true, beq_iff_eq] at hs
  rw [isHeader, hs.2]
  rfl

/-- What `handle_packet` looks at in `buf`. -/
def scanner (buf : ReadBuf) : Scanner Stale where
  header := isHeader buf.bytes
  stop := buf.bytes.length - 1
  skip := 2
  look stale start :=
    { size := sizeofPacket (recePtk (stale []) buf start)
      verdict :=
        checkCrc (recePtk (stale []) buf start).buf (sizeofPacket (recePtk (stale []) buf start)) }
  child := Stale.child
  skip_pos := by decide
  size_pos stale start h := by
    obtain ⟨ok, hok⟩ := Option.ne_none_iff_exists'.mp h
    have := two_le_of_checkCrc hok
    simp only []
    omega
  apart _ _ := isHeader_apart

section scanner

variable {buf : ReadBuf}

@[simp] theorem scanner_find (pos : Nat) :
    (scanner buf).find pos = findHeaderPosition buf.bytes pos := rfl

@[simp] theorem scanner_verdict (stale : Stale) (start : Nat) :
    ((scanner buf).look stale start).verdict
      = checkCrc (recePtk (stale []) buf start).buf (sizeofPacket (recePtk (stale []) buf start)) := rfl

@[simp] theorem scanner_size (stale : Stale) (start : Nat) :
    ((scanner buf).look stale start).size = sizeofPacket (recePtk (stale []) buf start) := rfl

@[simp] theorem scanner_skip : (scanner buf).skip = 2 := rfl

@[simp] theorem scanner_child : (scanner buf).child = Stale.child := rfl

end scanner

/-- The packet that a visit received. -/
def received (buf : ReadBuf) (v : Visit Stale) : PacketT := recePtk (v.env []) buf v.start

/-- What `handle_packet` does about the header it looks at. -/
def visitEvents (fd : Int) (buf : ReadBuf) (v : Visit Stale) : List Event :=
  .checkCrc v.start (sizeofPacket (received buf v)) ::
    match checkCrc (received buf v).buf (sizeofPacket (received buf v)) with
    | none => []
    | some true => [.write fd v.start (fillAckPacket .init (received buf v) .success),
        .callback v.start (received buf v)]
    | some false => [.write fd v.start (fillAckPacket .init (received buf v) .crcError)]

/-- The events other than recursive calls. -/
def Event.own? : Event → Option Event
  | .recurse _ _ => none
  | e => some e

/-- Behind a packet that reaches to the end of what was read there is no header. -/
theorem findHeaderPosition_behind {stale : Stale} {buf : ReadBuf} {s : Nat}
    (h : ¬ ntohs (recePtk (stale []) buf s).length < buf.bytes.length - s) :
    findHeaderPosition buf.bytes (s + sizeofPacket (recePtk (stale []) buf s)) = none := by
  have h1 := buf.length_le
  have h2 := sizeofPacket_eq_min (recePtk (stale []) buf s)
  rw [findHeaderPosition, firstFrom_eq_none]
  intro q hq hlt
  omega

theorem handleRest_own (fd : Int) (stale : Stale) (buf : ReadBuf) (s : Nat) :
    (handleRest fd stale buf s).filterMap Event.own? =
      (handlePacket fd (stale.child .next) buf
        (s + sizeofPacket (recePtk (stale []) buf s))).filterMap Event.own? := by
  unfold handleRest
  split
  · rw [Run.filterMap_andThen]
    rfl
  · next h => rw [handlePacket_none (findHeaderPosition_behind h)]

/-- The events of a scanner's run. -/
def scanEvents (fd : Int) (buf : ReadBuf) (r : Run (Visit Stale)) : Run Event :=
  ⟨r.events.flatMap (visitEvents fd buf), r.returned⟩

theorem scanEvents_andThen (fd : Int) (buf : ReadBuf) (r k : Run (Visit Stale)) :
    scanEvents fd buf (r.andThen k) = (scanEvents fd buf r).andThen (scanEvents fd buf k) := by
  cases h : r.returned <;> simp [scanEvents, Run.andThen, h]

/-- **`handle_packet` does what its scanner's visits say.** -/
theorem handlePacket_own (fd : Int) (stale : Stale) (buf : ReadBuf) (pos : Nat) :
    (handlePacket fd stale buf pos).filterMap Event.own?
      = scanEvents fd buf ((scanner buf).run stale pos) := by
  induction stale, pos using (scanner buf).call_induction with
  | none stale pos hs =>
    rw [handlePacket_none hs, Scanner.run_none hs]
    rfl
  | fault stale pos s hs hv =>
    rw [handlePacket_fault hs hv, Scanner.run_fault hs hv]
    simp only [scanner_verdict] at hv
    simp [Run.filterMap, Run.fault, scanEvents, visitEvents, received, Event.own?, hv]
  | accept stale pos s hs hv ih =>
    rw [handlePacket_accept hs hv, Scanner.run_accept hs hv, Run.filterMap_andThen,
      handleRest_own, scanEvents_andThen]
    simp only [scanner_child, scanner_size] at ih
    rw [ih]
    simp only [scanner_verdict] at hv
    simp [Run.filterMap, Run.emit, scanEvents, visitEvents, received, Event.own?, hv]
  | reject stale pos s hs hv ih1 ih2 =>
    rw [handlePacket_reject hs hv, Scanner.run_reject hs hv, Run.filterMap_andThen,
      Run.filterMap_andThen, handleRest_own, scanEvents_andThen, scanEvents_andThen]
    simp only [scanner_child, scanner_size, scanner_skip] at ih1 ih2
    rw [ih1, ih2]
    simp only [scanner_verdict] at hv
    have hvisit : scanEvents fd buf (.emit [⟨stale, s⟩])
        = .emit [.checkCrc s (sizeofPacket (recePtk (stale []) buf s)),
          .write fd s (fillAckPacket .init (recePtk (stale []) buf s) .crcError)] := by
      simp [scanEvents, visitEvents, received, hv, Run.emit]
    rw [hvisit]
    rfl

/-! ## What is observed -/

/-- An acknowledgement, with the header position it is for. -/
def Event.ack? : Event → Option (Nat × AckT)
  | .write _ start ack => some (start, ack)
  | _ => none

/-- A packet handed to the callback, with its header position. -/
def Event.callback? : Event → Option (Nat × PacketT)
  | .callback start pkt => some (start, pkt)
  | _ => none

/-- The acknowledgements of a run, in order. -/
def acks (r : Run Event) : List (Nat × AckT) := r.events.filterMap Event.ack?

/-- The packets that a run hands to the callback, in order. -/
def delivered (r : Run Event) : List (Nat × PacketT) := r.events.filterMap Event.callback?

section observation

variable {fd : Int} {stale : Stale} {buf : ReadBuf} {pos : Nat}

theorem returned_handlePacket :
    (handlePacket fd stale buf pos).returned = ((scanner buf).run stale pos).returned := by
  have h := congrArg Run.returned (handlePacket_own fd stale buf pos)
  exact h

/-- What is observed of a run apart from the recursive calls is observed of its visits. -/
theorem filterMap_handlePacket {δ : Type*} {f : Event → Option δ}
    (hf : ∀ start p, f (.recurse start p) = none) :
    (handlePacket fd stale buf pos).events.filterMap f =
      ((scanner buf).run stale pos).events.flatMap fun v =>
        (visitEvents fd buf v).filterMap f := by
  have hown : (fun e => (Event.own? e).bind f) = f := by
    funext e
    cases e <;> simp [Event.own?, hf]
  have h := congrArg Run.events (handlePacket_own fd stale buf pos)
  have h' := congrArg (List.filterMap f) h
  rw [Run.events_filterMap, List.filterMap_filterMap, hown] at h'
  rw [h', scanEvents, List.filterMap_flatMap]

/-- The acknowledgement of a header that was looked at without a fault. -/
def ackOf (buf : ReadBuf) (v : Visit Stale) : AckT :=
  fillAckPacket .init (received buf v)
    (if (scanner buf).accepts v then .success else .crcError)

theorem callbacks_visit (fd : Int) (buf : ReadBuf) (v : Visit Stale) :
    (visitEvents fd buf v).filterMap Event.callback? =
      if (scanner buf).accepts v then [(v.start, received buf v)] else [] := by
  rw [visitEvents, Scanner.accepts, scanner_verdict, received]
  split <;> simp_all [Event.callback?, List.filterMap_cons]

theorem acks_visit (fd : Int) (buf : ReadBuf) (v : Visit Stale) :
    (visitEvents fd buf v).filterMap Event.ack? =
      if ((scanner buf).look v.env v.start).verdict.isSome then [(v.start, ackOf buf v)]
      else [] := by
  rw [visitEvents, ackOf, Scanner.accepts, scanner_verdict, received]
  split <;> simp_all [Event.ack?, List.filterMap_cons]

/-- What the visits of one kind contribute, one item each. -/
theorem flatMap_of_ite {δ : Type*} {g : Visit Stale → List δ} {keep : Visit Stale → Bool}
    {f : Visit Stale → δ} (h : ∀ v, g v = if keep v then [f v] else [])
    (vs : List (Visit Stale)) : vs.flatMap g = (vs.filter keep).map f := by
  induction vs with
  | nil => rfl
  | cons v vs ih =>
    rw [List.flatMap_cons, ih, List.filter_cons, h v]
    split <;> simp

/-- **The callback gets exactly the accepted packets.** -/
theorem delivered_handlePacket :
    delivered (handlePacket fd stale buf pos) =
      (((scanner buf).run stale pos).events.filter (scanner buf).accepts).map fun v =>
        (v.start, received buf v) := by
  unfold delivered
  rw [filterMap_handlePacket (fun _ _ => rfl)]
  exact flatMap_of_ite (callbacks_visit fd buf) _

/-- **Every header that is looked at is acknowledged**, unless looking at it faults. -/
theorem acks_handlePacket :
    acks (handlePacket fd stale buf pos) =
      (((scanner buf).run stale pos).events.filter fun v =>
        ((scanner buf).look v.env v.start).verdict.isSome).map fun v =>
          (v.start, ackOf buf v) := by
  unfold acks
  rw [filterMap_handlePacket (fun _ _ => rfl)]
  exact flatMap_of_ite (acks_visit fd buf) _

end observation

/-! ## Frames that lie in the buffer -/

/-- The length that the header at `start` declares, read from the received bytes. -/
def declaredLength (buf : ReadBuf) (start : Nat) : Nat :=
  ntohs ((buf.bytes.drop (start + 7)).take 2)

section inside

variable (prior : PacketT) {buf : ReadBuf} {start : Nat}

theorem length_recePtk (h : start + 9 ≤ buf.bytes.length) :
    ntohs (recePtk prior buf start).length = declaredLength buf start := by
  rw [recePtk, length_memcpy (by simp; omega), List.drop_drop, declaredLength]

theorem sizeofPacket_recePtk (h : start + 9 ≤ buf.bytes.length) :
    sizeofPacket (recePtk prior buf start) = min (declaredLength buf start) maxSize := by
  rw [sizeofPacket_eq_min, length_recePtk prior h]

theorem take_recePtk {n : Nat} (h : n ≤ buf.bytes.length - start) :
    (recePtk prior buf start).buf.take n = (buf.bytes.drop start).take n :=
  take_memcpy (by simpa using h)

/-- A CRC over received bytes does not depend on what `rece_ptk` held. -/
theorem checkCrc_recePtk {size : Nat} (h : size ≤ buf.bytes.length - start) :
    checkCrc (recePtk prior buf start).buf size
      = checkCrc ((buf.bytes.drop start).take size) size := by
  have hle := buf.length_le
  rw [← checkCrc_take (by rw [PacketT.length_buf]; omega), take_recePtk prior h]

end inside

/-- Every header of the buffer has its 9 bytes of prefix there and declares 2 bytes at least, so
that every CRC check is defined. -/
def CompletePrefixes (buf : ReadBuf) : Prop :=
  ∀ s, isHeader buf.bytes s = true → s + 9 ≤ buf.bytes.length ∧ 2 ≤ declaredLength buf s

theorem CompletePrefixes.total {buf : ReadBuf} (h : CompletePrefixes buf) :
    (scanner buf).Total := by
  intro stale s hs _ hnone
  obtain ⟨h9, h2⟩ := h s hs
  rw [scanner_verdict, checkCrc_packet_eq_none, length_recePtk _ h9] at hnone
  omega

end Easn
