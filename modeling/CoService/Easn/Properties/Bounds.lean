import CoService.Easn.Properties.Reach

/-!
# Bounds of the parser, and truncated frames

The length field of a packet is the client's. `handle_packet` cuts it off at `MAX_SIZE` but asks
for no minimum, and it goes on when the packet is longer than what was received.

* `withinBounds_iff` — the parser stays inside its buffer and comes back, exactly when no header that
  the scan can get to leaves a declared length of 0 or 1 open
* `rejectsTruncated_iff` — no truncated frame is accepted, exactly when the scan can get to none that
  is completable, or that declares more than `MAX_SIZE` at the front of a full buffer with a right CRC

Both conditions are on the received bytes alone. What `rece_ptk` held before is any bytes.
-/

namespace Easn

open Infra

variable {fd : Int} {stale : Stale} {buf : ReadBuf} {pos : Nat}

/-! ## The calls of `check_crc` -/

/-- A call of `check_crc`, with the header position and the size. -/
def Event.check? : Event → Option (Nat × Nat)
  | .checkCrc start size => some (start, size)
  | _ => none

theorem checks_visit (fd : Int) (buf : ReadBuf) (v : Visit Stale) :
    (visitEvents fd buf v).filterMap Event.check?
      = [(v.start, sizeofPacket (received buf v))] := by
  unfold visitEvents
  split <;> simp [Event.check?, List.filterMap_cons]

/-- `check_crc` is called once for every visit. -/
theorem checks_handlePacket :
    (handlePacket fd stale buf pos).events.filterMap Event.check? =
      ((scanner buf).run stale pos).events.map fun v =>
        (v.start, sizeofPacket (received buf v)) := by
  rw [filterMap_handlePacket (fun _ _ => rfl), List.map_eq_flatMap]
  exact List.flatMap_congr fun v _ => checks_visit fd buf v

/-- An event that an observation tells from all others. -/
theorem mem_iff_mem_filterMap {δ : Type*} {f : Event → Option δ} {e : Event} {d : δ}
    (h : ∀ e', f e' = some d ↔ e' = e) {l : List Event} : e ∈ l ↔ d ∈ l.filterMap f := by
  rw [List.mem_filterMap]
  constructor
  · intro he
    exact ⟨e, he, (h e).mpr rfl⟩
  · rintro ⟨e', he', hd⟩
    exact (h e').mp hd ▸ he'

theorem mem_checkCrc_iff {start size : Nat} :
    .checkCrc start size ∈ (handlePacket fd stale buf pos).events ↔
      ∃ v, (scanner buf).Examines stale pos v ∧ v.start = start ∧
        sizeofPacket (received buf v) = size := by
  have hcheck : ∀ e, Event.check? e = some (start, size) ↔ e = .checkCrc start size := by
    intro e
    cases e <;> simp [Event.check?]
  rw [mem_iff_mem_filterMap hcheck, checks_handlePacket, List.mem_map]
  constructor
  · rintro ⟨v, hv, heq⟩
    obtain ⟨h1, h2⟩ := Prod.mk.inj heq
    exact ⟨v, Scanner.mem_run_iff.mp hv, h1, h2⟩
  · rintro ⟨v, hv, rfl, rfl⟩
    exact ⟨v, Scanner.mem_run_iff.mpr hv, rfl⟩

/-! ## Recursive calls -/

/-- What is behind a packet starts behind its header. -/
theorem recurse_lt_of_rest {s start p : Nat}
    (hsize : 2 ≤ sizeofPacket (recePtk (stale []) buf s))
    (ih : .recurse start p ∈ (handlePacket fd (stale.child .next) buf
      (s + sizeofPacket (recePtk (stale []) buf s))).events → start < p)
    (h : .recurse start p ∈ (handleRest fd stale buf s).events) : start < p := by
  unfold handleRest at h
  split at h
  · rw [Run.events_emit_andThen, List.singleton_append, List.mem_cons] at h
    rcases h with heq | h
    · obtain ⟨rfl, rfl⟩ := Event.recurse.inj heq
      omega
    · exact ih h
  · simp at h

/-- **A recursive call starts behind the header that it is made for.** -/
theorem recurse_lt {start p : Nat}
    (h : .recurse start p ∈ (handlePacket fd stale buf pos).events) : start < p := by
  induction stale, pos using (scanner buf).call_induction with
  | none stale pos hs => simp [handlePacket_none hs] at h
  | fault stale pos s hs hv =>
    rw [scanner_verdict] at hv
    simp [handlePacket_fault hs hv] at h
  | accept stale pos s hs hv ih =>
    rw [scanner_verdict] at hv
    rw [handlePacket_accept hs hv, Run.mem_andThen] at h
    rcases h with h | ⟨_, h⟩
    · simp at h
    · exact recurse_lt_of_rest (two_le_of_checkCrc hv) ih h
  | reject stale pos s hs hv ih1 ih2 =>
    rw [scanner_verdict] at hv
    rw [handlePacket_reject hs hv, Run.mem_andThen, Run.mem_andThen] at h
    rcases h with h | ⟨_, h | ⟨_, h⟩⟩
    · simp only [Run.events_emit, List.mem_cons, reduceCtorEq, Event.recurse.injEq,
        List.not_mem_nil, or_false, false_or] at h
      omega
    · exact ih1 h
    · exact recurse_lt_of_rest (two_le_of_checkCrc hv) ih2 h

/-! ## Staying inside `packet_t` -/

/-- The run checks only frames of 2 to `MAX_SIZE` bytes, goes forward and comes back. -/
structure WithinBounds (r : Run Event) : Prop where
  size_bounds : ∀ start size, .checkCrc start size ∈ r.events → 2 ≤ size ∧ size ≤ maxSize
  forward : ∀ start p, .recurse start p ∈ r.events → start < p
  returned : r.returned = true

/-- A run stays inside its bounds when no length in the `rece_ptk` of a header it looks at is 0 or 1. -/
theorem withinBounds_iff_forall_examines :
    WithinBounds (handlePacket fd stale buf pos) ↔
      ∀ v, (scanner buf).Examines stale pos v → 2 ≤ ntohs (received buf v).length := by
  have hmax : maxSize = 16384 := rfl
  constructor
  · intro h v hv
    have hsize := h.size_bounds v.start _ (mem_checkCrc_iff.mpr ⟨v, hv, rfl, rfl⟩)
    have hmin := sizeofPacket_eq_min (received buf v)
    omega
  · intro h
    refine ⟨?_, fun start p => recurse_lt, ?_⟩
    · intro start size hmem
      obtain ⟨v, hv, rfl, rfl⟩ := mem_checkCrc_iff.mp hmem
      have hlen := h v hv
      have hmin := sizeofPacket_eq_min (received buf v)
      omega
    · rw [returned_handlePacket, Scanner.returned_iff_forall]
      intro v hv hnone
      have hlen := h v (Scanner.mem_run_iff.mp hv)
      rw [scanner_verdict, checkCrc_packet_eq_none] at hnone
      exact absurd hlen (by rw [received]; omega)

/-- The length that the header at `start` declares is 2 at least, whatever bytes follow what was
received: the length field was received and says so, or its high byte was the last byte received and
is not 0. -/
def DeclaresTwo (buf : ReadBuf) (start : Nat) : Prop :=
  (start + 9 ≤ buf.bytes.length ∧ 2 ≤ declaredLength buf start) ∨
    (start + 8 = buf.bytes.length ∧ buf.bytes.getD (start + 7) 0 ≠ 0)

theorem htons_eq (n : Nat) : htons n = [UInt8.ofNat (n / 256), UInt8.ofNat n] := rfl

theorem take_lengthField_of_cut {start : Nat} (h8 : start + 8 = buf.bytes.length) :
    (buf.bytes.drop (start + 7)).take 2 = [buf.bytes.getD (start + 7) 0] := by
  rw [List.drop_eq_getElem_cons (by omega), List.drop_eq_nil_of_le (by omega),
    List.getD_eq_getElem?_getD, List.getElem?_eq_getElem (by omega)]
  rfl

/-- Where the length field is cut off, and a high byte that was received is 0, a length of 0 is open. -/
theorem mayDeclare_zero {start : Nat} (hcut : buf.bytes.length < start + 9)
    (hhigh : start + 8 = buf.bytes.length → buf.bytes.getD (start + 7) 0 = 0) :
    MayDeclare buf start 0 := by
  refine ⟨by decide, ?_⟩
  by_cases h8 : start + 8 = buf.bytes.length
  · rw [take_lengthField_of_cut h8, hhigh h8]
    exact ⟨[0], rfl⟩
  · rw [List.drop_eq_nil_of_le (by omega)]
    exact List.nil_prefix

theorem declaresTwo_iff {start : Nat} :
    DeclaresTwo buf start ↔ ∀ n, MayDeclare buf start n → 2 ≤ n := by
  constructor
  · rintro (⟨h9, htwo⟩ | ⟨h8, hhigh⟩) n hn
    · rwa [← (mayDeclare_iff_eq h9).mp hn]
    · -- a high byte that is not 0 makes 256 bytes
      have hfield := hn.2
      rw [take_lengthField_of_cut h8, htons_eq, List.cons_prefix_cons] at hfield
      by_contra hlt
      have hzero : n / 256 = 0 := by omega
      rw [hzero] at hfield
      exact hhigh hfield.1
  · intro h
    by_contra hno
    rcases Nat.lt_or_ge buf.bytes.length (start + 9) with hcut | h9
    · have hzero : MayDeclare buf start 0 := mayDeclare_zero hcut fun h8 => by
        by_contra hhigh
        exact hno (Or.inr ⟨h8, hhigh⟩)
      exact absurd (h 0 hzero) (by decide)
    · exact hno (Or.inl ⟨h9, h _ ((mayDeclare_iff_eq h9).mpr rfl)⟩)

/-- **When the parser stays inside its bounds**, with any bytes in `rece_ptk`. -/
theorem withinBounds_iff (buf : ReadBuf) :
    (∀ (fd : Int) (stale : Stale), WithinBounds (handlePacket fd stale buf 0)) ↔
      ∀ start, Reaches buf 0 start → DeclaresTwo buf start := by
  constructor
  · intro h start hreach
    rw [declaresTwo_iff]
    intro n hn
    obtain ⟨prior, rfl⟩ := mayDeclare_iff.mp hn
    obtain ⟨stale, hexamines⟩ := exists_examines hreach fun _ => prior
    exact withinBounds_iff_forall_examines.mp (h 0 stale) _ hexamines
  · intro h fd stale
    rw [withinBounds_iff_forall_examines]
    intro v hv
    have hdeclares := declaresTwo_iff.mp (h v.start (reaches_of_examines hv))
    exact hdeclares _ (mayDeclare_iff.mpr ⟨v.env [], rfl⟩)

/-- A header that declares a length of 0. -/
def declaresZero : ReadBuf where
  bytes := [0xaa, 0x55, 0x01, 0x00, 0x00, 0x00, 0x01, 0x00, 0x00, 0x00, 0x00]
  length_le := by decide

/-- `check_crc` is called for the 0 bytes that `declaresZero` declares. -/
theorem not_withinBounds :
    ¬ ∀ (fd : Int) (stale : Stale) (buf : ReadBuf), 11 ≤ buf.bytes.length →
      WithinBounds (handlePacket fd stale buf 0) := by
  intro h
  have hret := (h 3 zeroStale declaresZero
    (by decide)).returned
  revert hret
  decide +kernel

/-! ## Truncated frames -/

/-- The frame at `start` is not wholly in the buffer: its prefix is cut off, or it declares more
bytes than remain. -/
def Truncated (buf : ReadBuf) (start : Nat) : Prop :=
  buf.bytes.length - start < 9 ∨ buf.bytes.length - start < declaredLength buf start

/-- No truncated frame is handed to the callback or acknowledged with `SUCCESS`. -/
structure RejectsTruncated (buf : ReadBuf) (r : Run Event) : Prop where
  callback : ∀ start pkt, .callback start pkt ∈ r.events → ¬ Truncated buf start
  ack : ∀ fd start ack, .write fd start ack ∈ r.events →
    ack.code = htons ReturnCode.success.value → ¬ Truncated buf start

theorem mem_callback_iff {start : Nat} {pkt : PacketT} :
    .callback start pkt ∈ (handlePacket fd stale buf pos).events ↔
      ∃ v, (scanner buf).Examines stale pos v ∧ (scanner buf).accepts v = true ∧
        v.start = start ∧ received buf v = pkt := by
  have hcallback : ∀ e, Event.callback? e = some (start, pkt) ↔ e = .callback start pkt := by
    intro e
    cases e <;> simp [Event.callback?]
  rw [mem_iff_mem_filterMap hcallback]
  show (start, pkt) ∈ delivered (handlePacket fd stale buf pos) ↔ _
  rw [delivered_handlePacket, List.mem_map]
  constructor
  · rintro ⟨v, hv, heq⟩
    obtain ⟨h1, h2⟩ := Prod.mk.inj heq
    obtain ⟨hv, ha⟩ := List.mem_filter.mp hv
    exact ⟨v, Scanner.mem_run_iff.mp hv, ha, h1, h2⟩
  · rintro ⟨v, hv, ha, rfl, rfl⟩
    exact ⟨v, List.mem_filter.mpr ⟨Scanner.mem_run_iff.mpr hv, ha⟩, rfl⟩

/-- An acknowledgement with `SUCCESS` is written for accepted headers only. -/
theorem exists_accepted_of_success {fd' : Int} {start : Nat} {ack : AckT}
    (h : .write fd' start ack ∈ (handlePacket fd stale buf pos).events)
    (hcode : ack.code = htons ReturnCode.success.value) :
    ∃ v, (scanner buf).Examines stale pos v ∧ (scanner buf).accepts v = true ∧
      v.start = start := by
  have hmem : (start, ack) ∈ acks (handlePacket fd stale buf pos) :=
    List.mem_filterMap.mpr ⟨_, h, rfl⟩
  rw [acks_handlePacket, List.mem_map] at hmem
  obtain ⟨v, hv, heq⟩ := hmem
  obtain ⟨hstart, hack⟩ := Prod.mk.inj heq
  refine ⟨v, Scanner.mem_run_iff.mp (List.mem_filter.mp hv).1, ?_, hstart⟩
  by_contra hrej
  rw [← hack, ackOf, code_fillAckPacket, if_neg hrej] at hcode
  exact absurd hcode (by decide)

/-- A run rejects truncated frames when none that it looks at is accepted. -/
theorem rejectsTruncated_iff_forall_examines :
    RejectsTruncated buf (handlePacket fd stale buf pos) ↔
      ∀ v, (scanner buf).Examines stale pos v → Truncated buf v.start →
        (scanner buf).accepts v = false := by
  constructor
  · intro h v hv htr
    by_contra ha
    rw [Bool.not_eq_false] at ha
    exact h.callback v.start _ (mem_callback_iff.mpr ⟨v, hv, ha, rfl, rfl⟩) htr
  · intro h
    constructor
    · intro start pkt hmem htr
      obtain ⟨v, hv, ha, rfl, _⟩ := mem_callback_iff.mp hmem
      exact absurd ha (by rw [h v hv htr]; decide)
    · intro fd' start ack hmem hcode htr
      obtain ⟨v, hv, ha, rfl⟩ := exists_accepted_of_success hmem hcode
      exact absurd ha (by rw [h v hv htr]; decide)

/-- **When no truncated frame is accepted**, with any bytes in `rece_ptk`. -/
theorem rejectsTruncated_iff (buf : ReadBuf) :
    (∀ (fd : Int) (stale : Stale), RejectsTruncated buf (handlePacket fd stale buf 0)) ↔
      ∀ start, Reaches buf 0 start → Truncated buf start → ¬ CanAccept buf start := by
  constructor
  · intro h start hreach htr hc
    obtain ⟨prior, hcrc⟩ := canAccept_iff.mp hc
    obtain ⟨stale, hexamines⟩ := exists_examines hreach fun _ => prior
    have hrejects := rejectsTruncated_iff_forall_examines.mp (h 0 stale) _ hexamines htr
    have haccepts : (scanner buf).accepts ⟨fun _ => prior, start⟩ = true :=
      Scanner.accepts_of_true hcrc
    exact absurd haccepts (by rw [hrejects]; decide)
  · intro h fd stale
    rw [rejectsTruncated_iff_forall_examines]
    intro v hv htr
    by_contra ha
    rw [Bool.not_eq_false, Scanner.accepts, beq_iff_eq] at ha
    exact h v.start (reaches_of_examines hv) htr (canAccept_iff.mpr ⟨v.env [], ha⟩)

/-- The first 11 of the 13 bytes of a frame. -/
def cutFrame : ReadBuf where
  bytes := [0xaa, 0x55, 0x01, 0x00, 0x00, 0x00, 0x01, 0x00, 0x0d, 0x00, 0x00]
  length_le := by decide

/-- A `rece_ptk` that held the whole frame before. -/
def staleFrame : Stale := fun _ =>
  { buf := [0xaa, 0x55, 0x01, 0x00, 0x00, 0x00, 0x01, 0x00, 0x0d, 0x00, 0x00, 0x18, 0x91]
      ++ List.replicate (maxSize - 13) 0
    length_buf := by
      rw [List.length_append, List.length_replicate]
      rfl }

/-- The two bytes that `cutFrame` lacks are taken from `staleFrame`, and it is delivered. -/
theorem not_rejectsTruncated :
    ¬ ∀ (fd : Int) (stale : Stale) (buf : ReadBuf), 11 ≤ buf.bytes.length →
      RejectsTruncated buf (handlePacket fd stale buf 0) := by
  intro h
  have hdel : (delivered (handlePacket 3 staleFrame cutFrame 0)).map Prod.fst = [0] := by
    decide +kernel
  obtain ⟨pkt, hpkt⟩ : ∃ pkt, (0, pkt) ∈ delivered (handlePacket 3 staleFrame cutFrame 0) := by
    have hmem : 0 ∈ (delivered (handlePacket 3 staleFrame cutFrame 0)).map Prod.fst := by
      simp [hdel]
    obtain ⟨⟨_, pkt⟩, hpkt, rfl⟩ := List.mem_map.mp hmem
    exact ⟨pkt, hpkt⟩
  obtain ⟨e, he, heq⟩ := List.mem_filterMap.mp hpkt
  cases e <;> simp only [Event.callback?, Option.some.injEq, Prod.mk.injEq, reduceCtorEq] at heq
  obtain ⟨rfl, rfl⟩ := heq
  exact (h 3 staleFrame cutFrame (by decide)).callback _ _ he (Or.inr (by decide))

end Easn
