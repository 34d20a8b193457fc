import CoService.Easn.Properties.Bounds

/-!
# The size of the payload

`sizeof_data` subtracts 11 from the size of the packet, as `size_t`, and then asks whether the
difference is positive. A packet that declares fewer bytes than its own prefix and CRC makes the
difference wrap around, and it is positive then as well.

* `sizeofData_eq_iff` — the difference is right exactly for packets of 11 bytes at least
* `payloadInside_iff` — every payload handed over lies inside its frame, exactly when no header that
  is looked at starts a frame of 4 to 10 bytes with a right CRC
* `payloadInside_iff_received` — the same for all prior contents of `rece_ptk`, with a condition on the
  received bytes alone
-/

namespace Easn

open Infra Crc16

/-! ## The subtraction -/

theorem sizeofData_of_le {p : PacketT} (h : 11 ≤ sizeofPacket p) :
    sizeofData p = sizeofPacket p - 11 := by
  have hle := sizeofPacket_le p
  have hmax : maxSize = 16384 := rfl
  unfold sizeofData
  simp only []
  split <;> omega

/-- The difference of a short packet wraps around. -/
theorem sizeofData_of_lt {p : PacketT} (h : sizeofPacket p < 11) :
    sizeofData p = 2 ^ 64 + sizeofPacket p - 11 := by
  unfold sizeofData
  simp only []
  split <;> omega

theorem sizeofData_eq_iff {p : PacketT} :
    sizeofData p = (if 11 ≤ sizeofPacket p then sizeofPacket p - 11 else 0) ↔
      11 ≤ sizeofPacket p := by
  constructor
  · intro h
    by_contra hlt
    rw [if_neg hlt, sizeofData_of_lt (Nat.lt_of_not_le hlt)] at h
    omega
  · intro h
    rw [if_pos h, sizeofData_of_le h]

/-- The size as `produce` gets it: an `int`. -/
def producedSize (size : Nat) : Int32 := Int32.ofNat size

theorem producedSize_nonneg {n : Nat} (h : n ≤ maxSize) : 0 ≤ producedSize n := by
  have hmax : maxSize = 16384 := rfl
  rw [Int32.le_iff_toInt_le, producedSize, Int32.toInt_ofNat_of_lt (by omega)]
  exact Int.natCast_nonneg n

/-! ## Short frames -/

variable {fd : Int} {stale : Stale} {buf : ReadBuf} {pos : Nat}

/-- A packet begins with the header that it was found by. -/
theorem take_two_received {v : Visit Stale} (h : isHeader buf.bytes v.start = true) :
    (received buf v).buf.take 2 = [0xaa, 0x55] := by
  have hlt := lt_of_isHeader h
  rw [isHeader, Bool.and_eq_true, beq_iff_eq, beq_iff_eq, List.getD_eq_getElem?_getD,
    List.getD_eq_getElem?_getD, List.getElem?_eq_getElem (by omega), List.getElem?_eq_getElem hlt,
    Option.getD_some, Option.getD_some] at h
  rw [received, take_recePtk _ (by omega), List.drop_eq_getElem_cons (by omega),
    List.drop_eq_getElem_cons hlt, h.1, h.2]
  rfl

/-- No two bytes are a header and its own CRC. -/
theorem size_ne_two {v : Visit Stale} (h : isHeader buf.bytes v.start = true)
    (ha : (scanner buf).accepts v = true) : sizeofPacket (received buf v) ≠ 2 := by
  intro hsize
  rw [Scanner.accepts, scanner_verdict, beq_iff_eq] at ha
  have hle : 2 ≤ (received buf v).buf.length := by
    rw [PacketT.length_buf]
    decide
  have hcheck : checkCrc (received buf v).buf 2 = some true := by
    rw [← hsize]
    exact ha
  rw [← checkCrc_take hle, take_two_received h] at hcheck
  revert hcheck
  decide +kernel

/-- The CRC of the first header byte does not begin with the second. -/
theorem size_ne_three {v : Visit Stale} (h : isHeader buf.bytes v.start = true)
    (ha : (scanner buf).accepts v = true) : sizeofPacket (received buf v) ≠ 3 := by
  intro hsize
  rw [Scanner.accepts, scanner_verdict, beq_iff_eq] at ha
  have hcheck : checkCrc (received buf v).buf 3 = some true := by
    rw [← hsize]
    exact ha
  have htwo := take_two_received h
  have hone : (received buf v).buf.take 1 = [0xaa] := by
    have htake := congrArg (List.take 1) htwo
    rwa [List.take_take] at htake
  have hsecond : (received buf v).buf.getD 1 0 = 0x55 := by
    have hget := congrArg (fun l => l.getD 1 0) htwo
    simpa [List.getD_eq_getElem?_getD] using hget
  have hhigh : (crc16Compute [0xaa] >>> 8).toUInt8 ≠ 0x55 := by decide +kernel
  rw [checkCrc] at hcheck
  split at hcheck
  · simp only [Nat.reduceSub, hone, hsecond, Option.some.injEq, Bool.and_eq_true, beq_iff_eq]
      at hcheck
    exact hhigh hcheck.2
  · simp at hcheck

/-- An accepted packet has two bytes in front of its CRC. -/
theorem four_le_of_accepts {v : Visit Stale} (h : isHeader buf.bytes v.start = true)
    (ha : (scanner buf).accepts v = true) : 4 ≤ sizeofPacket (received buf v) := by
  have hcheck := ha
  rw [Scanner.accepts, scanner_verdict, beq_iff_eq] at hcheck
  have htwo : 2 ≤ sizeofPacket (received buf v) := two_le_of_checkCrc hcheck
  have hne2 := size_ne_two h ha
  have hne3 := size_ne_three h ha
  omega

/-- A frame in the buffer with a right CRC, too short for its own fields. -/
structure ShortFrame (buf : ReadBuf) (v : Visit Stale) : Prop where
  four_le : 4 ≤ ntohs (received buf v).length
  lt_eleven : ntohs (received buf v).length < 11
  whole : v.start + ntohs (received buf v).length ≤ buf.bytes.length
  crc : checkCrc (received buf v).buf (ntohs (received buf v).length) = some true

theorem shortFrame_iff {v : Visit Stale} (h : isHeader buf.bytes v.start = true) :
    ShortFrame buf v ↔ (scanner buf).accepts v = true ∧ sizeofPacket (received buf v) < 11 ∧
      v.start + sizeofPacket (received buf v) ≤ buf.bytes.length := by
  have hmin := sizeofPacket_eq_min (received buf v)
  have hmax : maxSize = 16384 := rfl
  constructor
  · intro hs
    have hlt := hs.lt_eleven
    have hsize : sizeofPacket (received buf v) = ntohs (received buf v).length := by omega
    rw [hsize, Scanner.accepts, scanner_verdict, beq_iff_eq]
    refine ⟨?_, hlt, hs.whole⟩
    show checkCrc (received buf v).buf (sizeofPacket (received buf v)) = some true
    rw [hsize]
    exact hs.crc
  · rintro ⟨ha, hlt, hwhole⟩
    have hfour := four_le_of_accepts h ha
    have hsize : sizeofPacket (received buf v) = ntohs (received buf v).length := by omega
    rw [Scanner.accepts, scanner_verdict, beq_iff_eq] at ha
    rw [hsize] at hfour hlt hwhole
    refine ⟨hfour, hlt, hwhole, ?_⟩
    rw [← hsize]
    exact ha

/-! ## What is handed over -/

/-- The payload of every packet that is handed to the callback lies in its frame, between the prefix
and the CRC, if the frame lies in the buffer. Its size does not change when it is made an `int`. -/
structure PayloadInside (buf : ReadBuf) (r : Run Event) : Prop where
  size_eq : ∀ start pkt, .callback start pkt ∈ r.events →
    start + sizeofPacket pkt ≤ buf.bytes.length →
    sizeofData pkt = if 11 ≤ sizeofPacket pkt then sizeofPacket pkt - 11 else 0
  size_le : ∀ start pkt, .callback start pkt ∈ r.events →
    start + sizeofPacket pkt ≤ buf.bytes.length → sizeofData pkt ≤ maxSize - 11
  produced_nonneg : ∀ start pkt, .callback start pkt ∈ r.events →
    start + sizeofPacket pkt ≤ buf.bytes.length → 0 ≤ producedSize (sizeofData pkt)

/-- The payloads lie inside their frames when no frame in the buffer is shorter than its prefix and
its CRC. -/
theorem payloadInside_iff_forall_callback {r : Run Event} :
    PayloadInside buf r ↔ ∀ start pkt, .callback start pkt ∈ r.events →
      start + sizeofPacket pkt ≤ buf.bytes.length → 11 ≤ sizeofPacket pkt := by
  constructor
  · intro h start pkt hmem hwhole
    exact sizeofData_eq_iff.mp (h.size_eq start pkt hmem hwhole)
  · intro hlong
    have hle : ∀ start pkt, .callback start pkt ∈ r.events →
        start + sizeofPacket pkt ≤ buf.bytes.length → sizeofData pkt ≤ maxSize - 11 := by
      intro start pkt hmem hwhole
      have hsize := sizeofPacket_le pkt
      rw [sizeofData_of_le (hlong start pkt hmem hwhole)]
      omega
    refine ⟨fun start pkt hmem hwhole => ?_, hle, fun start pkt hmem hwhole => ?_⟩
    · exact sizeofData_eq_iff.mpr (hlong start pkt hmem hwhole)
    · exact producedSize_nonneg ((hle start pkt hmem hwhole).trans (Nat.sub_le _ _))

/-- **When every payload lies inside its frame.** -/
theorem payloadInside_iff (fd : Int) (stale : Stale) (buf : ReadBuf) :
    PayloadInside buf (handlePacket fd stale buf 0) ↔
      ∀ v, (scanner buf).Examines stale 0 v → ¬ ShortFrame buf v := by
  rw [payloadInside_iff_forall_callback]
  constructor
  · intro h v hv hshort
    obtain ⟨ha, hlt, hwhole⟩ := (shortFrame_iff hv.header).mp hshort
    have hle := h v.start _ (mem_callback_iff.mpr ⟨v, hv, ha, rfl, rfl⟩) hwhole
    omega
  · intro h start pkt hmem hwhole
    obtain ⟨v, hv, ha, rfl, rfl⟩ := mem_callback_iff.mp hmem
    by_contra hlt
    exact h v hv ((shortFrame_iff hv.header).mpr ⟨ha, Nat.lt_of_not_le hlt, hwhole⟩)

/-- The received bytes at `start` are a frame with a right CRC that is too short for its own fields,
if they leave its length open. -/
def ShortReceived (buf : ReadBuf) (start : Nat) : Prop :=
  ∃ n, MayDeclare buf start n ∧ 4 ≤ n ∧ n < 11 ∧ start + n ≤ buf.bytes.length ∧
    checkCrc ((buf.bytes.drop start).take n) n = some true

theorem shortReceived_iff {start : Nat} :
    ShortReceived buf start ↔ ∃ env, ShortFrame buf ⟨env, start⟩ := by
  constructor
  · rintro ⟨n, hn, hfour, hlt, hwhole, hcrc⟩
    obtain ⟨prior, rfl⟩ := mayDeclare_iff.mp hn
    rw [← checkCrc_recePtk prior (by omega)] at hcrc
    exact ⟨fun _ => prior, hfour, hlt, hwhole, hcrc⟩
  · rintro ⟨env, hfour, hlt, hwhole, hcrc⟩
    refine ⟨_, mayDeclare_iff.mpr ⟨env [], rfl⟩, hfour, hlt, hwhole, ?_⟩
    simp only [received] at hwhole hcrc
    rwa [checkCrc_recePtk (env []) (by omega)] at hcrc

/-- **When every payload lies inside its frame**, with any bytes in `rece_ptk`: the scan can get to no
short frame. -/
theorem payloadInside_iff_received (buf : ReadBuf) :
    (∀ (fd : Int) (stale : Stale), PayloadInside buf (handlePacket fd stale buf 0)) ↔
      ∀ start, Reaches buf 0 start → ¬ ShortReceived buf start := by
  constructor
  · intro h start hreach hshort
    obtain ⟨env, hframe⟩ := shortReceived_iff.mp hshort
    obtain ⟨stale, hexamines⟩ := exists_examines hreach env
    obtain ⟨ha, hlt, hwhole⟩ := (shortFrame_iff hexamines.header).mp hframe
    have hlong := payloadInside_iff_forall_callback.mp (h 0 stale)
    have hle := hlong start _ (mem_callback_iff.mpr ⟨_, hexamines, ha, rfl, rfl⟩) hwhole
    omega
  · intro h fd stale
    rw [payloadInside_iff_forall_callback]
    intro start pkt hmem hwhole
    obtain ⟨v, hv, ha, rfl, rfl⟩ := mem_callback_iff.mp hmem
    by_contra hlt
    exact h v.start (reaches_of_examines hv) (shortReceived_iff.mpr
      ⟨v.env, (shortFrame_iff hv.header).mpr ⟨ha, Nat.lt_of_not_le hlt, hwhole⟩⟩)

/-- A frame of 4 bytes: the header and its CRC, which stands where type and index are read. -/
def frameOfFour : ReadBuf where
  bytes := [0xaa, 0x55, 0x9f, 0xbe, 0x00, 0x00, 0x00, 0x00, 0x04, 0x00, 0x00]
  length_le := by decide

theorem not_payloadInside :
    ¬ ∀ (fd : Int) (stale : Stale) (buf : ReadBuf), 11 ≤ buf.bytes.length →
      PayloadInside buf (handlePacket fd stale buf 0) := by
  intro h
  let v : Visit Stale := ⟨zeroStale, 0⟩
  have hexamined : (scanner frameOfFour).Examines zeroStale 0 v := .here (by decide)
  have haccepts : (scanner frameOfFour).accepts v = true := by decide +kernel
  have hsize : sizeofPacket (received frameOfFour v) = 4 := by decide +kernel
  have hdata := (h 3 zeroStale frameOfFour (by decide)).size_eq 0 _
    (mem_callback_iff.mpr ⟨v, hexamined, haccepts, rfl, rfl⟩) (by rw [hsize]; decide)
  have hle := sizeofData_eq_iff.mp hdata
  omega

end Easn
