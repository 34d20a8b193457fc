import CoService.Easn.Roundtrip.Message

/-!
# What is accepted is a frame of a message

`encode` says what a client sends. `decode` is its inverse, as a specification of the format: it takes
the bytes of one frame and reads the message, if they are one.

* `decode_eq_some_iff` — `decode` is the inverse of `encode`, for frames whose size fits into the
  field
* `acks_decode` — a frame of 11 bytes or more that lies whole in a read is acknowledged with
  `SUCCESS` exactly if `decode` reads a message from it, and then this message is delivered
* `delivered_or_inside` — no such frame gets lost, unless it begins inside the bytes of another one
-/

namespace Easn

open Infra

/-- The message whose frame the bytes are. -/
def decode (l : List UInt8) : Option Message :=
  if isHeader l 0 = true ∧ 11 ≤ l.length ∧ ntohs ((l.drop 7).take 2) = l.length ∧
      checkCrc l l.length = some true then
    some
      { type := l.getD 2 0
        index := UInt32.ofNat (ntohl ((l.drop 3).take 4))
        payload := (l.drop 9).take (l.length - 11) }
  else none

/-! ## The CRC field -/

/-- What `check_crc` accepts, `fill_crc` would have written. -/
theorem eq_fillCrc_of_checkCrc {l buf : List UInt8} (hlen : buf.length = l.length)
    (htake : buf.take (l.length - 2) = l.take (l.length - 2))
    (h : checkCrc l l.length = some true) : l = fillCrc buf l.length := by
  have h2 := two_le_of_checkCrc h
  rw [checkCrc, if_pos ⟨h2, Nat.le_refl _⟩] at h
  simp only [Option.some.injEq, Bool.and_eq_true, beq_iff_eq] at h
  obtain ⟨hlow, hhigh⟩ := h
  rw [← htake] at hlow hhigh
  refine List.ext_getElem? fun i => ?_
  simp only [fillCrc]
  by_cases hend : i < l.length - 2
  · rw [List.getElem?_set_ne (by omega), List.getElem?_set_ne (by omega),
      ← List.getElem?_take_of_lt hend, ← htake, List.getElem?_take_of_lt hend]
  · by_cases hi : i = l.length - 2
    · subst hi
      rw [List.getElem?_set_self (by simp; omega), hhigh, List.getD_eq_getElem?_getD]
      simp [show l.length - 2 < l.length by omega]
    · rw [List.getElem?_set_ne (Ne.symm hi)]
      by_cases hi' : i = l.length - 1
      · subst hi'
        rw [List.getElem?_set_self (by omega), hlow, List.getD_eq_getElem?_getD]
        simp [show l.length - 1 < l.length by omega]
      · rw [List.getElem?_set_ne (Ne.symm hi'), List.getElem?_eq_none (by omega),
          List.getElem?_eq_none (by omega)]

/-! ## The fields -/

section fields

variable {l : List UInt8}

theorem htons_ntohs (h : 9 ≤ l.length) :
    htons (ntohs ((l.drop 7).take 2)) = (l.drop 7).take 2 := by
  have hlen : ((l.drop 7).take 2).length = 2 := by simp; omega
  have hread := beBytes_beNat ((l.drop 7).take 2)
  rwa [hlen] at hread

theorem htonl_ntohl (h : 9 ≤ l.length) :
    htonl (UInt32.ofNat (ntohl ((l.drop 3).take 4))).toNat = (l.drop 3).take 4 := by
  have hlen : ((l.drop 3).take 4).length = 4 := by simp; omega
  have hlt := beNat_lt ((l.drop 3).take 4)
  have hread := beBytes_beNat ((l.drop 3).take 4)
  rw [hlen] at hlt hread
  rw [UInt32.toNat_ofNat_of_lt' (by simpa [ntohl] using hlt)]
  exact hread

/-- A frame is its header, its fields, its payload and its CRC. -/
theorem take_eq_fields (hheader : isHeader l 0 = true) (h11 : 11 ≤ l.length) :
    l.take (l.length - 2) = [0xaa, 0x55, l.getD 2 0] ++ (l.drop 3).take 4 ++ (l.drop 7).take 2 ++
      (l.drop 9).take (l.length - 11) := by
  obtain ⟨a, b, c, rest, rfl⟩ : ∃ a b c rest, l = a :: b :: c :: rest := by
    rcases l with _ | ⟨a, _ | ⟨b, _ | ⟨c, rest⟩⟩⟩
    · simp at h11
    · simp at h11
    · simp at h11
    · exact ⟨a, b, c, rest, rfl⟩
  simp only [isHeader, List.getD_cons_zero, List.getD_cons_succ, Bool.and_eq_true,
    beq_iff_eq] at hheader
  obtain ⟨rfl, rfl⟩ := hheader
  simp only [List.length_cons] at h11 ⊢
  -- the rest is cut into four, two, the payload and what is left
  have hcut : rest.take (rest.length - 2) = rest.take 4 ++ (rest.drop 4).take 2 ++
      (rest.drop 6).take (rest.length - 8) := by
    have h1 : rest.length - 2 = 4 + (2 + (rest.length - 8)) := by omega
    rw [h1, List.take_add, List.take_add, List.drop_drop, List.append_assoc]
  have hsub : rest.length + 1 + 1 + 1 - 2 = rest.length - 2 + 3 := by omega
  have hsub' : rest.length + 1 + 1 + 1 - 11 = rest.length - 8 := by omega
  rw [hsub, hsub']
  simp only [List.take_succ_cons, hcut]
  simp

end fields

/-! ## The round trip -/

/-- What `decode` reads from is the frame of the message. -/
theorem eq_encode_of_decode {l : List UInt8} {m : Message} (h : decode l = some m) :
    l = encode m ∧ m.size = l.length := by
  rw [decode, Option.ite_none_right_eq_some] at h
  obtain ⟨⟨hheader, h11, hsize, hcrc⟩, h⟩ := h
  obtain rfl := Option.some.inj h
  have hpayload : ((l.drop 9).take (l.length - 11)).length = l.length - 11 := by simp; omega
  have hm : Message.size ⟨l.getD 2 0, UInt32.ofNat (ntohl ((l.drop 3).take 4)),
      (l.drop 9).take (l.length - 11)⟩ = l.length := by
    simp only [Message.size, hpayload]
    omega
  refine ⟨?_, hm⟩
  rw [encode, hm]
  refine eq_fillCrc_of_checkCrc ((length_fields _).trans hm) ?_ hcrc
  rw [take_eq_fields hheader h11, Message.fields, hm, htonl_ntohl (by omega), ← hsize,
    htons_ntohs (by omega), hsize]
  refine List.take_left' ?_
  simp only [List.length_append, List.length_cons, List.length_nil, hpayload, List.length_take,
    List.length_drop]
  omega

theorem decode_encode {m : Message} (h : m.size < 2 ^ 16) : decode (encode m) = some m := by
  have hlen := length_encode m
  have htake := take_encode m
  have hfield : ((encode m).drop 7).take 2 = htons m.size := by
    rw [← field_take (show 7 + 2 ≤ 9 + m.payload.length by omega), htake]
    simp [htonl, htons, beBytes]
  have hindex : ((encode m).drop 3).take 4 = htonl m.index.toNat := by
    rw [← field_take (show 3 + 4 ≤ 9 + m.payload.length by omega), htake]
    simp [htonl, htons, beBytes]
  have htype : (encode m).getD 2 0 = m.type := by
    rw [← getD_take (show 2 < 9 + m.payload.length by omega), htake]
    rfl
  have hpayload : ((encode m).drop 9).take (m.size - 11) = m.payload := by
    have hdrop : ((encode m).drop 9).take (m.size - 11)
        = ((encode m).take (9 + m.payload.length)).drop 9 := by
      rw [List.drop_take, Message.size]
      congr 1
    rw [hdrop, htake]
    simp [htonl, htons, beBytes]
  have hheader : isHeader (encode m) 0 = true := by
    obtain ⟨rest, hrest⟩ := encode_eq_cons m
    rw [hrest]
    rfl
  have hsize : ntohs (htons m.size) = m.size := beNat_beBytes_of_lt (by omega)
  have hidx : ntohl (htonl m.index.toNat) = m.index.toNat := beNat_beBytes_of_lt m.index.toNat_lt
  rw [decode, hlen, hfield, hindex, htype, hpayload, hsize, hidx, UInt32.ofNat_toNat,
    if_pos ⟨hheader, size_pos m, rfl, checkCrc_encode m⟩]

/--
**The format is read back exactly.**

`decode` reads a message from its frame, and from nothing else. The frame of a message that is too
long for the length field is not read.
-/
theorem decode_eq_some_iff (l : List UInt8) (m : Message) :
    decode l = some m ↔ l = encode m ∧ m.size < 2 ^ 16 := by
  constructor
  · intro h
    obtain ⟨hl, hsize⟩ := eq_encode_of_decode h
    refine ⟨hl, ?_⟩
    rw [decode, Option.ite_none_right_eq_some] at h
    have hlt := beNat_lt ((l.drop 7).take 2)
    have hlen : ((l.drop 7).take 2).length ≤ 2 := by simp
    have hpow : 256 ^ ((l.drop 7).take 2).length ≤ 256 ^ 2 := Nat.pow_le_pow_right (by omega) hlen
    have hfield : ntohs ((l.drop 7).take 2) = l.length := h.1.2.2.1
    rw [ntohs] at hfield
    omega
  · rintro ⟨rfl, hsize⟩
    exact decode_encode hsize

/-! ## In a read -/

/-- A frame that lies whole in the read begins at `s`. It declares as many bytes as a frame needs,
which the code does not check: a shorter one may pass its CRC check, but carries no message. -/
structure WholeAt (buf : ReadBuf) (s : Nat) : Prop where
  header : isHeader buf.bytes s = true
  min_le : 11 ≤ declaredLength buf s
  inside : s + declaredLength buf s ≤ buf.bytes.length

/-- The bytes of the frame. -/
def frameAt (buf : ReadBuf) (s : Nat) : List UInt8 :=
  (buf.bytes.drop s).take (declaredLength buf s)

section read

variable {buf : ReadBuf} {s : Nat}

namespace WholeAt

theorem length_frameAt (h : WholeAt buf s) : (frameAt buf s).length = declaredLength buf s := by
  have hinside := h.inside
  rw [frameAt, List.length_take, List.length_drop]
  omega

theorem sizeofPacket_eq (h : WholeAt buf s) (prior : PacketT) :
    sizeofPacket (recePtk prior buf s) = declaredLength buf s := by
  have hmin := h.min_le
  have hinside := h.inside
  have hle := buf.length_le
  rw [sizeofPacket_recePtk _ (by omega)]
  omega

/-- The check is about the bytes of the frame. -/
theorem checkCrc_eq (h : WholeAt buf s) (prior : PacketT) :
    checkCrc (recePtk prior buf s).buf (sizeofPacket (recePtk prior buf s))
      = checkCrc (frameAt buf s) (frameAt buf s).length := by
  have hinside := h.inside
  rw [h.sizeofPacket_eq, checkCrc_recePtk _ (by omega), h.length_frameAt, frameAt]

/-- A frame that passes its check is one that `decode` reads. -/
theorem decode_isSome_iff (h : WholeAt buf s) : (decode (frameAt buf s)).isSome = true ↔
    checkCrc (frameAt buf s) (frameAt buf s).length = some true := by
  have hmin := h.min_le
  have hheader : isHeader (frameAt buf s) 0 = true := by
    have hs := h.header
    simp only [isHeader, frameAt] at hs ⊢
    rw [getD_take (by omega), getD_take (by omega)]
    simpa [List.getD_eq_getElem?_getD, Nat.add_comm] using hs
  have hlength : ntohs (((frameAt buf s).drop 7).take 2) = (frameAt buf s).length := by
    rw [h.length_frameAt, frameAt, field_take (by omega), List.drop_drop, declaredLength]
  rw [decode]
  constructor
  · intro hsome
    by_contra hcrc
    rw [if_neg fun hall => hcrc hall.2.2.2] at hsome
    simp at hsome
  · intro hcrc
    rw [if_pos ⟨hheader, by rw [h.length_frameAt]; exact hmin, hlength, hcrc⟩]
    rfl

theorem accepts_iff (h : WholeAt buf s) (stale : Stale) :
    (scanner buf).accepts ⟨stale, s⟩ = true ↔ (decode (frameAt buf s)).isSome = true := by
  rw [h.decode_isSome_iff, Scanner.accepts, scanner_verdict, h.checkCrc_eq]
  simp

/-- The packet carries what `decode` reads, whatever `rece_ptk` held. -/
theorem carries (h : WholeAt buf s) {m : Message} (hm : decode (frameAt buf s) = some m)
    (prior : PacketT) : Carries (recePtk prior buf s) m := by
  have hinside := h.inside
  have hle := buf.length_le
  obtain ⟨hframe, hsize⟩ := eq_encode_of_decode hm
  rw [h.length_frameAt] at hsize
  refine carries_of_holds ?_ (by omega)
  rw [take_recePtk _ (by omega), hsize, ← hframe, frameAt]

end WholeAt

/-- The frame at `s` is acknowledged and handed to the callback as what `decode` reads there. -/
structure AckedAsRead (buf : ReadBuf) (r : Run Event) (s : Nat) (a : AckT) : Prop where
  success : ∀ m, decode (frameAt buf s) = some m → a.code = htons ReturnCode.success.value ∧
    ∃ pkt, (s, pkt) ∈ delivered r ∧ Carries pkt m
  crcError : decode (frameAt buf s) = none → a.code = htons ReturnCode.crcError.value ∧
    ∀ pkt, (s, pkt) ∉ delivered r

/--
**A whole frame is acknowledged and delivered as what it is.**

If `handle_packet` acknowledges the frame at `s`, which lies whole in the read and declares 11 bytes
at least, then with `SUCCESS` exactly if `decode` reads a message there, and this is what it hands to
the callback. Otherwise it reports a CRC error and never hands over anything from there. What
`rece_ptk` held does not matter.
-/
theorem acks_decode (fd : Int) (stale : Stale) (buf : ReadBuf) (s : Nat) (a : AckT)
    (ha : (s, a) ∈ acks (handlePacket fd stale buf 0)) (hw : WholeAt buf s) :
    AckedAsRead buf (handlePacket fd stale buf 0) s a := by
  rw [acks_handlePacket, List.mem_map] at ha
  obtain ⟨⟨env, start⟩, hv, heq⟩ := ha
  obtain ⟨rfl, rfl⟩ := Prod.mk.inj heq
  have hvisit := (List.mem_filter.mp hv).1
  constructor
  · intro m hm
    have hacc : (scanner buf).accepts ⟨env, start⟩ = true := (hw.accepts_iff env).mpr (by simp [hm])
    refine ⟨by rw [ackOf, code_fillAckPacket, if_pos hacc], received buf ⟨env, start⟩, ?_,
      hw.carries hm _⟩
    rw [delivered_handlePacket]
    exact List.mem_map.mpr ⟨_, List.mem_filter.mpr ⟨hvisit, hacc⟩, rfl⟩
  · intro hnone
    have hrej : ∀ env', (scanner buf).accepts ⟨env', start⟩ ≠ true := fun env' hacc => by
      have hsome := (hw.accepts_iff env').mp hacc
      simp [hnone] at hsome
    refine ⟨by rw [ackOf, code_fillAckPacket, if_neg (hrej env)], fun pkt hpkt => ?_⟩
    rw [delivered_handlePacket, List.mem_map] at hpkt
    obtain ⟨⟨env', start'⟩, hv', heq'⟩ := hpkt
    obtain ⟨rfl, _⟩ := Prod.mk.inj heq'
    exact hrej env' (List.mem_filter.mp hv').2

theorem length_twoReports : (encode ⟨typeReport, 1, [0x07]⟩ ++ [0x00, 0xaa, 0x01] ++
    (encode ⟨typeReport, 2, [0x08]⟩).set 9 0x09 ++ encode ⟨typeReport, 3, []⟩).length ≤ maxSize := by
  decide +kernel

/-- A read of three reports with noise behind the first one. The second one is spoiled. -/
def twoReports : ReadBuf :=
  ⟨encode ⟨typeReport, 1, [0x07]⟩ ++ [0x00, 0xaa, 0x01] ++
    (encode ⟨typeReport, 2, [0x08]⟩).set 9 0x09 ++ encode ⟨typeReport, 3, []⟩, length_twoReports⟩

theorem wholeAt_twoReports : ∀ s ∈ [0, 15, 27], WholeAt twoReports s := by
  have hall : ∀ s ∈ [0, 15, 27], isHeader twoReports.bytes s = true ∧
      11 ≤ declaredLength twoReports s ∧
      s + declaredLength twoReports s ≤ twoReports.bytes.length := by decide +kernel
  exact fun s hs => ⟨(hall s hs).1, (hall s hs).2.1, (hall s hs).2.2⟩

theorem mem_acks_twoReports : ∀ s ∈ [0, 15, 27],
    ∃ a, (s, a) ∈ acks (handlePacket 4 zeroStale twoReports 0) := by
  have hacks : ∀ s ∈ [0, 15, 27],
      s ∈ (acks (handlePacket 4 zeroStale twoReports 0)).map Prod.fst := by decide +kernel
  intro s hs
  obtain ⟨⟨_, a⟩, ha, rfl⟩ := List.mem_map.mp (hacks s hs)
  exact ⟨a, ha⟩

/-- The first report and the spoiled one. -/
theorem acks_decode_twoReports :
    (∃ a, (0, a) ∈ acks (handlePacket 4 zeroStale twoReports 0) ∧
        AckedAsRead twoReports (handlePacket 4 zeroStale twoReports 0) 0 a) ∧
      ∃ a, (15, a) ∈ acks (handlePacket 4 zeroStale twoReports 0) ∧
        AckedAsRead twoReports (handlePacket 4 zeroStale twoReports 0) 15 a := by
  obtain ⟨a, ha⟩ := mem_acks_twoReports 0 (by decide)
  obtain ⟨b, hb⟩ := mem_acks_twoReports 15 (by decide)
  exact ⟨⟨a, ha, acks_decode 4 zeroStale twoReports 0 a ha (wholeAt_twoReports 0 (by decide))⟩,
    ⟨b, hb, acks_decode 4 zeroStale twoReports 15 b hb (wholeAt_twoReports 15 (by decide))⟩⟩

/--
**No frame gets lost.**

Every frame that lies whole in the read and that `decode` reads is delivered, or it begins inside the
bytes of a packet that was delivered, whatever stands around it and whatever `rece_ptk` held. Each
header of the read has its prefix of 9 bytes there and declares 2 bytes at least, so that no check
runs out of bounds.
-/
theorem delivered_or_inside (fd : Int) (stale : Stale) (buf : ReadBuf)
    (hcomplete : CompletePrefixes buf) (s : Nat) (m : Message) (hw : WholeAt buf s)
    (hm : decode (frameAt buf s) = some m) :
    (∃ pkt, (s, pkt) ∈ delivered (handlePacket fd stale buf 0) ∧ Carries pkt m) ∨
      ∃ s' pkt, (s', pkt) ∈ delivered (handlePacket fd stale buf 0) ∧ s' < s ∧
        s < s' + sizeofPacket pkt := by
  have hdelivered : ∀ v ∈ (scanner buf).scan stale 0, (scanner buf).accepts v = true →
      (v.start, received buf v) ∈ delivered (handlePacket fd stale buf 0) := by
    intro v hv hacc
    rw [delivered_handlePacket]
    have hrun := (Scanner.scan_prefix_run stale 0).subset hv
    exact List.mem_map.mpr ⟨v, List.mem_filter.mpr ⟨hrun, hacc⟩, rfl⟩
  have hlt := lt_of_isHeader hw.header
  have hstop : s < (scanner buf).stop := show s < buf.bytes.length - 1 by omega
  rcases Scanner.header_scanned hcomplete.total stale hw.header hstop (Nat.zero_le s)
    with ⟨⟨env, start⟩, hv, rfl⟩ | ⟨v, hv, hacc, hbefore, hbehind⟩
  · have hacc : (scanner buf).accepts ⟨env, start⟩ = true := (hw.accepts_iff env).mpr (by simp [hm])
    exact Or.inl ⟨_, hdelivered _ hv hacc, hw.carries hm _⟩
  · exact Or.inr ⟨v.start, received buf v, hdelivered v hv hacc, hbefore, hbehind⟩

theorem completePrefixes_twoReports : CompletePrefixes twoReports := by
  have hlen : twoReports.bytes.length = 38 := by decide +kernel
  have hall : ∀ s ∈ List.range 38, isHeader twoReports.bytes s = true →
      s + 9 ≤ 38 ∧ 2 ≤ declaredLength twoReports s := by decide +kernel
  intro s hs
  have hlt := lt_of_isHeader hs
  rw [hlen] at hlt ⊢
  exact hall s (List.mem_range.mpr (by omega)) hs

/-- The last report, behind the spoiled one. -/
theorem delivered_or_inside_twoReports :
    (∃ pkt, (27, pkt) ∈ delivered (handlePacket 4 zeroStale twoReports 0) ∧
        Carries pkt ⟨typeReport, 3, []⟩) ∨
      ∃ s' pkt, (s', pkt) ∈ delivered (handlePacket 4 zeroStale twoReports 0) ∧ s' < 27 ∧
        27 < s' + sizeofPacket pkt := by
  have hframe : frameAt twoReports 27 = encode ⟨typeReport, 3, []⟩ := by decide +kernel
  exact delivered_or_inside 4 zeroStale twoReports completePrefixes_twoReports 27 _
    (wholeAt_twoReports 27 (by decide)) (hframe ▸ decode_encode (by decide))

end read

end Easn
