import CoService.Easn.HandlePacket

/-!
# What stale bytes do to one header

A frame that is not wholly in the buffer is checked together with what `rece_ptk` held behind the
received bytes. This file says what that can do to the verdict, whatever was received:

* `exists_rejecting` — there are always stale bytes with which the frame is rejected
* `exists_accepting`, `completable_of_accepts` — there are stale bytes with which it is accepted,
  exactly when it is `Completable`, which the received bytes decide

The witnesses are packets that agree with `filler` on the received bytes and on the prefix.
-/

namespace Easn

open Infra Crc16

/-- The bytes that `check_crc` reads of the frame at `start`. -/
def frameSize (buf : ReadBuf) (start : Nat) : Nat := min (declaredLength buf start) maxSize

/-- The prefix of the frame at `start` and all the bytes that `check_crc` reads were received. -/
def Whole (buf : ReadBuf) (start : Nat) : Prop :=
  start + 9 ≤ buf.bytes.length ∧ frameSize buf start ≤ buf.bytes.length - start

instance (buf : ReadBuf) (start : Nat) : Decidable (Whole buf start) :=
  inferInstanceAs (Decidable (_ ∧ _))

/-- The frame at `start` may get a right CRC from stale bytes: its prefix was cut off, or both bytes
of its CRC were, or the low byte was and the high byte is right. -/
def Completable (buf : ReadBuf) (start : Nat) : Prop :=
  buf.bytes.length < start + 9 ∨
    buf.bytes.length + 2 ≤ start + frameSize buf start ∨
    (buf.bytes.length + 1 = start + frameSize buf start ∧
      (crc16Compute ((buf.bytes.drop start).take (buf.bytes.length - start - 1)) >>> 8).toUInt8
        = buf.bytes.getD (buf.bytes.length - 1) 0)

instance (buf : ReadBuf) (start : Nat) : Decidable (Completable buf start) :=
  inferInstanceAs (Decidable (_ ∨ _ ∨ _))

section

variable {buf : ReadBuf} {start : Nat} {prior : PacketT} {type : UInt8}

theorem sizeofPacket_eq_frameSize (prior : PacketT) (h9 : start + 9 ≤ buf.bytes.length) :
    sizeofPacket (recePtk prior buf start) = frameSize buf start :=
  sizeofPacket_recePtk prior h9

/-- A received byte, in the packet. -/
theorem getD_recePtk (prior : PacketT) {i : Nat} (hi : i < buf.bytes.length - start) :
    (recePtk prior buf start).buf.getD i 0 = buf.bytes.getD (start + i) 0 := by
  rw [recePtk, buf_memcpy, List.getD_eq_getElem?_getD, List.getD_eq_getElem?_getD,
    List.getElem?_append_left (by rwa [List.length_drop]), List.getElem?_drop]

theorem lt_sizeofPacket_of_not_whole (h9 : start + 9 ≤ buf.bytes.length)
    (hw : ¬ Whole buf start) :
    buf.bytes.length - start < sizeofPacket (recePtk prior buf start) := by
  rw [sizeofPacket_eq_frameSize prior h9]
  exact Nat.lt_of_not_le fun hle => hw ⟨h9, hle⟩

/-- **Whatever is accepted though it is not whole was completable.** -/
theorem completable_of_accepts (hw : ¬ Whole buf start)
    (h : checkCrc (recePtk prior buf start).buf (sizeofPacket (recePtk prior buf start))
      = some true) : Completable buf start := by
  rcases Nat.lt_or_ge buf.bytes.length (start + 9) with hcut | h9
  · exact Or.inl hcut
  have hlt : buf.bytes.length - start < frameSize buf start :=
    Nat.lt_of_not_le fun hle => hw ⟨h9, hle⟩
  rw [sizeofPacket_eq_frameSize prior h9] at h
  rcases Nat.lt_or_ge (buf.bytes.length + 1) (start + frameSize buf start) with hboth | hlow
  · exact Or.inr (Or.inl hboth)
  -- the low byte is the only one that was not received
  have hsize : frameSize buf start = buf.bytes.length - start + 1 := by omega
  refine Or.inr (Or.inr ⟨by omega, ?_⟩)
  rw [hsize, checkCrc] at h
  split at h
  · have hcovered : (recePtk prior buf start).buf.take (buf.bytes.length - start + 1 - 2)
        = (buf.bytes.drop start).take (buf.bytes.length - start - 1) :=
      take_recePtk prior (by omega)
    have hread : (recePtk prior buf start).buf.getD (buf.bytes.length - start + 1 - 2) 0
        = buf.bytes.getD (buf.bytes.length - 1) 0 := by
      rw [getD_recePtk prior (by omega),
        show start + (buf.bytes.length - start + 1 - 2) = buf.bytes.length - 1 by omega]
    rw [hcovered, hread] at h
    simp only [Option.some.injEq, Bool.and_eq_true, beq_iff_eq] at h
    exact h.2
  · simp at h

/-! ## Packets that hold what was received -/

/-- The frame at `start` may have the type: it was not received, or it is this one. -/
def MayHaveType (buf : ReadBuf) (start : Nat) (type : UInt8) : Prop :=
  start + 2 < buf.bytes.length → buf.bytes.getD (start + 2) 0 = type

/-- What was received, and behind it ones and a type. -/
def filler (buf : ReadBuf) (start : Nat) (type : UInt8) : PacketT :=
  recePtk ⟨(List.replicate maxSize 0xff).set 2 type, by simp⟩ buf start

/-- The bytes of the prefix and those received. -/
def fixedBytes (buf : ReadBuf) (start : Nat) : Nat := max (buf.bytes.length - start) 9

theorem sizeofPacket_congr {p q : PacketT} (h : p.buf.take 9 = q.buf.take 9) :
    sizeofPacket p = sizeofPacket q := by
  have hlength : p.length = q.length := by
    rw [PacketT.length, ← field_take (show 7 + 2 ≤ 9 by decide), h, field_take (by decide)]
    rfl
  rw [sizeofPacket_eq_min, sizeofPacket_eq_min, hlength]

/-- A packet that agrees with `filler` where it must is what `memcpy` makes of itself. -/
theorem recePtk_of_agrees {p : PacketT} (h : p.buf.take (fixedBytes buf start)
      = (filler buf start type).buf.take (fixedBytes buf start)) :
    recePtk p buf start = p ∧ sizeofPacket p = sizeofPacket (filler buf start type) := by
  have hshort : ∀ n ≤ fixedBytes buf start, p.buf.take n = (filler buf start type).buf.take n := by
    intro n hn
    have htake := congrArg (List.take n) h
    rwa [List.take_take, List.take_take, Nat.min_eq_left hn] at htake
  refine ⟨PacketT.ext ?_, sizeofPacket_congr (hshort 9 (Nat.le_max_right ..))⟩
  have hreceived : p.buf.take (buf.bytes.length - start) = buf.bytes.drop start := by
    rw [hshort _ (Nat.le_max_left ..), filler, take_recePtk _ (Nat.le_refl _), ← List.length_drop,
      List.take_length]
  rw [recePtk, buf_memcpy, List.length_drop, ← hreceived, List.take_append_drop]

/-- A cut-off prefix leaves the low byte of the length to the ones. -/
theorem le_sizeofPacket_filler (type : UInt8) (hcut : buf.bytes.length < start + 9) :
    255 ≤ sizeofPacket (filler buf start type) := by
  have hmax : maxSize = 16384 := rfl
  have hlen : (filler buf start type).length.length = 2 := by
    simp [PacketT.length, PacketT.length_buf, hmax]
  have hlow : (filler buf start type).length[1]? = some 0xff := by
    rw [PacketT.length, List.getElem?_take_of_lt (by decide), List.getElem?_drop, filler, recePtk,
      buf_memcpy, List.getElem?_append_right (by simp; omega), List.getElem?_drop,
      List.getElem?_set_ne (by simp; omega), List.getElem?_replicate_of_lt (by simp; omega)]
  obtain ⟨high, low, hbytes⟩ := List.length_eq_two.mp hlen
  obtain rfl : low = 0xff := by simpa [hbytes] using hlow
  have hdeclared : ntohs (filler buf start type).length = high.toNat * 256 + 255 := by
    rw [hbytes]
    simp [ntohs, beNat]
  rw [sizeofPacket_eq_min, hdeclared]
  omega

theorem type_filler (ht : MayHaveType buf start type) : (filler buf start type).type = type := by
  have hmax : maxSize = 16384 := rfl
  rcases Nat.lt_or_ge (start + 2) buf.bytes.length with hin | hout
  · rw [← ht hin, PacketT.type, filler, getD_recePtk _ (by omega)]
  · rw [PacketT.type, filler, recePtk, buf_memcpy, List.getD_eq_getElem?_getD,
      List.getElem?_append_right (by simp; omega), List.getElem?_drop,
      show (buf.bytes.drop start).length + (2 - (buf.bytes.drop start).length) = 2 by simp; omega,
      List.getElem?_set_self (by rw [List.length_replicate, hmax]; decide)]
    rfl

theorem fixedBytes_lt_filler (type : UInt8) (hw : ¬ Whole buf start) :
    fixedBytes buf start < sizeofPacket (filler buf start type) := by
  unfold fixedBytes
  rcases Nat.lt_or_ge buf.bytes.length (start + 9) with hcut | h9
  · have hle := le_sizeofPacket_filler type hcut
    omega
  · have hlt : buf.bytes.length - start < sizeofPacket (filler buf start type) :=
      lt_sizeofPacket_of_not_whole h9 hw
    omega

/-! ## Both verdicts -/

theorem length_filler_buf (buf : ReadBuf) (start : Nat) (type : UInt8) :
    (filler buf start type).buf.length = maxSize := PacketT.length_buf _

/-- **There are stale bytes with which a frame that is not whole is rejected.** -/
theorem exists_rejecting (hw : ¬ Whole buf start) :
    ∃ prior, buf.bytes.length - start < sizeofPacket (recePtk prior buf start) ∧
      checkCrc (recePtk prior buf start).buf (sizeofPacket (recePtk prior buf start))
        = some false := by
  have hfixed := fixedBytes_lt_filler 0 hw
  have hle := sizeofPacket_le (filler buf start 0)
  have hnine : 9 ≤ fixedBytes buf start := Nat.le_max_right ..
  have hremain : buf.bytes.length - start ≤ fixedBytes buf start := Nat.le_max_left ..
  -- the last byte of the frame is stale: let it be wrong
  let size := sizeofPacket (filler buf start 0)
  let low := (crc16Compute ((filler buf start 0).buf.take (size - 2))).toUInt8
  let p : PacketT := ⟨(filler buf start 0).buf.set (size - 1) (low + 1), by
    rw [List.length_set, length_filler_buf]⟩
  have hagrees : p.buf.take (fixedBytes buf start)
      = (filler buf start 0).buf.take (fixedBytes buf start) :=
    List.take_set_of_le (by omega)
  obtain ⟨hself, hsize⟩ := recePtk_of_agrees hagrees
  refine ⟨p, ?_, ?_⟩
  · rw [hself, hsize]
    omega
  · have hcovered : p.buf.take (size - 2) = (filler buf start 0).buf.take (size - 2) :=
      List.take_set_of_le (by omega)
    have hlast : p.buf.getD (size - 1) 0 = low + 1 := by
      rw [List.getD_eq_getElem?_getD, List.getElem?_set_self (by rw [length_filler_buf]; omega)]
      rfl
    rw [hself, hsize, checkCrc, if_pos ⟨by omega, by rw [PacketT.length_buf]; exact hle⟩]
    simp only []
    rw [hcovered, hlast]
    have hne : low ≠ low + 1 := by grind
    show some (low == low + 1 && _) = some false
    rw [beq_eq_false_iff_ne.mpr hne, Bool.false_and]

/-- Where only the low byte of the CRC is stale, the high byte is right already. -/
theorem take_fillCrc_filler (hw : ¬ Whole buf start) (hc : Completable buf start)
    (hlow : fixedBytes buf start = sizeofPacket (filler buf start type) - 1) :
    (fillCrc (filler buf start type).buf (sizeofPacket (filler buf start type))).take
      (fixedBytes buf start)
      = (filler buf start type).buf.take (fixedBytes buf start) := by
  have hfixed := fixedBytes_lt_filler type hw
  have hle := sizeofPacket_le (filler buf start type)
  rcases Nat.lt_or_ge buf.bytes.length (start + 9) with hcut | h9
  · have h255 := le_sizeofPacket_filler type hcut
    unfold fixedBytes at hlow
    omega
  have hremain : fixedBytes buf start = buf.bytes.length - start := by
    unfold fixedBytes
    omega
  have hsize : sizeofPacket (filler buf start type) = frameSize buf start :=
    sizeofPacket_eq_frameSize _ h9
  rcases hc with hcut | hboth | ⟨_, hhigh⟩
  · omega
  · omega
  have hcovered : (filler buf start type).buf.take (buf.bytes.length - start - 1)
      = (buf.bytes.drop start).take (buf.bytes.length - start - 1) :=
    take_recePtk _ (by omega)
  have hread : (filler buf start type).buf.getD (buf.bytes.length - start - 1) 0
      = buf.bytes.getD (buf.bytes.length - 1) 0 := by
    rw [filler, getD_recePtk _ (by omega),
      show start + (buf.bytes.length - start - 1) = buf.bytes.length - 1 by omega]
  have hsame : (filler buf start type).buf.set (buf.bytes.length - start - 1)
      (crc16Compute ((filler buf start type).buf.take (buf.bytes.length - start - 1)) >>> 8).toUInt8
        = (filler buf start type).buf := by
    have hlt : buf.bytes.length - start - 1 < (filler buf start type).buf.length := by
      rw [length_filler_buf]
      omega
    rw [hcovered, hhigh, ← hread, List.getD_eq_getElem?_getD, List.getElem?_eq_getElem hlt,
      Option.getD_some, List.set_getElem_self]
  have hindex : sizeofPacket (filler buf start type) - 2 = buf.bytes.length - start - 1 := by omega
  rw [fillCrc, hindex, List.set_comm _ _ (by omega), hsame]
  exact List.take_set_of_le (by omega)

/-- **There are stale bytes with which a completable frame is accepted**, with any type that was left
open. -/
theorem exists_accepting_of_type (hw : ¬ Whole buf start) (hc : Completable buf start)
    (ht : MayHaveType buf start type) :
    ∃ prior, buf.bytes.length - start < sizeofPacket (recePtk prior buf start) ∧
      checkCrc (recePtk prior buf start).buf (sizeofPacket (recePtk prior buf start))
        = some true ∧ (recePtk prior buf start).type = type := by
  have hfixed := fixedBytes_lt_filler type hw
  have hle := sizeofPacket_le (filler buf start type)
  have hnine : 9 ≤ fixedBytes buf start := Nat.le_max_right ..
  have hremain : buf.bytes.length - start ≤ fixedBytes buf start := Nat.le_max_left ..
  let size := sizeofPacket (filler buf start type)
  let p : PacketT := ⟨fillCrc (filler buf start type).buf size, by
    rw [length_fillCrc, length_filler_buf]⟩
  have hagrees : p.buf.take (fixedBytes buf start)
      = (filler buf start type).buf.take (fixedBytes buf start) := by
    rcases Nat.lt_or_ge size (fixedBytes buf start + 2) with hlow | hboth
    · exact take_fillCrc_filler hw hc (show fixedBytes buf start = size - 1 by omega)
    · have hcovered : p.buf.take (size - 2) = (filler buf start type).buf.take (size - 2) :=
        take_fillCrc _ (by omega)
      have htake := congrArg (List.take (fixedBytes buf start)) hcovered
      rwa [List.take_take, List.take_take, Nat.min_eq_left (by omega)] at htake
  obtain ⟨hself, hsize⟩ := recePtk_of_agrees hagrees
  refine ⟨p, ?_, ?_, ?_⟩
  · rw [hself, hsize]
    omega
  · rw [hself, hsize]
    exact checkCrc_fillCrc (by omega) (by rw [length_filler_buf]; exact hle)
  · have htwo : 2 < fixedBytes buf start := by omega
    rw [hself, ← type_filler ht, PacketT.type, PacketT.type, ← getD_take htwo, hagrees, getD_take htwo]

theorem exists_accepting (hw : ¬ Whole buf start) (hc : Completable buf start) :
    ∃ prior, buf.bytes.length - start < sizeofPacket (recePtk prior buf start) ∧
      checkCrc (recePtk prior buf start).buf (sizeofPacket (recePtk prior buf start))
        = some true := by
  obtain ⟨prior, hsize, hcrc, _⟩ := exists_accepting_of_type hw hc fun _ => rfl
  exact ⟨prior, hsize, hcrc⟩

end

end Easn
