import CoService.Easn.HandlePacket

/-!
# Messages and their frames

What a client sends, built as the protocol test builds it, and how the fields of a packet read once
the frame lies in `rece_ptk`.
-/

namespace Easn

open Infra

/-- What a client wants to say. -/
structure Message where
  type : UInt8
  index : UInt32
  payload : List UInt8

/-- The size of a message's frame. -/
def Message.size (m : Message) : Nat := 9 + m.payload.length + 2

/-- The frame of a message before its CRC is filled in. -/
def Message.fields (m : Message) : List UInt8 :=
  [0xaa, 0x55, m.type] ++ htonl m.index.toNat ++ htons m.size ++ m.payload ++ [0, 0]

/-- The frame of a message, as `test_auth` sends it. -/
def encode (m : Message) : List UInt8 := fillCrc m.fields m.size

/-- The packet carries the message: type, index, size and bytes of the payload. -/
structure Carries (p : PacketT) (m : Message) : Prop where
  type : p.type = m.type
  index : indexofPacket p = m.index.toNat
  size : sizeofData p = m.payload.length
  payload : p.data.take (sizeofData p) = m.payload

theorem length_fields (m : Message) : m.fields.length = m.size := by
  simp only [Message.fields, Message.size, htonl, htons, List.length_append, length_beBytes,
    List.length_cons, List.length_nil]

theorem length_encode (m : Message) : (encode m).length = m.size := by
  rw [encode, length_fillCrc, length_fields]

theorem size_pos (m : Message) : 11 ≤ m.size := by
  unfold Message.size
  omega

/-- Before the CRC the frame is what was filled in. -/
theorem take_encode (m : Message) : (encode m).take (9 + m.payload.length) =
    [0xaa, 0x55, m.type] ++ htonl m.index.toNat ++ htons m.size ++ m.payload := by
  have hsize : m.size - 2 = 9 + m.payload.length := rfl
  rw [← hsize, encode, take_fillCrc _ (by have := size_pos m; omega), Message.fields,
    List.take_left']
  rw [hsize]
  simp only [htonl, htons, List.length_append, length_beBytes, List.length_cons, List.length_nil]

theorem checkCrc_encode (m : Message) : checkCrc (encode m) m.size = some true :=
  checkCrc_fillCrc (by have := size_pos m; omega) (by rw [length_fields])

/-- A frame begins with the two header bytes. -/
theorem encode_eq_cons (m : Message) : ∃ rest, encode m = 0xaa :: 0x55 :: rest := by
  have h := take_encode m
  have hlen := length_encode m
  have hpos := size_pos m
  rcases he : encode m with _ | ⟨a, _ | ⟨b, rest⟩⟩
  · simp [he] at hlen
    omega
  · simp [he] at hlen
    omega
  · rw [he, show 9 + m.payload.length = (7 + m.payload.length) + 2 by omega] at h
    simp only [List.take_succ_cons, List.cons_append, List.cons.injEq] at h
    exact ⟨rest, by rw [h.1, h.2.1]⟩

/-! ## Reading the frame back -/

section read

variable {p : PacketT} {m : Message}

/-- The bytes before the CRC, in the packet. -/
theorem take_of_holds (h : p.buf.take m.size = encode m) : p.buf.take (9 + m.payload.length) =
    [0xaa, 0x55, m.type] ++ htonl m.index.toNat ++ htons m.size ++ m.payload := by
  have hle : 9 + m.payload.length ≤ m.size := by
    unfold Message.size
    omega
  rw [← take_encode, ← h, List.take_take, Nat.min_eq_left hle]

theorem length_of_holds (h : p.buf.take m.size = encode m) (hsize : m.size ≤ maxSize) :
    ntohs p.length = m.size := by
  have htake := take_of_holds h
  have hlen : p.length = htons m.size := by
    rw [PacketT.length, ← field_take (show 7 + 2 ≤ 9 + m.payload.length by omega), htake]
    simp [htonl, htons, beBytes]
  have hlt : m.size < 256 ^ 2 := by
    have hmax : maxSize = 16384 := rfl
    omega
  rw [hlen, ntohs, htons, beNat_beBytes_of_lt hlt]

theorem sizeofPacket_of_holds (h : p.buf.take m.size = encode m) (hsize : m.size ≤ maxSize) :
    sizeofPacket p = m.size := by
  rw [sizeofPacket_eq_min, length_of_holds h hsize]
  omega

theorem checkCrc_of_holds (h : p.buf.take m.size = encode m) (hsize : m.size ≤ maxSize) :
    checkCrc p.buf m.size = some true := by
  rw [← checkCrc_take (by rw [p.length_buf]; exact hsize), h, checkCrc_encode]

/-- **A packet that holds a message's frame carries the message.** -/
theorem carries_of_holds (h : p.buf.take m.size = encode m) (hsize : m.size ≤ maxSize) :
    Carries p m := by
  have htake := take_of_holds h
  have hdata : sizeofData p = m.payload.length := by
    unfold sizeofData
    simp only [sizeofPacket_of_holds h hsize]
    have hm : m.size = 9 + m.payload.length + 2 := rfl
    have hmax : maxSize = 16384 := rfl
    split <;> omega
  refine ⟨?_, ?_, hdata, ?_⟩
  · rw [PacketT.type, ← getD_take (show 2 < 9 + m.payload.length by omega), htake]
    rfl
  · have hidx : p.index = htonl m.index.toNat := by
      rw [PacketT.index, ← field_take (show 3 + 4 ≤ 9 + m.payload.length by omega), htake]
      simp [htonl, htons, beBytes]
    rw [indexofPacket, hidx, ntohl, htonl, beNat_beBytes_of_lt m.index.toNat_lt]
  · have hread : p.data.take (sizeofData p) = (p.buf.take (9 + m.payload.length)).drop 9 := by
      rw [PacketT.data, List.drop_take, hdata, Nat.add_sub_cancel_left]
    rw [hread, htake]
    simp [htonl, htons, beBytes]

end read

end Easn
