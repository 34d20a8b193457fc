import CoService.Infra.Bytes
import CoService.Infra.Resync
import CoService.Crc16

/-!
# Packets and acknowledgements (`easn_package`)

`packet_t` and `ack_t` are packed unions of a byte array and a record. They are modelled by the
byte array, with its size as a field. The fields of the record are read off at their offsets:

| field | header | type | index | length | data / code |
| offset | 0 | 2 | 3 | 7 | 9 |
-/

namespace Easn

open Infra Crc16


/-! ## Constants -/

/-- `MAX_SIZE`. -/
def maxSize : Nat := 1024 * 16

/-- `TYPE_INIT` of `wf_cmd_type`. -/
def typeInit : UInt8 := 0x01

/-- `TYPE_REPORT`. -/
def typeReport : UInt8 := 0x02

/-- `TYPE_SWITCH`. -/
def typeSwitch : UInt8 := 0x03

/-- `TYPE_IP_CHANGE`. -/
def typeIpChange : UInt8 := 0x04

/-- `type_to_string`. The `switch` has no default, and the function returns nothing behind it. -/
def typeToString (type : UInt8) : Option String :=
  if type = typeInit then some "AUTH"
  else if type = typeReport then some "REPORT"
  else if type = typeSwitch then some "SWITCH"
  else if type = typeIpChange then some "CHANGE-IP"
  else none

theorem typeToString_isSome_iff {type : UInt8} : (typeToString type).isSome = true ↔
    type = typeInit ∨ type = typeReport ∨ type = typeSwitch ∨ type = typeIpChange := by
  unfold typeToString
  split_ifs <;> simp_all

/-- `wf_return_code`. -/
inductive ReturnCode
  | success
  | crcError
deriving DecidableEq, Repr

/-- The number an enumerator stands for. -/
def ReturnCode.value : ReturnCode → Nat
  | .success => 0
  | .crcError => 1

/-! ## Byte order -/

/-- `htons`: a 16-bit number as it lies in memory. -/
def htons (n : Nat) : List UInt8 := beBytes 2 n

/-- `htonl`. -/
def htonl (n : Nat) : List UInt8 := beBytes 4 n

/-- `ntohs` of a field read from memory. -/
def ntohs (field : List UInt8) : Nat := beNat field

/-- `ntohl`. -/
def ntohl (field : List UInt8) : Nat := beNat field

/-! ## `packet_t` -/

structure PacketT where
  buf : List UInt8
  length_buf : buf.length = maxSize

namespace PacketT

@[ext] theorem ext {p q : PacketT} (h : p.buf = q.buf) : p = q := by
  cases p; cases q; simp_all

/-- `info.type`. -/
def type (p : PacketT) : UInt8 := p.buf.getD 2 0

/-- `info.index`, in network order. -/
def index (p : PacketT) : List UInt8 := (p.buf.drop 3).take 4

/-- `info.length`, in network order. -/
def length (p : PacketT) : List UInt8 := (p.buf.drop 7).take 2

/-- What `&info.data` points to. -/
def data (p : PacketT) : List UInt8 := p.buf.drop 9

end PacketT

/-- A packet of zeros, as `memset` leaves it. -/
def PacketT.zero : PacketT := ⟨List.replicate maxSize 0, List.length_replicate⟩

/-- `memcpy(dst.buf, src, |src|)`. -/
def memcpy (dst : PacketT) (src : List UInt8) (h : src.length ≤ maxSize) : PacketT where
  buf := overwrite dst.buf 0 src
  length_buf := by rw [length_overwrite (by rw [dst.length_buf]; omega), dst.length_buf]

/-- The size a packet declares, cut off at `MAX_SIZE`. -/
def sizeofPacket (p : PacketT) : Nat :=
  let size := ntohs p.length
  if size > maxSize then maxSize else size

def packetMinSize : Nat := 2 + 2 + 4 + 1 + 2

/-- The size of the payload. The subtraction is that of `size_t`. -/
def sizeofData (p : PacketT) : Nat :=
  let crcLength := 2
  let size := (sizeofPacket p + 2 ^ 64 - 9 - crcLength) % 2 ^ 64
  if size > 0 then size else 0

def indexofPacket (p : PacketT) : Nat := ntohl p.index

theorem sizeofPacket_eq_min (p : PacketT) : sizeofPacket p = min (ntohs p.length) maxSize := by
  unfold sizeofPacket
  simp only []
  split <;> omega

theorem sizeofPacket_le (p : PacketT) : sizeofPacket p ≤ maxSize := by
  rw [sizeofPacket_eq_min]
  omega

/-- The bytes of `src` are what `memcpy` puts at the front. -/
theorem buf_memcpy (dst : PacketT) (src : List UInt8) (h : src.length ≤ maxSize) :
    (memcpy dst src h).buf = src ++ dst.buf.drop src.length := overwrite_zero _ _

theorem take_memcpy {dst : PacketT} {src : List UInt8} {h : src.length ≤ maxSize} {n : Nat}
    (hn : n ≤ src.length) : (memcpy dst src h).buf.take n = src.take n := by
  rw [buf_memcpy, List.take_append_of_le_length hn]

/-- The declared length is read from the bytes that were copied, if there are 9 of them. -/
theorem length_memcpy {dst : PacketT} {src : List UInt8} {h : src.length ≤ maxSize}
    (h9 : 9 ≤ src.length) : (memcpy dst src h).length = (src.drop 7).take 2 := by
  rw [PacketT.length, buf_memcpy, List.drop_append_of_le_length (by omega),
    List.take_append_of_le_length (by simp; omega)]

/-! ## The CRC of a frame -/

/-- `fill_crc`. Every caller passes a `size` of 11 at least. -/
def fillCrc (buf : List UInt8) (size : Nat) : List UInt8 :=
  let crc := crc16Compute (buf.take (size - 2))
  (buf.set (size - 1) crc.toUInt8).set (size - 2) (crc >>> 8).toUInt8

/-- `check_crc`. With a `size` below 2 the length handed to `crc16_compute` wraps around, and the
read runs out of the buffer. -/
def checkCrc (buf : List UInt8) (size : Nat) : Option Bool :=
  if 2 ≤ size ∧ size ≤ buf.length then
    let crc := crc16Compute (buf.take (size - 2))
    let low := crc.toUInt8
    let high := (crc >>> 8).toUInt8
    some (low == buf.getD (size - 1) 0 && high == buf.getD (size - 2) 0)
  else none

theorem length_fillCrc (buf : List UInt8) (size : Nat) : (fillCrc buf size).length = buf.length := by
  simp [fillCrc]

theorem two_le_of_checkCrc {buf : List UInt8} {size : Nat} {ok : Bool}
    (h : checkCrc buf size = some ok) : 2 ≤ size := by
  unfold checkCrc at h
  split at h
  · next hs => exact hs.1
  · simp at h

/-- The test case `test_crc_cal`. -/
example : fillCrc [0xAA, 0x55, 0x01, 0x00, 0x0D, 0x00, 0x00, 0x00, 0x02, 0x00, 0x01, 0x00, 0x00] 13
    = [0xAA, 0x55, 0x01, 0x00, 0x0D, 0x00, 0x00, 0x00, 0x02, 0x00, 0x01, 0xDB, 0x81] := by
  decide +kernel

/-- Only the bytes that the CRC covers matter to its computation. -/
theorem take_fillCrc (buf : List UInt8) {size : Nat} (h : 2 ≤ size) :
    (fillCrc buf size).take (size - 2) = buf.take (size - 2) := by
  simp only [fillCrc]
  rw [List.take_set_of_le (by omega), List.take_set_of_le (by omega)]

/-- **What `fill_crc` wrote, `check_crc` accepts.** -/
theorem checkCrc_fillCrc {buf : List UInt8} {size : Nat} (h : 2 ≤ size) (hle : size ≤ buf.length) :
    checkCrc (fillCrc buf size) size = some true := by
  rw [checkCrc, if_pos ⟨h, by rw [length_fillCrc]; exact hle⟩]
  simp only [take_fillCrc buf h]
  have hlow : (fillCrc buf size).getD (size - 1) 0 = (crc16Compute (buf.take (size - 2))).toUInt8 := by
    rw [fillCrc, List.getD_eq_getElem?_getD, List.getElem?_set_ne (by omega),
      List.getElem?_set_self (by omega)]
    rfl
  have hhigh : (fillCrc buf size).getD (size - 2) 0
      = (crc16Compute (buf.take (size - 2)) >>> 8).toUInt8 := by
    rw [fillCrc, List.getD_eq_getElem?_getD, List.getElem?_set_self (by simp; omega)]
    rfl
  rw [hlow, hhigh]
  simp

/-- `check_crc` reads nothing behind the frame. -/
theorem checkCrc_take {buf : List UInt8} {size : Nat} (hle : size ≤ buf.length) :
    checkCrc (buf.take size) size = checkCrc buf size := by
  by_cases h : 2 ≤ size
  · rw [checkCrc, checkCrc, if_pos ⟨h, by simp; omega⟩, if_pos ⟨h, hle⟩]
    simp only [List.take_take, show min (size - 2) size = size - 2 by omega]
    rw [getD_take (by omega), getD_take (by omega)]
  · rw [checkCrc, checkCrc, if_neg (by omega), if_neg (by omega)]

/-- Checking a packet faults exactly when the packet declares fewer than 2 bytes. -/
theorem checkCrc_packet_eq_none {p : PacketT} :
    checkCrc p.buf (sizeofPacket p) = none ↔ ntohs p.length < 2 := by
  have h1 := sizeofPacket_le p
  have h2 := sizeofPacket_eq_min p
  have h3 : maxSize = 16384 := rfl
  rw [checkCrc, p.length_buf]
  split
  · next h => simp; omega
  · next h => simp; omega

/-! ## `ack_t` -/

structure AckT where
  buf : List UInt8
  length_buf : buf.length = 13

namespace AckT

/-- `info.type`. -/
def type (a : AckT) : UInt8 := a.buf.getD 2 0

/-- `info.index`, in network order. -/
def index (a : AckT) : List UInt8 := (a.buf.drop 3).take 4

/-- An `ack_t` as it is constructed. -/
def init : AckT := ⟨[0xaa, 0x55, 0x00, 0x00, 0x00, 0x00, 0x00, 0x00, 0x0d, 0x00, 0x00, 0x00, 0x00], rfl⟩

/-- `info.length`, in network order. -/
def length (a : AckT) : List UInt8 := (a.buf.drop 7).take 2

/-- `info.code`, in network order. -/
def code (a : AckT) : List UInt8 := (a.buf.drop 9).take 2

end AckT

/-- The fields that `fill_ack_packet` assigns: type, index and code. -/
def assignAck (dest : AckT) (src : PacketT) (code : ReturnCode) : List UInt8 :=
  overwrite (overwrite (overwrite dest.buf 2 [src.type]) 3 src.index) 9 (htons code.value)

theorem PacketT.length_index (p : PacketT) : p.index.length = 4 := by
  have h := p.length_buf
  simp only [PacketT.index, List.length_take, List.length_drop, h, maxSize]
  omega

theorem length_assignIndex (dest : AckT) (src : PacketT) :
    (overwrite (overwrite dest.buf 2 [src.type]) 3 src.index).length = 13 := by
  have h : (overwrite dest.buf 2 [src.type]).length = 13 := by
    rw [length_overwrite (by simp [dest.length_buf]), dest.length_buf]
  have hidx := src.length_index
  rw [length_overwrite (by omega), h]

theorem length_assignAck (dest : AckT) (src : PacketT) (code : ReturnCode) :
    (assignAck dest src code).length = 13 := by
  have h := length_assignIndex dest src
  rw [assignAck, length_overwrite (by simp [htons, h]), h]

/-- `fill_ack_packet(dest, src, code)`. -/
def fillAckPacket (dest : AckT) (src : PacketT) (code : ReturnCode) : AckT where
  buf := fillCrc (assignAck dest src code) (ntohs dest.length)
  length_buf := by rw [length_fillCrc, length_assignAck]

/-- The code that `fill_ack_packet` is given stands in the acknowledgement. -/
theorem code_fillAckPacket (src : PacketT) (code : ReturnCode) :
    (fillAckPacket .init src code).code = htons code.value := by
  have hsize : ntohs AckT.init.length = 13 := by decide
  have htake : (fillCrc (assignAck .init src code) 13).take 11
      = (assignAck .init src code).take 11 := take_fillCrc _ (show 2 ≤ 13 by decide)
  rw [AckT.code, fillAckPacket]
  simp only [hsize]
  have hle : 9 ≤ (overwrite (overwrite AckT.init.buf 2 [src.type]) 3 src.index).length := by
    rw [length_assignIndex]
    decide
  rw [← field_take (show 9 + 2 ≤ 11 by decide), htake, field_take (by decide), assignAck]
  exact read_overwrite hle (htons code.value)

/-! ## Headers -/

/-- The two header bytes stand at `i`. -/
def isHeader (buf : List UInt8) (i : Nat) : Bool :=
  buf.getD i 0 == 0xaa && buf.getD (i + 1) 0 == 0x55

theorem lt_of_isHeader {buf : List UInt8} {i : Nat} (h : isHeader buf i = true) :
    i + 1 < buf.length := by
  by_contra hge
  have hnone : buf[i + 1]? = none := List.getElem?_eq_none (by omega)
  simp [isHeader, List.getD_eq_getElem?_getD, hnone] at h

/-- `find_header_position(buf, pos, length)`, where `length` is the length of `buf`. -/
def findHeaderPosition (buf : List UInt8) (pos : Nat) : Option Nat :=
  firstFrom (isHeader buf) pos (buf.length - 1)

end Easn
