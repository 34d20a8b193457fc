import Mathlib.Data.List.Basic

/-!
# The CRC of `crc16.cpp`

A register of 16 bits takes in the message bit by bit, least significant bit of each byte first.
Sixteen zero bits follow, and the register is read out reversed.
-/

namespace Crc16

/-- `CRC16_GENERATOR`. -/
def crc16Generator : UInt16 := 0x8005

/-- The bits of `value` in the opposite order. -/
def reverse (value : UInt16) : UInt16 :=
  (List.range 16).foldl (fun result bitIndex =>
    let valueMask : UInt16 := 1 <<< UInt16.ofNat (15 - bitIndex)
    result ||| if value &&& valueMask ≠ 0 then 1 <<< UInt16.ofNat bitIndex else 0) 0

/-- Subtracts the generator when a bit was shifted out. -/
def crc16XorReg (reg regMsb : UInt16) : UInt16 :=
  if regMsb ≠ 0 then reg ^^^ crc16Generator else reg

/-- One turn of the inner loop: `bit` is shifted in. -/
def crc16Bit (reg bit : UInt16) : UInt16 :=
  let regMsb := reg >>> 15
  crc16XorReg ((reg <<< 1) ||| bit) regMsb

/-- One turn of the outer loop: the bits of `byte` are shifted in. -/
def crc16Byte (reg : UInt16) (byte : UInt8) : UInt16 :=
  (List.range 8).foldl (fun reg bitIndex =>
    crc16Bit reg ((byte >>> UInt8.ofNat bitIndex) &&& 1).toUInt16) reg

/-- One turn of the last loop: the register moves on without a message bit. -/
def crc16Augment (reg : UInt16) : UInt16 :=
  let regMsb := reg >>> 15
  crc16XorReg (reg <<< 1) regMsb

/-- `crc16_compute` of the bytes `data[0..length)`. -/
def crc16Compute (data : List UInt8) : UInt16 :=
  let reg := data.foldl crc16Byte 0
  reverse ((List.range 16).foldl (fun reg _ => crc16Augment reg) reg)

end Crc16
