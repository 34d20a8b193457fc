import CoService.Crc16.Remainder

/-!
# The CRC is CRC-16/ARC

The usual algorithm keeps the register reflected: it shifts to the right, takes a whole byte into
the low end and needs neither the sixteen zeros nor the reversal at the end. Both registers are the
same remainder, so the values agree for every message.
-/

namespace Crc16

open Infra.Gf2 Polynomial

/-- One turn of the inner loop of the reflected algorithm. -/
def arcBit (reg : UInt16) : UInt16 :=
  if reg &&& 1 = 1 then (reg >>> 1) ^^^ 0xA001 else reg >>> 1

/-- One turn of its outer loop. -/
def arcByte (reg : UInt16) (byte : UInt8) : UInt16 :=
  (List.range 8).foldl (fun reg _ => arcBit reg) (reg ^^^ byte.toUInt16)

/-- The usual reflected algorithm of CRC-16/ARC. -/
def crc16Arc (data : List UInt8) : UInt16 := data.foldl arcByte 0

/-! ## The reflected register -/

theorem getLsbD_reverse (v : BitVec 16) {i : Nat} (hi : i < 16) :
    v.reverse.getLsbD i = v.getLsbD (15 - i) := by
  rw [BitVec.getLsbD_reverse, BitVec.getMsbD_eq_getLsbD, decide_eq_true hi, Bool.true_and]

theorem reverse_xor (a b : BitVec 16) : (a ^^^ b).reverse = a.reverse ^^^ b.reverse := by
  refine BitVec.eq_of_getLsbD_eq fun i hi => ?_
  rw [BitVec.getLsbD_xor, getLsbD_reverse _ hi, getLsbD_reverse _ hi, getLsbD_reverse _ hi,
    BitVec.getLsbD_xor]

theorem and_one_eq_one_iff (reg : UInt16) : reg &&& 1 = 1 ↔ reg.toBitVec.reverse.msb = true := by
  have hone : (reg &&& 1).toBitVec = BitVec.setWidth 16 (BitVec.ofBool (reg.toBitVec.getLsbD 0)) :=
    BitVec.and_one_eq_setWidth_ofBool_getLsbD
  rw [← UInt16.toBitVec_inj, hone, BitVec.msb_eq_getLsbD_last, getLsbD_reverse _ (by decide)]
  show _ ↔ reg.toBitVec.getLsbD 0 = true
  cases reg.toBitVec.getLsbD 0 <;> decide

/-- Shifting the reflected register is shifting a zero into the register. -/
theorem reverse_arcBit (reg : UInt16) :
    (arcBit reg).toBitVec.reverse = shiftIn taps reg.toBitVec.reverse false := by
  have hshift : (reg >>> 1).toBitVec.reverse = reg.toBitVec.reverse.shiftConcat false := by
    refine BitVec.eq_of_getLsbD_eq fun i hi => ?_
    have hone : (reg >>> 1).toBitVec = reg.toBitVec >>> 1 := rfl
    rw [BitVec.getLsbD_shiftConcat, getLsbD_reverse _ hi, hone, BitVec.getLsbD_ushiftRight]
    cases i with
    | zero => exact BitVec.getLsbD_of_ge _ _ (by decide)
    | succ i =>
      rw [if_neg (by omega), Nat.add_sub_cancel, getLsbD_reverse _ (by omega), decide_eq_true hi,
        Bool.true_and, show 1 + (15 - (i + 1)) = 15 - i by omega]
  have htaps : (0xA001 : UInt16).toBitVec.reverse = taps := by decide
  unfold arcBit shiftIn
  simp only [and_one_eq_one_iff]
  split
  · rw [UInt16.toBitVec_xor, reverse_xor, hshift, htaps]
  · exact hshift

theorem reverse_foldl_arcBit (reg : UInt16) (n : Nat) :
    ((List.range n).foldl (fun reg _ => arcBit reg) reg).toBitVec.reverse
      = (List.replicate n false).foldl (shiftIn taps) reg.toBitVec.reverse := by
  induction n with
  | zero => rfl
  | succ n ih =>
    rw [List.range_succ, List.foldl_append, List.replicate_succ', List.foldl_append, ← ih]
    exact reverse_arcBit _

/-- **A byte is taken in at the high end of the remainder.** -/
theorem residue_arcByte (reg : UInt16) (byte : UInt8) :
    residue taps (arcByte reg byte).toBitVec.reverse = AdjoinRoot.mk (modulus taps)
      (toPoly reg.toBitVec.reverse * X ^ 8 + ofBits (byteBits byte) * X ^ 16) := by
  have hbyte : toPoly byte.toUInt16.toBitVec.reverse = ofBits (byteBits byte) * X ^ 8 := by
    have hhigh : byte.toUInt16 >>> 8 = 0 := by
      have hlt := byte.toNat_lt
      rw [← UInt16.toNat_inj, UInt16.toNat_shiftRight, UInt8.toNat_toUInt16,
        Nat.shiftRight_eq_div_pow]
      simp only [UInt16.reduceToNat, Nat.reduceMod, Nat.reducePow]
      omega
    have hzero : byteBits (0 : UInt16).toUInt8 = List.replicate 8 false := by decide
    rw [toPoly_reverse, UInt8.toUInt8_toUInt16, hhigh, hzero, ofBits_replicate_false, add_zero]
  rw [arcByte, reverse_foldl_arcBit, residue_foldl _ _ _ (by decide), ofBits_replicate_false,
    List.length_replicate, UInt16.toBitVec_xor, reverse_xor, toPoly_xor, hbyte]
  exact congrArg _ (by ring)

/-- **The reflected algorithm computes the same remainder.** -/
theorem residue_reverse_crc16Arc (data : List UInt8) :
    residue taps (crc16Arc data).toBitVec.reverse
      = AdjoinRoot.mk (modulus taps) (ofBits (bits data) * X ^ 16) := by
  induction data using List.reverseRecOn with
  | nil =>
    have hzero : (crc16Arc []).toBitVec.reverse = 0#16 := by decide
    rw [hzero, residue_zero, bits, List.flatMap_nil, ofBits_nil, zero_mul, map_zero]
  | append_singleton data byte ih =>
    have hstep : crc16Arc (data ++ [byte]) = arcByte (crc16Arc data) byte := by
      simp [crc16Arc]
    have hbits : bits (data ++ [byte]) = bits data ++ byteBits byte := by
      simp [bits]
    rw [hstep, residue_arcByte, map_add, map_mul, ← residue, ih, ← map_mul, ← map_add, hbits,
      ofBits_append, length_byteBits]
    exact congrArg _ (by ring)

/--
**`crc16_compute` is CRC-16/ARC**, and in reverse it is the remainder of the message times `X ^ 16`
modulo `X ^ 16 + X ^ 15 + X ^ 2 + 1`.
-/
theorem crc16Compute_eq_arc (data : List UInt8) :
    crc16Compute data = crc16Arc data ∧
      toPoly (reverse (crc16Compute data)).toBitVec
        = (ofBits (bits data) * X ^ 16) %ₘ (X ^ 16 + X ^ 15 + X ^ 2 + 1) := by
  have hcompute := residue_reverse_crc16Compute data
  refine ⟨?_, ?_⟩
  · have hreverse : (crc16Compute data).toBitVec.reverse = (crc16Arc data).toBitVec.reverse := by
      rw [← toBitVec_reverse]
      exact residue_injective (hcompute.trans (residue_reverse_crc16Arc data).symm)
    refine UInt16.toBitVec_inj.mp ?_
    rw [← BitVec.reverse_reverse_eq (x := (crc16Compute data).toBitVec), hreverse,
      BitVec.reverse_reverse_eq]
  · rw [← modulus_taps]
    exact toPoly_eq_modByMonic hcompute

end Crc16
