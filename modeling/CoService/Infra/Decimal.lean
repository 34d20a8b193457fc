import Mathlib.Data.List.Basic
import Mathlib.Data.List.TakeWhile

/-!
# Numbers as decimal text

A number is written in decimal, as a text of bytes, and read back. The text has no zero byte, so it
is also a C string.
-/

namespace Infra

/-- The bytes of a string. -/
def utf8Bytes (s : String) : List UInt8 := s.toList.flatMap String.utf8EncodeChar

/-- The C string that a text begins with: what is before the first zero byte. -/
def cString (text : List UInt8) : List UInt8 := text.takeWhile fun b => b ≠ 0

/-- The number that digits stand for. -/
def decimalValue (text : List UInt8) : Nat := text.foldl (fun n b => 10 * n + (b.toNat - 48)) 0

theorem cString_of_ne_zero {text : List UInt8} (h : ∀ b ∈ text, b ≠ 0) : cString text = text :=
  List.takeWhile_eq_self_iff.mpr fun b hb => by simpa using h b hb

/-! ## Digits -/

theorem toNat_of_isDigit {c : Char} (h : c.isDigit = true) : 48 ≤ c.toNat ∧ c.toNat ≤ 57 := by
  simp only [Char.isDigit, Bool.and_eq_true, decide_eq_true_eq, UInt32.le_iff_toNat_le] at h
  exact h

/-- A digit is one byte. -/
theorem utf8EncodeChar_of_isDigit {c : Char} (h : c.isDigit = true) :
    String.utf8EncodeChar c = [c.val.toUInt8] := by
  refine String.utf8EncodeChar_eq_singleton ?_
  have hle := (toNat_of_isDigit h).2
  rw [Char.utf8Size, if_pos]
  rw [UInt32.le_iff_toNat_le]
  exact Nat.le_trans hle (by decide)

theorem toNat_toUInt8_of_isDigit {c : Char} (h : c.isDigit = true) :
    c.val.toUInt8.toNat = c.toNat := by
  have hle := (toNat_of_isDigit h).2
  rw [UInt32.toNat_toUInt8]
  exact Nat.mod_eq_of_lt (Nat.lt_of_le_of_lt hle (by decide))

/-! ## Reading a number back -/

/-- The text of a number is one byte for each digit. -/
theorem utf8Bytes_repr (n : Nat) :
    utf8Bytes n.repr = (Nat.toDigits 10 n).map fun c => c.val.toUInt8 := by
  have hdigits : ∀ c ∈ Nat.toDigits 10 n, c.isDigit = true := fun c hc =>
    Nat.isDigit_of_mem_toDigits (by decide) (by decide) hc
  rw [utf8Bytes, Nat.toList_repr]
  generalize Nat.toDigits 10 n = l at hdigits
  induction l with
  | nil => rfl
  | cons c l ih =>
    rw [List.flatMap_cons, utf8EncodeChar_of_isDigit (hdigits c List.mem_cons_self),
      ih fun c' hc' => hdigits c' (List.mem_cons_of_mem _ hc'), List.map_cons]
    rfl

/-- **What is written in decimal reads back.** -/
theorem decimalValue_repr (n : Nat) : decimalValue (utf8Bytes n.repr) = n := by
  have hdigits : ∀ c ∈ Nat.toDigits 10 n, c.isDigit = true := fun c hc =>
    Nat.isDigit_of_mem_toDigits (by decide) (by decide) hc
  rw [utf8Bytes_repr, decimalValue, List.foldl_map]
  calc _ = (Nat.toDigits 10 n).foldl (fun n c => 10 * n + (c.toNat - 48)) 0 := by
        refine List.foldl_ext _ _ _ fun m c hc => ?_
        rw [toNat_toUInt8_of_isDigit (hdigits c hc)]
    _ = Nat.ofDigitChars 10 (Nat.toDigits 10 n) 0 := rfl
    _ = n := Nat.ofDigitChars_ten_toDigits

/-- The text of a number is a C string. -/
theorem cString_repr (n : Nat) : cString (utf8Bytes n.repr) = utf8Bytes n.repr := by
  refine cString_of_ne_zero fun b hb hzero => ?_
  rw [utf8Bytes_repr] at hb
  obtain ⟨c, hc, rfl⟩ := List.mem_map.mp hb
  have hdigit := Nat.isDigit_of_mem_toDigits (by decide) (by decide) hc
  have htoNat := toNat_toUInt8_of_isDigit hdigit
  rw [hzero] at htoNat
  have hge := (toNat_of_isDigit hdigit).1
  rw [← htoNat] at hge
  exact absurd hge (by decide)

end Infra
