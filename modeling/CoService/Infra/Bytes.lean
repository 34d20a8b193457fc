import Mathlib.Algebra.Order.Ring.Nat
import Mathlib.Data.List.Induction

/-!
# Bytes in network order, and writes into a byte array

`beNat` and `beBytes` are the big-endian reading and writing of a number of fixed width.
`overwrite` is a write of consecutive bytes into an array, as `memcpy` or a field assignment does it.
-/

namespace Infra

/-! ## Network byte order -/

/-- The number that the bytes denote, most significant byte first. -/
def beNat (l : List UInt8) : Nat := l.foldl (fun n b => n * 256 + b.toNat) 0

/-- The low `8 * w` bits of `n` as `w` bytes, most significant first. -/
def beBytes : Nat → Nat → List UInt8
  | 0, _ => []
  | w + 1, n => beBytes w (n / 256) ++ [UInt8.ofNat n]

@[simp] theorem length_beBytes (w n : Nat) : (beBytes w n).length = w := by
  induction w generalizing n with
  | zero => rfl
  | succ w ih => simp [beBytes, ih]

theorem beNat_append_singleton (l : List UInt8) (b : UInt8) :
    beNat (l ++ [b]) = beNat l * 256 + b.toNat := by
  simp [beNat]

theorem beNat_lt (l : List UInt8) : beNat l < 256 ^ l.length := by
  induction l using List.reverseRecOn with
  | nil => decide
  | append_singleton l b ih =>
    have hb := b.toNat_lt
    rw [beNat_append_singleton, List.length_append, List.length_singleton, pow_succ]
    omega

/-- Reading back what was written gives the number modulo its width. -/
theorem beNat_beBytes (w n : Nat) : beNat (beBytes w n) = n % 256 ^ w := by
  induction w generalizing n with
  | zero => simp [beBytes, beNat, Nat.mod_one]
  | succ w ih =>
    have hb : (UInt8.ofNat n).toNat = n % 256 := UInt8.toNat_ofNat'
    rw [beBytes, beNat_append_singleton, ih, hb, pow_succ', Nat.mod_mul]
    omega

theorem beNat_beBytes_of_lt {w n : Nat} (h : n < 256 ^ w) : beNat (beBytes w n) = n := by
  rw [beNat_beBytes, Nat.mod_eq_of_lt h]

/-- Writing back what was read gives the bytes. -/
theorem beBytes_beNat (l : List UInt8) : beBytes l.length (beNat l) = l := by
  induction l using List.reverseRecOn with
  | nil => rfl
  | append_singleton l b ih =>
    have hb := b.toNat_lt
    rw [List.length_append, List.length_singleton, beBytes, beNat_append_singleton,
      show (beNat l * 256 + b.toNat) / 256 = beNat l by omega, ih]
    congr 2
    rw [← UInt8.toNat_inj, UInt8.toNat_ofNat']
    omega

/-! ## Reading from a prefix -/

theorem getD_take {α : Type*} {l : List α} {i n : Nat} (h : i < n) (d : α) :
    (l.take n).getD i d = l.getD i d := by
  rw [List.getD_eq_getElem?_getD, List.getD_eq_getElem?_getD, List.getElem?_take_of_lt h]

/-- A field that lies in the first `n` elements is read from them. -/
theorem field_take {α : Type*} {l : List α} {i k n : Nat} (h : i + k ≤ n) :
    ((l.take n).drop i).take k = (l.drop i).take k := by
  rw [List.drop_take, List.take_take, Nat.min_eq_left (by omega)]

/-! ## Writes -/

/-- `dst` with the bytes from `off` on replaced by `src`. -/
def overwrite (dst : List UInt8) (off : Nat) (src : List UInt8) : List UInt8 :=
  dst.take off ++ src ++ dst.drop (off + src.length)

theorem length_overwrite {dst src : List UInt8} {off : Nat} (h : off + src.length ≤ dst.length) :
    (overwrite dst off src).length = dst.length := by
  simp only [overwrite, List.length_append, List.length_take, List.length_drop]
  omega

theorem overwrite_zero (dst src : List UInt8) :
    overwrite dst 0 src = src ++ dst.drop src.length := by
  simp [overwrite]

/-- What was written is read back at its place. -/
theorem read_overwrite {dst : List UInt8} {off : Nat} (h : off ≤ dst.length) (src : List UInt8) :
    ((overwrite dst off src).drop off).take src.length = src := by
  have htake : (dst.take off).length = off := List.length_take_of_le h
  rw [overwrite, List.append_assoc, List.drop_append_of_le_length (by omega),
    List.drop_eq_nil_of_le (by omega), List.nil_append, List.take_left']
  rfl

end Infra
