/-
Bytes, shorts and buffers on a little-endian host: the integer conversions of a C++
program, the byte order of a 16-bit header field, and `memcpy` and `memset` on a
buffer of known size. Nothing here names a component.

A `short` and an `int` are integers; `toShort` is the conversion to 16 bits and
`toSize` that to `std::size_t`. A buffer is a list of its bytes, and a write outside
it is ignored: whether there is one is for the caller to say.

* `load_store` and `store_load`: a field in network order is read back as it was
  written, and it was written as the bytes read.
* `overwrite_eq`: what a `memcpy` inside the buffer leaves.
-/
import Mathlib.Algebra.Group.Int.Defs
import Mathlib.Algebra.Group.Nat.Defs
import Mathlib.Data.List.Basic
import Mathlib.Tactic.Common

set_option autoImplicit false

namespace BoostNet

/-! ## Integer conversions -/

/-- Conversion to `short`. -/
def toShort (x : Int) : Int := x.bmod 65536

/-- Conversion to `std::size_t`. -/
def toSize (x : Int) : Nat := (x % 2 ^ 64).toNat

theorem toShort_of_range {x : Int} (h : -32768 ≤ x) (h' : x < 32768) : toShort x = x :=
  Int.bmod_eq_of_le (by omega) (by omega)

/-- A conversion to `short` stays in range and keeps the number modulo 2 ^ 16. -/
theorem toShort_cases (x : Int) :
    -32768 ≤ toShort x ∧ toShort x < 32768 ∧ ∃ k, x = toShort x + 65536 * k := by
  have hlo : -(65536 / 2) ≤ toShort x := Int.le_bmod (by decide)
  have hhi : toShort x < (65536 + 1) / 2 := Int.bmod_lt (by decide)
  exact ⟨by omega, by omega, x.bdiv 65536, (Int.bmod_add_bdiv x 65536).symm⟩

theorem toSize_ofNat {n : Nat} (h : n < 2 ^ 64) : toSize n = n := by
  unfold toSize
  omega

theorem toSize_nonneg {x : Int} (h : 0 ≤ x) (h' : x < 2 ^ 64) : (toSize x : Int) = x := by
  unfold toSize
  omega

/-- A negative number becomes a large size. -/
theorem toSize_neg {x : Int} (h : x < 0) (h' : -65536 ≤ x) : 2 ^ 64 - 65536 ≤ toSize x := by
  unfold toSize
  omega

/-! ## Shorts in memory -/

abbrev Byte := BitVec 8

/-- The two bytes of a short in memory. -/
def store_short (x : BitVec 16) : List Byte := [x.extractLsb' 0 8, x.extractLsb' 8 8]

/-- The short that two bytes in memory are. -/
def load_short (b0 b1 : Byte) : BitVec 16 := b1 ++ b0

/-- `network_to_host_short`, and `host_to_network_short`, which is the same function. -/
def network_to_host_short (x : BitVec 16) : BitVec 16 := x.extractLsb' 0 8 ++ x.extractLsb' 8 8

theorem network_to_host_short_invol (x : BitVec 16) :
    network_to_host_short (network_to_host_short x) = x := by
  ext i hi
  simp only [network_to_host_short]
  simp
  grind

theorem load_store_short (x : BitVec 16) :
    load_short (x.extractLsb' 0 8) (x.extractLsb' 8 8) = x := by
  ext i hi
  simp [load_short]
  grind

theorem store_load_short (b0 b1 : Byte) : store_short (load_short b0 b1) = [b0, b1] := by
  have hlo : (load_short b0 b1).extractLsb' 0 8 = b0 := BitVec.extractLsb'_append_eq_right
  have hhi : (load_short b0 b1).extractLsb' 8 8 = b1 := BitVec.extractLsb'_append_eq_left
  rw [store_short, hlo, hhi]

/-- A short is its own byte swap when its two bytes are equal. -/
theorem network_to_host_short_eq_iff (x : BitVec 16) :
    network_to_host_short x = x ↔ x.extractLsb' 0 8 = x.extractLsb' 8 8 := by
  constructor
  · intro h
    have hlo : (network_to_host_short x).extractLsb' 0 8 = x.extractLsb' 8 8 :=
      BitVec.extractLsb'_append_eq_right
    rw [h] at hlo
    exact hlo
  · intro h
    have hx := load_store_short x
    rw [load_short, h] at hx
    rw [network_to_host_short, h, hx]

/-- A number as a header field: a short in network order. -/
def storeField (x : Int) : List Byte := store_short (network_to_host_short (BitVec.ofInt 16 x))

/-- A header field read as a number. -/
def loadField (b0 b1 : Byte) : Int := (network_to_host_short (load_short b0 b1)).toInt

theorem load_store {x : Int} (h : -32768 ≤ x) (h' : x < 32768) {b0 b1 : Byte}
    (hb : storeField x = [b0, b1]) : loadField b0 b1 = x := by
  obtain ⟨rfl, rfl⟩ : _ = b0 ∧ _ = b1 := by simpa [storeField, store_short] using hb
  rw [loadField, load_store_short, network_to_host_short_invol, BitVec.toInt_ofInt]
  exact Int.bmod_eq_of_le (by omega) (by omega)

theorem store_load (b0 b1 : Byte) : storeField (loadField b0 b1) = [b0, b1] := by
  rw [storeField, loadField, BitVec.ofInt_toInt, network_to_host_short_invol, store_load_short]

theorem loadField_range (b0 b1 : Byte) : -32768 ≤ loadField b0 b1 ∧ loadField b0 b1 < 32768 := by
  have hlo := BitVec.le_two_mul_toInt (x := network_to_host_short (load_short b0 b1))
  have hhi := BitVec.two_mul_toInt_lt (x := network_to_host_short (load_short b0 b1))
  unfold loadField
  omega

/-! ## Buffers -/

/-- `memcpy` of `src` to `buf + off`. -/
def overwrite (buf : List Byte) (off : Int) (src : List Byte) : List Byte :=
  buf.mapIdx fun i b => if off ≤ i ∧ i < off + src.length then src.getD (i - off).toNat b else b

/-- `memset` of the first `n` bytes of `buf` to zero. -/
def zero (buf : List Byte) (n : Nat) : List Byte := buf.mapIdx fun i b => if i < n then 0 else b

@[simp] theorem overwrite_length (buf : List Byte) (off : Int) (src : List Byte) :
    (overwrite buf off src).length = buf.length := List.length_mapIdx

@[simp] theorem zero_length (buf : List Byte) (n : Nat) : (zero buf n).length = buf.length :=
  List.length_mapIdx

theorem zero_zero (buf : List Byte) (n : Nat) : zero (zero buf n) n = zero buf n := by
  apply List.ext_getElem (by simp)
  intro i hi hi'
  simp only [zero, List.getElem_mapIdx]
  split_ifs <;> rfl

/-- `memset` of bytes that are zero. -/
theorem take_zero {buf : List Byte} {m : Nat} (h : ∀ b ∈ buf.take m, b = 0) (n : Nat) :
    (zero buf n).take m = buf.take m := by
  apply List.ext_getElem (by simp)
  intro i hi hi'
  have hzero := h _ (List.getElem_mem hi')
  simp only [zero, List.getElem_take, List.getElem_mapIdx] at hzero ⊢
  rw [hzero]
  exact ite_self 0

/-- **`memcpy` inside the buffer.** -/
theorem overwrite_eq {buf src : List Byte} {n : Nat} (h : n + src.length ≤ buf.length) :
    overwrite buf n src = buf.take n ++ src ++ buf.drop (n + src.length) := by
  apply List.ext_getElem (by simp; omega)
  intro i hi hi'
  simp only [overwrite, List.getElem_mapIdx]
  rcases Nat.lt_or_ge i n with hlt | hge
  · rw [if_neg (by omega), List.getElem_append_left (by simp; omega),
      List.getElem_append_left (by simp; omega), List.getElem_take]
  · rcases Nat.lt_or_ge i (n + src.length) with hlt' | hge'
    · rw [if_pos (by omega), List.getElem_append_left (by simp; omega),
        List.getElem_append_right (by simp; omega)]
      simp [show min n buf.length = n by omega, show ((i : Int) - n).toNat = i - n by omega,
        List.getD_eq_getElem?_getD, List.getElem?_eq_getElem (show i - n < src.length by omega)]
    · rw [if_neg (by omega), List.getElem_append_right (by simp; omega), List.getElem_drop]
      congr 1
      simp
      omega

/-- `memcpy` over the part `b` of the buffer. -/
theorem overwrite_append {a b c src : List Byte} {n : Nat} (ha : a.length = n)
    (hb : b.length = src.length) : overwrite (a ++ (b ++ c)) n src = a ++ (src ++ c) := by
  subst ha
  rw [overwrite_eq (by simp; omega), List.take_left, List.append_assoc, ← List.append_assoc a b,
    List.drop_left' (by simp [hb])]

/-- The bytes up to the end of a `memcpy` that continues where `buf` is filled to. -/
theorem take_overwrite {buf src : List Byte} {n : Nat} (h : n + src.length ≤ buf.length) :
    (overwrite buf n src).take (n + src.length) = buf.take n ++ src := by
  rw [overwrite_eq h]
  apply List.take_left'
  simp
  omega

end BoostNet
