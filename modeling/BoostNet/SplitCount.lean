/-
Split reference counts: an object with several counted pointers to it, each with an
external count of the references taken through it, and one internal count that the
external ones are folded into when their pointers are given up.

A pointer's external count starts at 1, and each reference taken through it adds 1. The
last holder of a pointer folds `e - 2` into the internal count: the references taken, less
its own. The other holders subtract 1 each. Both counts are machine words, of any width,
and wrap around; `Counts` says what they represent, and `Counts.last_iff` that with few
enough references they are zero together exactly when nobody refers to the object. Nothing
here names a component.
-/
import Mathlib.Data.BitVec
import Mathlib.Tactic.Common

set_option autoImplicit false

namespace BoostNet

/-- The pointers to an object, the references to it, and how many of all the references
ever taken were taken through the pointers that there still are. -/
structure SplitCount where
  pointers : Nat
  refs : Nat
  taken : Int

namespace SplitCount

variable {w v : Nat} {c c' : SplitCount} {internal : BitVec w} {external : BitVec v}

/-- What the two words of an object represent. -/
structure Counts (c : SplitCount) (internal : BitVec w) (external : BitVec v) : Prop where
  internal_eq : internal = BitVec.ofInt w (c.refs - c.taken)
  external_eq : external = BitVec.ofNat v c.pointers

/-- A reference is taken, or a pointer moves: the words stay as they are. -/
theorem Counts.keep (h : c.Counts internal external) (hpointers : c'.pointers = c.pointers)
    (hrefs : (c'.refs : Int) - c'.taken = c.refs - c.taken) : c'.Counts internal external where
  internal_eq := by rw [hrefs, h.internal_eq]
  external_eq := by rw [hpointers, h.external_eq]

/-- A reference is released. -/
theorem Counts.release (h : c.Counts internal external) (hpointers : c'.pointers = c.pointers)
    (hrefs : c'.refs + 1 = c.refs) (htaken : c'.taken = c.taken) :
    c'.Counts (internal - 1) external where
  internal_eq := by
    have heq : (c.refs : Int) - c.taken = c'.refs - c'.taken + 1 := by omega
    rw [h.internal_eq, heq, BitVec.ofInt_add]
    exact BitVec.add_sub_cancel _ _
  external_eq := by rw [hpointers, h.external_eq]

/-- A pointer with the external count `e` is given up, and the reference of the thread
that does so with it. -/
theorem Counts.free (h : c.Counts internal external) {e : Int}
    (hpointers : c'.pointers + 1 = c.pointers) (hrefs : c'.refs + 1 = c.refs)
    (htaken : c'.taken + (e - 1) = c.taken) :
    c'.Counts (internal + BitVec.ofInt w (e - 2)) (external - 1) where
  internal_eq := by
    have heq : (c'.refs : Int) - c'.taken = c.refs - c.taken + (e - 2) := by omega
    rw [heq, h.internal_eq, BitVec.ofInt_add]
  external_eq := by
    rw [h.external_eq, ← hpointers, BitVec.ofNat_add]
    exact BitVec.add_sub_cancel _ _

theorem ofNat_eq_zero_iff {n : Nat} (hn : n < 2 ^ w) : BitVec.ofNat w n = 0 ↔ n = 0 := by
  constructor
  · intro heq
    have hnat := congrArg BitVec.toNat heq
    rwa [BitVec.toNat_ofNat, Nat.mod_eq_of_lt hn, BitVec.ofNat_eq_ofNat, BitVec.toNat_zero] at hnat
  · rintro rfl
    rfl

theorem Counts.external_iff (h : c.Counts internal external) (hpointers : c.pointers < 2 ^ v) :
    external = 0 ↔ c.pointers = 0 := by
  rw [h.external_eq, ofNat_eq_zero_iff hpointers]

/-- **The words are zero when nobody refers to the object**, and only then. -/
theorem Counts.last_iff (h : c.Counts internal external) (hpointers : c.pointers < 2 ^ v)
    (hrefs : c.refs < 2 ^ w) (htaken : c.pointers = 0 → c.taken = 0) :
    internal = 0 ∧ external = 0 ↔ c.pointers = 0 ∧ c.refs = 0 := by
  rw [h.external_iff hpointers, and_comm, and_congr_right_iff]
  intro hzero
  have heq : internal = BitVec.ofNat w c.refs := by
    rw [h.internal_eq, htaken hzero, sub_zero, BitVec.ofInt_natCast]
  rw [heq, ofNat_eq_zero_iff hrefs]

end SplitCount

end BoostNet
