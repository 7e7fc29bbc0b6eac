/-
The blocks that the algorithms of Concurrent/day21-ParallenAlgorithm and
Concurrent/day22-ThreadPool divide a range into: how many there are, and how long they are.
The length of a range fits `unsigned long`, with the 24 that are added to it.
-/
import Mathlib.Data.Nat.Basic

set_option autoImplicit false

namespace BoostNet.Blocks

def min_per_thread : Nat := 25

/-- The blocks that leave `min_per_thread` elements for each. -/
def max_threads (length : Nat) : Nat := (length + min_per_thread - 1) / min_per_thread

/-- As many blocks as there are hardware threads, `2` when that is not known. -/
def num_threads (hardware_threads length : Nat) : Nat :=
  min (if hardware_threads ≠ 0 then hardware_threads else 2) (max_threads length)

variable {hardware_threads length m : Nat}

theorem max_threads_pos (hlen : length ≠ 0) : 0 < max_threads length := by
  simp only [max_threads, min_per_thread]
  omega

theorem max_threads_le : max_threads length ≤ length := by
  simp only [max_threads, min_per_thread]
  omega

theorem num_threads_pos (hlen : length ≠ 0) : 0 < num_threads hardware_threads length := by
  refine Nat.lt_min.mpr ⟨?_, max_threads_pos hlen⟩
  split
  case isTrue h => exact Nat.pos_of_ne_zero h
  case isFalse => exact Nat.two_pos

theorem num_threads_le : num_threads hardware_threads length ≤ length :=
  Nat.le_trans (Nat.min_le_right _ _) max_threads_le

/-- No block is empty. -/
theorem block_size_pos (hpos : 0 < m) (hle : m ≤ length) : 0 < length / m :=
  Nat.div_pos hle hpos

/-- All blocks together are not longer than the range. -/
theorem blocks_le (hpos : 0 < m) : (m - 1) * (length / m) + length / m ≤ length := by
  calc (m - 1) * (length / m) + length / m
      = m * (length / m) := by rw [← Nat.succ_mul, Nat.succ_eq_add_one, Nat.sub_add_cancel hpos]
    _ ≤ length := Nat.mul_div_le _ _

/-! ## Where a block starts and ends -/

/-- The start of the block `i` of `m`. -/
def block_start (m first last i : Nat) : Nat := first + i * ((last - first) / m)

def block_end (m first last i : Nat) : Nat :=
  if i + 1 = m then last else block_start m first last (i + 1)

variable {first last i j : Nat}

theorem block_start_succ (i : Nat) :
    block_start m first last (i + 1) = block_start m first last i + (last - first) / m := by
  rw [block_start, block_start, Nat.succ_mul, Nat.add_assoc]

theorem first_le_block_start : first ≤ block_start m first last i := Nat.le_add_right _ _

theorem block_start_mono (hij : i ≤ j) : block_start m first last i ≤ block_start m first last j :=
  Nat.add_le_add_left (Nat.mul_le_mul_right _ hij) _

/-- From every block there are `block_size` elements to the end of the range. -/
theorem block_start_add_le (hle : first ≤ last) (hi : i < m) :
    block_start m first last i + (last - first) / m ≤ last := by
  have hblocks : (m - 1) * ((last - first) / m) + (last - first) / m ≤ last - first :=
    blocks_le (Nat.zero_lt_of_lt hi)
  have hmul : i * ((last - first) / m) ≤ (m - 1) * ((last - first) / m) :=
    Nat.mul_le_mul_right _ (by omega)
  rw [block_start]
  omega

theorem block_start_le (hle : first ≤ last) (hi : i < m) : block_start m first last i ≤ last :=
  Nat.le_trans (Nat.le_add_right _ _) (block_start_add_le hle hi)

/-- A block has at least `block_size` elements. -/
theorem block_start_add_le_end (hle : first ≤ last) (hi : i < m) :
    block_start m first last i + (last - first) / m ≤ block_end m first last i := by
  rw [block_end]
  split
  case isTrue => exact block_start_add_le hle hi
  case isFalse => exact Nat.le_of_eq (block_start_succ i).symm

theorem block_start_le_end (hle : first ≤ last) (hi : i < m) :
    block_start m first last i ≤ block_end m first last i :=
  Nat.le_trans (Nat.le_add_right _ _) (block_start_add_le_end hle hi)

theorem block_end_le (hle : first ≤ last) (hi : i < m) : block_end m first last i ≤ last := by
  rw [block_end]
  split
  case isTrue => exact Nat.le_refl _
  case isFalse => exact block_start_le hle (by omega)

/-- Blocks are apart. -/
theorem block_end_le_start (hij : i < j) (hj : j < m) :
    block_end m first last i ≤ block_start m first last j := by
  rw [block_end, if_neg (by omega)]
  exact block_start_mono hij

/-- The blocks cover the range. -/
theorem exists_block (hpos : 0 < m) {x : Nat} (hx : first ≤ x) (hx' : x < last) :
    ∃ i, i < m ∧ block_start m first last i ≤ x ∧ x < block_end m first last i := by
  have hupto : ∀ k, k < m → x < block_start m first last k →
      ∃ i, i < m ∧ block_start m first last i ≤ x ∧ x < block_end m first last i := by
    intro k
    induction k with
    | zero =>
        intro _ hlt
        rw [block_start, Nat.zero_mul] at hlt
        omega
    | succ k ih =>
        intro hk hlt
        rcases Nat.lt_or_ge x (block_start m first last k) with hbefore | hge
        · exact ih (by omega) hbefore
        · refine ⟨k, by omega, hge, ?_⟩
          rwa [block_end, if_neg (by omega)]
  -- behind the start of the last block, there is no other
  rcases Nat.lt_or_ge x (block_start m first last (m - 1)) with hbefore | hge
  · exact hupto (m - 1) (by omega) hbefore
  · refine ⟨m - 1, by omega, hge, ?_⟩
    rwa [block_end, if_pos (Nat.sub_add_cancel hpos)]

end BoostNet.Blocks
