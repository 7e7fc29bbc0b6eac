/-
The sequential content of `pool_thread_quick_sort` (Concurrent/day22-ThreadPool,
QuickSort.h): what a call returns, and how many of the lower chunks of its recursion hold
something.

`std::partition` does not keep the order within the two groups and does not say which
order it leaves, so it is any function with the documented postcondition (`Partition`).
Elements are compared by `<` only.

* `quick_sort` is the value of the recursion, and it is the input sorted
  (`quick_sort_perm`, `quick_sort_sorted`).
* `nonempty_chunks` counts the lower chunks that are not empty, over the whole recursion.
-/
import Mathlib.Data.List.Basic
import Mathlib.Order.Basic

set_option autoImplicit false

namespace BoostNet.QuickSort

/-! ## Partition -/

/-- `std::partition` with the predicate `val < partition_val`: the elements before and
after the point it returns. -/
structure Partition (T : Type*) [LT T] where
  run : T → List T → List T × List T
  perm : ∀ partition_val xs, ((run partition_val xs).1 ++ (run partition_val xs).2).Perm xs
  lower : ∀ partition_val xs, ∀ val ∈ (run partition_val xs).1, val < partition_val
  higher : ∀ partition_val xs, ∀ val ∈ (run partition_val xs).2, ¬ val < partition_val

variable {T : Type*}

section Chunks

variable [LT T] (part : Partition T)

namespace Partition

/-- What is split off, and committed to the pool. -/
def lower_chunk (partition_val : T) (xs : List T) : List T := (part.run partition_val xs).1

def higher_chunk (partition_val : T) (xs : List T) : List T := (part.run partition_val xs).2

theorem length_add (partition_val : T) (xs : List T) :
    (part.lower_chunk partition_val xs).length + (part.higher_chunk partition_val xs).length =
      xs.length := by
  rw [← List.length_append]
  exact (part.perm partition_val xs).length_eq

/-- The partition that keeps the order on both sides, `std::stable_partition`. -/
def stable [DecidableLT T] : Partition T where
  run partition_val xs := xs.partition (· < partition_val)
  perm partition_val xs := by
    rw [List.partition_eq_filter_filter]
    exact List.filter_append_perm _ xs
  lower partition_val xs val hval := by
    rw [List.partition_eq_filter_filter] at hval
    exact of_decide_eq_true (List.mem_filter.mp hval).2
  higher partition_val xs val hval := by
    rw [List.partition_eq_filter_filter] at hval
    have hnot := (List.mem_filter.mp hval).2
    simpa using hnot

end Partition

/-! ## The value of the recursion -/

/-- What the recursion returns, if every `new_lower.get()` returns what its task does. -/
def quick_sort : List T → List T
  | [] => []
  | p :: xs => quick_sort (part.lower_chunk p xs) ++ p :: quick_sort (part.higher_chunk p xs)
termination_by xs => xs.length
decreasing_by
  all_goals
    have hlen := part.length_add p xs
    rw [List.length_cons]
    omega

/-- The number of lower chunks that are not empty, those of the committed tasks included. -/
def nonempty_chunks : List T → Nat
  | [] => 0
  | p :: xs =>
      (if part.lower_chunk p xs = [] then 0 else 1) + nonempty_chunks (part.lower_chunk p xs) +
        nonempty_chunks (part.higher_chunk p xs)
termination_by xs => xs.length
decreasing_by
  all_goals
    have hlen := part.length_add p xs
    rw [List.length_cons]
    omega

@[simp] theorem quick_sort_nil : quick_sort part [] = [] := by
  rw [quick_sort]

theorem quick_sort_cons (p : T) (xs : List T) :
    quick_sort part (p :: xs) =
      quick_sort part (part.lower_chunk p xs) ++ p :: quick_sort part (part.higher_chunk p xs) := by
  rw [quick_sort]

@[simp] theorem nonempty_chunks_nil : nonempty_chunks part [] = 0 := by
  rw [nonempty_chunks]

theorem nonempty_chunks_cons (p : T) (xs : List T) :
    nonempty_chunks part (p :: xs) =
      (if part.lower_chunk p xs = [] then 0 else 1) +
        nonempty_chunks part (part.lower_chunk p xs) +
        nonempty_chunks part (part.higher_chunk p xs) := by
  rw [nonempty_chunks]

theorem quick_sort_perm (xs : List T) : (quick_sort part xs).Perm xs := by
  induction xs using quick_sort.induct part with
  | case1 => rw [quick_sort_nil]
  | case2 p xs ihl ihh =>
      rw [quick_sort_cons]
      refine (ihl.append (ihh.cons p)).trans ?_
      exact List.perm_middle.trans ((part.perm p xs).cons p)

end Chunks

/-- No element comes after a smaller one. -/
def Sorted [LT T] (xs : List T) : Prop := xs.Pairwise fun a b => ¬ b < a

theorem quick_sort_sorted [Preorder T] (part : Partition T) (xs : List T) :
    Sorted (quick_sort part xs) := by
  induction xs using quick_sort.induct part with
  | case1 =>
      rw [quick_sort_nil]
      exact List.Pairwise.nil
  | case2 p xs ihl ihh =>
      -- both sides are permutations of their chunks, so the bounds of the partition carry over
      have hlower : ∀ a ∈ quick_sort part (part.lower_chunk p xs), a < p :=
        fun a ha => part.lower p xs a ((quick_sort_perm part _).mem_iff.mp ha)
      have hhigher : ∀ b ∈ quick_sort part (part.higher_chunk p xs), ¬ b < p :=
        fun b hb => part.higher p xs b ((quick_sort_perm part _).mem_iff.mp hb)
      rw [quick_sort_cons]
      refine List.pairwise_append.mpr ⟨ihl, List.pairwise_cons.mpr ⟨hhigher, ihh⟩, ?_⟩
      intro a ha b hb
      rcases List.mem_cons.mp hb with rfl | hb
      · exact not_lt_of_gt (hlower a ha)
      · exact fun hba => hhigher b hb (lt_trans hba (hlower a ha))

end BoostNet.QuickSort
