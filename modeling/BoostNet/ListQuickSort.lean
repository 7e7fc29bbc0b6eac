/-
The quicksorts on `std::list` (Concurrent/day19-parallensort, parallen_sort.h and sorter.h;
Concurrent/day22-ThreadPool, QuickSort.h): one call each, given what its futures deliver.

A variant takes the first element as the pivot, partitions the rest, hands the lower part to
a task and sorts the higher one itself. `get chunk` is what the future of the task on `chunk`
delivers, and `none` if it delivers nothing; the call then does not return. The schedulings
of the pool and of the sorter are the subject of `PoolQuickSort` and `HelpingSorter`.

* `sequential_quick_sort` is a total function.
* `list_quick_sort`: it sorts, and with any partition, and futures that deliver what the
  tasks return, each variant returns the same list.
-/
import BoostNet.QuickSort
import Mathlib.Order.Lattice

set_option autoImplicit false

namespace BoostNet.ListQuickSort

open QuickSort

variable {T : Type*}

/-! ## The source -/

section Source

variable [LT T] (part : Partition T)

/-- `result` with `new_higher` spliced at its end and then `new_lower` at its beginning. -/
def splice (result new_lower new_higher : List T) : List T := new_lower ++ (result ++ new_higher)

def sequential_quick_sort : List T → List T
  | [] => []
  | pivot :: input =>
      let lower_part := part.lower_chunk pivot input
      let higher_part := part.higher_chunk pivot input
      splice [pivot] (sequential_quick_sort lower_part) (sequential_quick_sort higher_part)
termination_by input => input.length
decreasing_by
  all_goals
    have hlen := part.length_add pivot input
    rw [List.length_cons]
    omega

/-- The parallel variants: a call that leaves the lower part to a task and sorts the higher
part by a call of itself. -/
def task_quick_sort (get : List T → Option (List T)) : List T → Option (List T)
  | [] => some []
  | pivot :: input => do
      let lower_part := part.lower_chunk pivot input
      let higher_part := part.higher_chunk pivot input
      let new_higher ← task_quick_sort get higher_part
      let new_lower ← get lower_part
      return splice [pivot] new_lower new_higher
termination_by input => input.length
decreasing_by
  have hlen := part.length_add pivot input
  rw [List.length_cons]
  omega

/-- `std::async(&async_quick_sort<T>, ..)`. -/
def async_quick_sort (get : List T → Option (List T)) (input : List T) : Option (List T) :=
  task_quick_sort part get input

/-- `commit(pool_thread_quick_sort<T>, ..)`. -/
def pool_thread_quick_sort (get : List T → Option (List T)) (input : List T) : Option (List T) :=
  task_quick_sort part get input

/-- The call of `sorter`. The promise of a chunk is set to `do_sort` of it. -/
def do_sort (get : List T → Option (List T)) (chunk_data : List T) : Option (List T) :=
  task_quick_sort part get chunk_data

/-- `get` is for the chunks of the sorter. -/
def parallel_quick_sort (get : List T → Option (List T)) (input : List T) : Option (List T) :=
  if input.isEmpty then some input else do_sort part get input

/-- The task is a `parallel_quick_sort`, and so is the call for the higher part:
`get` is for the task, `chunk` for the chunks of the sorters. -/
def thread_pool_quick_sort (get chunk : List T → Option (List T)) : List T → Option (List T)
  | [] => some []
  | pivot :: input => do
      let lower_part := part.lower_chunk pivot input
      let higher_part := part.higher_chunk pivot input
      let new_higher ← parallel_quick_sort part chunk higher_part
      let new_lower ← get lower_part
      return splice [pivot] new_lower new_higher

end Source

/-- The future of a task on `chunk` delivers what `call chunk` returns. -/
def Delivers (get call : List T → Option (List T)) : Prop := ∀ chunk, get chunk = call chunk

/-! ## The sequential sort -/

section Sequential

variable [LT T] (part : Partition T)

/-- It is the value that the recursion was given in `QuickSort`. -/
theorem sequential_quick_sort_eq (input : List T) :
    sequential_quick_sort part input = quick_sort part input := by
  induction input using sequential_quick_sort.induct part with
  | case1 => rw [sequential_quick_sort, quick_sort_nil]
  | case2 pivot input lower_part higher_part ihl ihh =>
      rw [sequential_quick_sort, quick_sort_cons, ihl, ihh]
      rfl

end Sequential

section Sorted

variable [LinearOrder T]

theorem sequential_quick_sort_perm (part : Partition T) (input : List T) :
    (sequential_quick_sort part input).Perm input := by
  rw [sequential_quick_sort_eq]
  exact quick_sort_perm part input

theorem sequential_quick_sort_sorted (part : Partition T) (input : List T) :
    (sequential_quick_sort part input).Pairwise (· ≤ ·) := by
  rw [sequential_quick_sort_eq]
  exact (quick_sort_sorted part input).imp not_lt.mp

/-- The order in which a partition leaves the two groups does not show in the result. -/
theorem sequential_quick_sort_unique (part part' : Partition T) (input : List T) :
    sequential_quick_sort part' input = sequential_quick_sort part input := by
  refine List.Perm.eq_of_pairwise ?_ (sequential_quick_sort_sorted part' input) ?_ ?_
  · intro a b _ _ hab hba
    exact le_antisymm hab hba
  · exact sequential_quick_sort_sorted part input
  · exact (sequential_quick_sort_perm part' input).trans
      (sequential_quick_sort_perm part input).symm

end Sorted

/-! ## The variants -/

section Variants

variable [LT T] (part : Partition T)

/-- With futures that deliver the sorted chunks a call returns the sorted list. -/
theorem task_quick_sort_of_get {get : List T → Option (List T)} {n : Nat}
    (hget : ∀ chunk, chunk.length < n → get chunk = some (sequential_quick_sort part chunk))
    (input : List T) (hn : input.length ≤ n) :
    task_quick_sort part get input = some (sequential_quick_sort part input) := by
  induction input using sequential_quick_sort.induct part with
  | case1 => rw [task_quick_sort, sequential_quick_sort]
  | case2 pivot input lower_part higher_part ihl ihh =>
      have hlen := part.length_add pivot input
      rw [List.length_cons] at hn
      -- both parts are shorter than the list
      have hhigher : higher_part.length ≤ n := by
        change (part.higher_chunk pivot input).length ≤ n
        omega
      rw [task_quick_sort, sequential_quick_sort, ihh hhigher, hget _ (by omega)]
      rfl

/-- **Futures that deliver the results of the calls.** The call on a list uses the futures
of shorter lists only, so the results are those of the sequential sort. -/
theorem task_quick_sort_eq {get : List T → Option (List T)}
    (hget : Delivers get (task_quick_sort part get)) (input : List T) :
    task_quick_sort part get input = some (sequential_quick_sort part input) := by
  induction hn : input.length using Nat.strongRecOn generalizing input with
  | ind n ih =>
      apply task_quick_sort_of_get part (n := n) _ input (Nat.le_of_eq hn)
      intro chunk hchunk
      rw [hget chunk]
      exact ih chunk.length hchunk chunk rfl

/-- There are such futures. -/
theorem delivers_sequential :
    Delivers (fun chunk => some (sequential_quick_sort part chunk))
      (task_quick_sort part fun chunk => some (sequential_quick_sort part chunk)) := by
  intro chunk
  rw [task_quick_sort_of_get part (fun _ _ => rfl) chunk (Nat.le_refl _)]

theorem parallel_quick_sort_eq {chunk : List T → Option (List T)}
    (hchunk : Delivers chunk (do_sort part chunk)) (input : List T) :
    parallel_quick_sort part chunk input = some (sequential_quick_sort part input) := by
  cases input with
  | nil => rw [sequential_quick_sort]; rfl
  | cons pivot input => exact task_quick_sort_eq part hchunk (pivot :: input)

theorem thread_pool_quick_sort_eq {get chunk : List T → Option (List T)}
    (hget : Delivers get (parallel_quick_sort part chunk))
    (hchunk : Delivers chunk (do_sort part chunk)) (input : List T) :
    thread_pool_quick_sort part get chunk input = some (sequential_quick_sort part input) := by
  cases input with
  | nil => rw [sequential_quick_sort]; rfl
  | cons pivot input =>
      rw [thread_pool_quick_sort, hget, parallel_quick_sort_eq part hchunk,
        parallel_quick_sort_eq part hchunk, sequential_quick_sort]
      rfl

end Variants

/-! ## All of them -/

/-- **The list quicksorts.** `sequential_quick_sort` returns the sorted permutation of its
input, whatever partition it uses, and so does each of the others, whatever partition it uses
itself, if its futures deliver what their tasks return. -/
theorem list_quick_sort [LinearOrder T] (part : Partition T) (input : List T) :
    (sequential_quick_sort part input).Perm input ∧
    (sequential_quick_sort part input).Pairwise (· ≤ ·) ∧
    ∀ part' : Partition T,
      sequential_quick_sort part' input = sequential_quick_sort part input ∧
      (∀ get, Delivers get (async_quick_sort part' get) →
        async_quick_sort part' get input = some (sequential_quick_sort part input)) ∧
      (∀ get, Delivers get (pool_thread_quick_sort part' get) →
        pool_thread_quick_sort part' get input = some (sequential_quick_sort part input)) ∧
      (∀ get chunk, Delivers get (parallel_quick_sort part' chunk) →
        Delivers chunk (do_sort part' chunk) →
        thread_pool_quick_sort part' get chunk input =
          some (sequential_quick_sort part input)) := by
  refine ⟨sequential_quick_sort_perm part input, sequential_quick_sort_sorted part input,
    fun part' => ?_⟩
  rw [← sequential_quick_sort_unique part part' input]
  refine ⟨rfl, ?_, ?_, ?_⟩
  · intro get hget
    exact task_quick_sort_eq part' hget input
  · intro get hget
    exact task_quick_sort_eq part' hget input
  · intro get chunk hget hchunk
    exact thread_pool_quick_sort_eq part' hget hchunk input

end BoostNet.ListQuickSort
