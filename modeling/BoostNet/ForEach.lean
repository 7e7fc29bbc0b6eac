/-
`for_each` by several threads: `parallel_for_each` and `async_for_each`
(Concurrent/day21-ParallenAlgorithm/parallen_for_each.h), and `parallel_for_each`,
`recursion_for_each`, `future_for_each` and `notify_for_each` with the thread pools
(Concurrent/day22-ThreadPool/ParallenForeach.h).

Each is given as the program of the calling thread (`ForkJoin.Prog`): iterators are indices, a
call of `f` on an element is one step. A thread, a task of `std::async` and a task of a pool
are all threads that may run at any time after they have been given away; the pools run every
task once. A deferred task of `std::async` runs when it is waited for, which is one of those
times. `std::future::get` and `std::thread::join` are waits.

* `for_each_spec`: the ranges that the threads go through are a partition, every run comes to
  its end, and leaves what `std::for_each` leaves.
-/
import BoostNet.Blocks
import BoostNet.ForkJoin

set_option autoImplicit false

namespace BoostNet.ForEach

open ForkJoin Machine Blocks

variable {T : Type*}

/-! ## In blocks -/

/-- The loop over the blocks that other threads go through, `m` of them. -/
def give_blocks (block_size : Nat) : Nat → Nat → (Nat → Prog) → Prog
  | 0, block_start, rest => rest block_start
  | m + 1, block_start, rest =>
      .spawn (.each block_start (block_start + block_size) .ret)
        (give_blocks block_size m (block_start + block_size) rest)

/-- The loop `futures[i].get()`, from `i` on, `m` times. -/
def get_all : Nat → Nat → Prog → Prog
  | 0, _, rest => rest
  | m + 1, i, rest => .wait i (get_all m (i + 1) rest)

/-- The last block is that of the calling thread. -/
def in_blocks (num_threads first last : Nat) (rest : Prog) : Prog :=
  let block_size := (last - first) / num_threads
  give_blocks block_size (num_threads - 1) first fun block_start =>
    .each block_start last (get_all (num_threads - 1) 0 rest)

/-- `parallel_for_each` with threads of its own, which `joiner` joins. -/
def parallel_for_each (hardware_threads first last : Nat) : Prog :=
  let length := last - first
  if length = 0 then .ret
  else
    let num_threads := num_threads hardware_threads length
    in_blocks num_threads first last (get_all (num_threads - 1) 0 .ret)

/-- In blocks, by the tasks of a pool. -/
def pool_for_each (first last : Nat) : Prog :=
  let length := last - first
  if length = 0 then .ret else in_blocks (max_threads length) first last .ret

/-- `parallel_for_each` with `ThreadPool`. -/
def ThreadPool.parallel_for_each (first last : Nat) : Prog := pool_for_each first last

def future_for_each (first last : Nat) : Prog := pool_for_each first last

def notify_for_each (first last : Nat) : Prog := pool_for_each first last

/-! ## By halves

`depth` is the number of threads that the running thread has started before: a call starts at
most one, and then calls itself in the same thread. -/

def async_for_each (first last depth : Nat) (rest : Prog) : Prog :=
  let length := last - first
  if length = 0 then rest
  else if length < 2 * min_per_thread then .each first last rest
  else
    let mid_point := first + length / 2
    -- the thread of the first half divides it again
    .spawn (async_for_each first mid_point 0 .ret)
      (async_for_each mid_point last (depth + 1) (.wait depth rest))
termination_by last - first
decreasing_by
  all_goals simp only [min_per_thread] at *; omega

def recursion_for_each (first last depth : Nat) (rest : Prog) : Prog :=
  let length := last - first
  if length = 0 then rest
  else if length < 2 * min_per_thread then .each first last rest
  else
    let mid_point := first + length / 2
    -- the task goes through the first half
    .spawn (.each first mid_point .ret)
      (recursion_for_each mid_point last (depth + 1) (.wait depth rest))
termination_by last - first
decreasing_by
  simp only [min_per_thread] at *; omega

inductive Variant
  | parallel_for_each (hardware_threads : Nat)
  | async_for_each
  | pool_parallel_for_each
  | recursion_for_each
  | future_for_each
  | notify_for_each

def Variant.prog : Variant → Nat → Nat → Prog
  | parallel_for_each hardware_threads, first, last =>
      ForEach.parallel_for_each hardware_threads first last
  | async_for_each, first, last => ForEach.async_for_each first last 0 .ret
  | pool_parallel_for_each, first, last => ThreadPool.parallel_for_each first last
  | recursion_for_each, first, last => ForEach.recursion_for_each first last 0 .ret
  | future_for_each, first, last => ForEach.future_for_each first last
  | notify_for_each, first, last => ForEach.notify_for_each first last

/-! ## What the programs have to do -/

section Programs

variable {block_size m block_start i j k num_threads first last depth : Nat} {rest : Prog}

/-- Waiting for futures handles no element. -/
theorem get_all_pending : (get_all m i rest).pending = rest.pending := by
  induction m generalizing i with
  | zero => rfl
  | succ m ih => rw [get_all, Prog.pending_wait, ih]

/-- It waits for each of them. -/
theorem get_all_waits (hi : i ≤ j) (hj : j < i + m) : (get_all m i rest).Waits j := by
  induction m generalizing i with
  | zero => omega
  | succ m ih =>
      rcases Nat.eq_or_lt_of_le hi with rfl | hlt
      · exact Or.inl rfl
      · exact Or.inr (ih hlt (by omega))

/-- None is left behind it. -/
theorem get_all_ok (hk : i + m ≤ k) (hrest : rest.Ok k) : (get_all m i rest).Ok k := by
  induction m generalizing i with
  | zero => exact hrest
  | succ m ih => exact ⟨by omega, ih (by omega)⟩

/-- The blocks given away are consecutive, each of `block_size` elements, and what comes after
begins where they end. -/
theorem give_blocks_pending {after : Nat → Prog} :
    (give_blocks block_size m block_start after).pending =
      List.range' block_start (m * block_size) ++
        (after (block_start + m * block_size)).pending := by
  induction m generalizing block_start with
  | zero => simp [give_blocks]
  | succ m ih =>
      rw [give_blocks, Prog.pending_spawn, ih, Prog.pending_each, Prog.pending_ret,
        List.append_nil, Nat.add_sub_cancel_left, ← List.append_assoc, List.range'_append_1]
      congr 2
      · rw [Nat.succ_mul, Nat.add_comm]
      · rw [Nat.succ_mul]
        congr 1
        omega

/-- Giving blocks away does not keep the rest from waiting for an earlier task. -/
theorem give_blocks_waits {after : Nat → Prog}
    (h : (after (block_start + m * block_size)).Waits j) :
    (give_blocks block_size m block_start after).Waits j := by
  induction m generalizing block_start with
  | zero => simpa [give_blocks] using h
  | succ m ih =>
      refine ih ?_
      rwa [Nat.succ_mul, Nat.add_comm (m * block_size), ← Nat.add_assoc] at h

/-- Each task that is started is waited for afterwards. -/
theorem give_blocks_ok {after : Nat → Prog}
    (hwaits : ∀ j, k ≤ j → j < k + m → (after (block_start + m * block_size)).Waits j)
    (hok : (after (block_start + m * block_size)).Ok (k + m)) :
    (give_blocks block_size m block_start after).Ok k := by
  induction m generalizing block_start k with
  | zero => simpa [give_blocks] using hok
  | succ m ih =>
      -- the blocks behind the first one start where it ends
      have hnext : block_start + (m + 1) * block_size =
          block_start + block_size + m * block_size := by
        rw [Nat.succ_mul]
        omega
      rw [hnext] at hwaits hok
      refine ⟨⟨Nat.le_add_right _ _, trivial⟩, ?_, ih (fun j hj hlt => ?_) ?_⟩
      · exact give_blocks_waits (hwaits k le_rfl (by omega))
      · exact hwaits j (by omega) (by omega)
      · rwa [Nat.add_right_comm, Nat.add_assoc]

/-- The blocks cover the range, the last one with what is left over. -/
theorem in_blocks_pending (hpos : 0 < num_threads) (hle : first ≤ last) :
    (in_blocks num_threads first last rest).pending =
      List.range' first (last - first) ++ rest.pending := by
  have hblocks : (num_threads - 1) * ((last - first) / num_threads) ≤ last - first :=
    Nat.le_trans (Nat.le_add_right _ _) (blocks_le hpos)
  rw [in_blocks, give_blocks_pending, Prog.pending_each, get_all_pending, ← List.append_assoc,
    List.range'_append_1]
  congr 2
  omega

/-- All tasks of a division into blocks are waited for. -/
theorem in_blocks_ok (hpos : 0 < num_threads) (hle : first ≤ last)
    (hrest : rest.Ok (num_threads - 1)) : (in_blocks num_threads first last rest).Ok 0 := by
  have hblocks : (num_threads - 1) * ((last - first) / num_threads) ≤ last - first :=
    Nat.le_trans (Nat.le_add_right _ _) (blocks_le hpos)
  refine give_blocks_ok (fun j _ hj => ?_) ?_
  · exact get_all_waits (Nat.zero_le _) (by omega)
  · rw [Nat.zero_add]
    exact ⟨by omega, get_all_ok (by omega) hrest⟩

/-- The two halves of a range. -/
theorem range_halves {mid_point : Nat} (hfirst : first ≤ mid_point) (hlast : mid_point ≤ last) :
    List.range' first (mid_point - first) ++ List.range' mid_point (last - mid_point) =
      List.range' first (last - first) := by
  have hlength : last - first = (mid_point - first) + (last - mid_point) := by omega
  rw [hlength, ← List.range'_append_1, Nat.add_sub_cancel' hfirst]

/-- The recursion waits for what was started before it. -/
theorem async_for_each_waits (h : rest.Waits j) :
    (async_for_each first last depth rest).Waits j := by
  fun_induction async_for_each first last depth rest with
  | case1 => exact h
  | case2 => exact h
  | case3 first last depth rest length hlen hmany mid_point ihother ih => exact ih (Or.inr h)

/-- The two halves are the range. By induction on its length. -/
theorem async_for_each_pending (hle : first ≤ last) :
    (async_for_each first last depth rest).pending =
      List.range' first (last - first) ++ rest.pending := by
  fun_induction async_for_each first last depth rest with
  | case1 first last depth rest length hlen =>
      rw [show last - first = 0 from hlen, List.range'_zero, List.nil_append]
  | case2 => rfl
  | case3 first last depth rest length hlen hmany mid_point ihother ih =>
      have hmid : mid_point ≤ last := by omega
      rw [Prog.pending_spawn, ih hmid, ihother (Nat.le_add_right _ _), Prog.pending_wait,
        Prog.pending_ret, List.append_nil, ← List.append_assoc,
        range_halves (Nat.le_add_right _ _) hmid]

/-- At each depth the one task that was started is waited for before the return. -/
theorem async_for_each_ok (hle : first ≤ last) (hrest : ∀ k, depth ≤ k → rest.Ok k) :
    (async_for_each first last depth rest).Ok depth := by
  fun_induction async_for_each first last depth rest with
  | case1 first last depth rest length hlen => exact hrest depth le_rfl
  | case2 first last depth rest length hlen hfew => exact ⟨hle, hrest depth le_rfl⟩
  | case3 first last depth rest length hlen hmany mid_point ihother ih =>
      refine ⟨ihother (Nat.le_add_right _ _) (fun _ _ => trivial), ?_, ih (by omega) ?_⟩
      · exact async_for_each_waits (Or.inl rfl)
      · exact fun k hk => ⟨hk, hrest k (by omega)⟩

/-- The recursion waits for what was started before it. -/
theorem recursion_for_each_waits (h : rest.Waits j) :
    (recursion_for_each first last depth rest).Waits j := by
  fun_induction recursion_for_each first last depth rest with
  | case1 => exact h
  | case2 => exact h
  | case3 first depth rest length hlen hmany mid_point ih => exact ih (Or.inr h)

/-- The two halves are the range. -/
theorem recursion_for_each_pending (hle : first ≤ last) :
    (recursion_for_each first last depth rest).pending =
      List.range' first (last - first) ++ rest.pending := by
  fun_induction recursion_for_each first last depth rest with
  | case1 first depth rest length hlen =>
      rw [show last - first = 0 from hlen, List.range'_zero, List.nil_append]
  | case2 => rfl
  | case3 first depth rest length hlen hmany mid_point ih =>
      have hmid : mid_point ≤ last := by omega
      rw [Prog.pending_spawn, ih hmid, Prog.pending_each, Prog.pending_wait, Prog.pending_ret,
        List.append_nil, ← List.append_assoc, range_halves (Nat.le_add_right _ _) hmid]

/-- The task for the one half is waited for behind the other half. -/
theorem recursion_for_each_ok (hle : first ≤ last) (hrest : ∀ k, depth ≤ k → rest.Ok k) :
    (recursion_for_each first last depth rest).Ok depth := by
  fun_induction recursion_for_each first last depth rest with
  | case1 first depth rest length hlen => exact hrest depth le_rfl
  | case2 first depth rest length hlen hfew => exact ⟨hle, hrest depth le_rfl⟩
  | case3 first depth rest length hlen hmany mid_point ih =>
      refine ⟨⟨Nat.le_add_right _ _, trivial⟩, ?_, ih (by omega) ?_⟩
      · exact recursion_for_each_waits (Or.inl rfl)
      · exact fun k hk => ⟨hk, hrest k (by omega)⟩

theorem pool_for_each_pending (hle : first ≤ last) :
    (pool_for_each first last).pending = List.range' first (last - first) := by
  by_cases hlen : last - first = 0
  · rw [pool_for_each, if_pos hlen, hlen]
    rfl
  · rw [pool_for_each, if_neg hlen, in_blocks_pending (max_threads_pos hlen) hle,
      Prog.pending_ret, List.append_nil]

theorem pool_for_each_ok (hle : first ≤ last) : (pool_for_each first last).Ok 0 := by
  by_cases hlen : last - first = 0
  · rw [pool_for_each, if_pos hlen]
    trivial
  · rw [pool_for_each, if_neg hlen]
    exact in_blocks_ok (max_threads_pos hlen) hle trivial

theorem parallel_for_each_pending {hardware_threads : Nat} (hle : first ≤ last) :
    (parallel_for_each hardware_threads first last).pending =
      List.range' first (last - first) := by
  by_cases hlen : last - first = 0
  · rw [parallel_for_each, if_pos hlen, hlen]
    rfl
  · rw [parallel_for_each, if_neg hlen, in_blocks_pending (num_threads_pos hlen) hle,
      get_all_pending, Prog.pending_ret, List.append_nil]

theorem parallel_for_each_ok {hardware_threads : Nat} (hle : first ≤ last) :
    (parallel_for_each hardware_threads first last).Ok 0 := by
  by_cases hlen : last - first = 0
  · rw [parallel_for_each, if_pos hlen]
    trivial
  · rw [parallel_for_each, if_neg hlen]
    exact in_blocks_ok (num_threads_pos hlen) hle (get_all_ok (by omega) trivial)

end Programs

/-- The program goes through the range, block by block. -/
theorem Variant.pending (v : Variant) {first last : Nat} (hle : first ≤ last) :
    (v.prog first last).pending = List.range' first (last - first) := by
  cases v with
  | parallel_for_each hardware_threads => exact parallel_for_each_pending hle
  | async_for_each =>
      exact (async_for_each_pending hle).trans (List.append_nil _)
  | pool_parallel_for_each => exact pool_for_each_pending hle
  | recursion_for_each =>
      exact (recursion_for_each_pending hle).trans (List.append_nil _)
  | future_for_each => exact pool_for_each_pending hle
  | notify_for_each => exact pool_for_each_pending hle

/-- In every variant each task is waited for before the call returns. This is what the leftovers of
`PoolForEach` break when a function throws. -/
theorem Variant.ok (v : Variant) {first last : Nat} (hle : first ≤ last) :
    (v.prog first last).Ok 0 := by
  cases v with
  | parallel_for_each hardware_threads => exact parallel_for_each_ok hle
  | async_for_each => exact async_for_each_ok hle fun _ _ => trivial
  | pool_parallel_for_each => exact pool_for_each_ok hle
  | recursion_for_each => exact recursion_for_each_ok hle fun _ _ => trivial
  | future_for_each => exact pool_for_each_ok hle
  | notify_for_each => exact pool_for_each_ok hle

/-! ## The loop of one thread -/

/-- `std::for_each` on `n` elements. -/
def for_each (f : T → T) : Nat → Nat → (Nat → T) → Nat → T
  | _, 0, mem => mem
  | first, n + 1, mem => for_each f (first + 1) n (Function.update mem first (f (mem first)))

/-- It applies `f` to every element once. -/
theorem for_each_eq (f : T → T) (first n : Nat) (mem : Nat → T) (x : Nat) :
    for_each f first n mem x = f^[(List.range' first n).count x] (mem x) := by
  induction n generalizing first mem with
  | zero => rfl
  | succ n ih =>
      rw [for_each, ih, List.range'_succ]
      by_cases hx : x = first
      · have hnot : x ∉ List.range' (first + 1) n := by
          rw [List.mem_range'_1]
          omega
        rw [hx, Function.update_self, List.count_cons_self,
          List.count_eq_zero_of_not_mem (hx ▸ hnot)]
        rfl
      · rw [Function.update_of_ne hx, List.count_cons_of_ne (Ne.symm hx)]

/-- The blocks have no element in common. -/
theorem blocks_disjoint {p : Prog} (hnodup : p.pending.Nodup) :
    p.blocks.Pairwise fun r r' => List.Disjoint (Prog.span r) (Prog.span r') :=
  (List.nodup_flatMap.mp hnodup).2

/-- **`for_each` in parallel is `for_each`.** For every range, every number of hardware threads
and every interleaving: the blocks are disjoint and cover the range; the call returns, and
when it does, every thread is at its end, every element has been visited once, and the array is
what the loop of one thread leaves. -/
theorem for_each_spec (v : Variant) (f : T → T) (mem : Nat → T) (first n : Nat) :
    let p := v.prog first (first + n)
    (p.blocks.Pairwise fun r r' => List.Disjoint (Prog.span r) (Prog.span r')) ∧
    (∀ x, (∃ r ∈ p.blocks, x ∈ Prog.span r) ↔ first ≤ x ∧ x < first + n) ∧
    ∀ as s, (lts f mem p).exec (init mem p) as = some s →
      (s.Done 0 → (∀ c, s.Done c) ∧ s.log.Perm (List.range' first n) ∧
        s.mem = for_each f first n mem) ∧
      (¬ s.Done 0 → ∃ i s', step f s i = some s') ∧ as.length ≤ p.size := by
  intro p
  have hle : first ≤ first + n := Nat.le_add_right first n
  have hpending : p.pending = List.range' first n := by
    rw [v.pending hle, Nat.add_sub_cancel_left]
  refine ⟨blocks_disjoint (hpending ▸ List.nodup_range'), fun x => ?_, ?_⟩
  · rw [← List.mem_range'_1, ← hpending, Prog.pending, List.mem_flatMap]
  · intro as s hrun
    -- every run is one of a program that waits for what it starts
    have hinv := inv_run (v.ok hle) hrun
    have hlength := exec_length (v.ok hle) hrun
    refine ⟨fun h0 => ⟨hinv.returned_all h0, hpending ▸ hinv.returned_log h0, ?_⟩,
      hinv.exists_step, Nat.le.intro hlength⟩
    funext x
    rw [hinv.returned_mem h0 x, hpending, for_each_eq]

/-- The range of `TestParallenForEach`. -/
example : (parallel_for_each 8 0 26).blocks = [(0, 13), (13, 26)] := by decide

end BoostNet.ForEach
