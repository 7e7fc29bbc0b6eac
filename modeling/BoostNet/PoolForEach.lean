/-
`parallel_for_each` with `ThreadPool` (Concurrent/day22-ThreadPool/ParallenForeach.h,
ThreadPool.h), when `f` may throw: what is left in the pool when the call ends.

The calling thread commits a task for every block but the last, goes through the last block
itself, and waits for the tasks in their order. Where `f` throws in a task, its
`std::packaged_task` keeps the exception for `get`. Where it throws in the block of the calling
thread, or a `get` rethrows, the call ends at once: the destructor of a future of a
`std::packaged_task` does not wait.

A push, a pop, a call of `f` and a `get` are one step each; threads of the pool take tasks in
the order of the queue. Iterators are indices, `throws` has the elements on which `f` throws.

* `leaves_nothing_iff`: the exact condition on `throws` under which no task is left behind.
* `leaves_task`: a task that is still queued when the call has ended.
-/
import BoostNet.Blocks
import BoostNet.Lts
import Mathlib.Data.List.Nodup
import Mathlib.Data.Nat.Find
import Mathlib.Logic.Function.Basic

set_option autoImplicit false

namespace BoostNet.PoolForEach

open Blocks

/-- A task, and with it its future. -/
inductive Task
  | uncommitted
  | queued (block_start block_end : Nat)
  | running (it block_end : Nat)
  | returned
  | threw
  deriving DecidableEq

def Task.pending : Task → Bool
  | queued _ _ | running _ _ => true
  | _ => false

/-- The calling thread. -/
inductive Caller
  | commit (i block_start : Nat)
  | own (it : Nat)
  | get (i : Nat)
  | returned
  | threw
  deriving DecidableEq

def Caller.ended : Caller → Bool
  | returned | threw => true
  | _ => false

/-- `worker w` is the task that the thread `w` of the pool is in; `accessed` has the elements that
have been given to `f`, in that order. -/
structure State where
  tasks_ : List Nat
  task : Nat → Task
  worker : Nat → Option Nat
  caller : Caller
  accessed : List Nat

inductive Event
  | caller
  | worker (w : Nat)

namespace State

variable (throws : Nat → Bool) (num_threads block_size last : Nat)

def step_caller (s : State) : Option State :=
  match s.caller with
  -- futures[i] = ThreadPool::instance().commit(..)
  | .commit i block_start =>
      if i < num_threads - 1 then
        let block_end := block_start + block_size
        some { s with
          tasks_ := s.tasks_ ++ [i]
          task := Function.update s.task i (.queued block_start block_end)
          caller := .commit (i + 1) block_end }
      else some { s with caller := .own block_start }
  -- std::for_each(block_start, last, f);
  | .own it =>
      if it = last then some { s with caller := .get 0 }
      else some { s with
        caller := if throws it then .threw else .own (it + 1)
        accessed := s.accessed ++ [it] }
  -- futures[i].get();
  | .get i =>
      if i < num_threads - 1 then
        match s.task i with
        | .returned => some { s with caller := .get (i + 1) }
        | .threw => some { s with caller := .threw }
        | _ => none
      else some { s with caller := .returned }
  | .returned | .threw => none

/-- The thread `w` of the pool: `task()` of the task it has popped. -/
def step_worker (s : State) (w : Nat) : Option State :=
  match s.worker w with
  | none =>
      match s.tasks_ with
      | [] => none
      | i :: rest =>
          match s.task i with
          | .queued block_start block_end => some { s with
              tasks_ := rest
              task := Function.update s.task i (.running block_start block_end)
              worker := Function.update s.worker w (some i) }
          | _ => none
  | some i =>
      match s.task i with
      | .running it block_end =>
          if it = block_end then some { s with
            task := Function.update s.task i .returned
            worker := Function.update s.worker w none }
          else if throws it then some { s with
            task := Function.update s.task i .threw
            worker := Function.update s.worker w none
            accessed := s.accessed ++ [it] }
          else some { s with
            task := Function.update s.task i (.running (it + 1) block_end)
            accessed := s.accessed ++ [it] }
      | _ => none

end State

/-- The threads of a pool that is given `num`. -/
def thread_num (num : Nat) : Nat := if num ≤ 1 then 2 else num

def init (first last : Nat) : State where
  tasks_ := []
  task := fun _ => .uncommitted
  worker := fun _ => none
  caller := if last - first = 0 then .returned else .commit 0 first
  accessed := []

/-- A call, with a pool of its own of `thread_num num` threads. -/
def lts (throws : Nat → Bool) (num first last : Nat) : Lts State Event :=
  let length := last - first
  let num_threads := max_threads length
  let block_size := length / num_threads
  { init := init first last
    step := fun s e =>
      match e with
      | .caller => s.step_caller throws num_threads block_size last
      | .worker w => if w < thread_num num then s.step_worker throws w else none }

/-- When the call has ended, no task is queued or running, and no element is accessed any more. -/
def LeavesNothing (throws : Nat → Bool) (num first last : Nat) (s : State) : Prop :=
  s.caller.ended = true → (∀ i, (s.task i).pending = false) ∧
    ∀ as t, (lts throws num first last).exec s as = some t → t.accessed = s.accessed

/-- `f` throws in the block of the last task only, or there are no tasks. -/
def Confined (throws : Nat → Bool) (first last : Nat) : Prop :=
  let num_threads := max_threads (last - first)
  last - first ≤ min_per_thread ∨
    ∀ x, first ≤ x → x < last → throws x = true →
      block_start num_threads first last (num_threads - 2) ≤ x ∧
        x < block_start num_threads first last (num_threads - 1)

variable {throws : Nat → Bool} {num m first last : Nat} {s s' : State}

/-! ## The invariant -/

/-- How many tasks have been committed. -/
def Caller.committed (m : Nat) : Caller → Nat
  | .commit i _ => i
  | _ => m - 1

/-- The task `i` is for the block `i`. -/
def TaskOk (throws : Nat → Bool) (m first last i : Nat) : Task → Prop
  | .queued b e => b = block_start m first last i ∧ e = block_start m first last (i + 1)
  | .running it e => block_start m first last i ≤ it ∧ it ≤ e ∧
      e = block_start m first last (i + 1)
  | .threw => ∃ x, block_start m first last i ≤ x ∧ x < block_start m first last (i + 1) ∧
      throws x = true
  | .uncommitted | .returned => True

/-- What the calling thread knows of the tasks. -/
def Placed (throws : Nat → Bool) (m first last : Nat) (s : State) : Prop :=
  match s.caller with
  | .commit i start => i < m ∧ start = block_start m first last i
  | .own it => block_start m first last (m - 1) ≤ it ∧ it ≤ last
  | .get i => i ≤ m - 1 ∧ ∀ j, j < i → s.task j = .returned
  | .returned => ∀ j, j < m - 1 → s.task j = .returned
  | .threw => Confined throws first last → ∀ j, j < m - 1 → s.task j = .returned ∨ s.task j = .threw

structure Inv (throws : Nat → Bool) (m first last : Nat) (s : State) : Prop where
  committed : ∀ i, s.task i = .uncommitted ↔ s.caller.committed m ≤ i
  placed : Placed throws m first last s
  block : ∀ i, TaskOk throws m first last i (s.task i)
  queue : ∀ i ∈ s.tasks_, ∃ b e, s.task i = .queued b e
  nodup : s.tasks_.Nodup
  busy : ∀ w i, s.worker w = some i → ∃ it e, s.task i = .running it e
  alone : ∀ w w' i, s.worker w = some i → s.worker w' = some i → w = w'

/-- Only a task that is queued or running changes: the calling thread does not notice. -/
theorem Placed.task {i : Nat} {t : Task} (h : Placed throws m first last s)
    (hpending : (s.task i).pending = true) (hcaller : s'.caller = s.caller)
    (htask : s'.task = Function.update s.task i t) : Placed throws m first last s' := by
  have hkeep : ∀ j, (s.task j).pending = false → s'.task j = s.task j := by
    intro j hj
    have hne : j ≠ i := by
      rintro rfl
      rw [hpending] at hj
      cases hj
    rw [htask, Function.update_of_ne hne]
  have hret : ∀ j, s.task j = .returned → s'.task j = .returned := fun j hj =>
    (hkeep j (by rw [hj]; rfl)).trans hj
  have hthrew : ∀ j, s.task j = .threw → s'.task j = .threw := fun j hj =>
    (hkeep j (by rw [hj]; rfl)).trans hj
  unfold Placed at h ⊢
  rw [hcaller]
  split at h
  case h_1 => exact h
  case h_2 => exact h
  case h_3 => exact ⟨h.1, fun j hj => hret j (h.2 j hj)⟩
  case h_4 => exact fun j hj => hret j (h j hj)
  case h_5 => exact fun hc j hj => (h hc j hj).imp (hret j) (hthrew j)

/-- A step of a thread of the pool: what it has to show. -/
theorem Inv.task {i : Nat} {t : Task} (h : Inv throws m first last s)
    (hpending : (s.task i).pending = true) (ht : t ≠ .uncommitted)
    (hok : TaskOk throws m first last i t) (hcaller : s'.caller = s.caller)
    (htask : s'.task = Function.update s.task i t)
    (hqueue : ∀ j ∈ s'.tasks_, j ∈ s.tasks_ ∧ j ≠ i) (hnodup : s'.tasks_.Nodup)
    (hbusy : ∀ w j, s'.worker w = some j → (j = i ∧ ∃ it e, t = .running it e) ∨
      (j ≠ i ∧ s.worker w = some j))
    (halone : ∀ w w' j, s'.worker w = some j → s'.worker w' = some j → w = w') :
    Inv throws m first last s' := by
  refine ⟨fun j => ?_, h.placed.task hpending hcaller htask, fun j => ?_, fun j hj => ?_, hnodup,
    fun w j hj => ?_, halone⟩
  · rw [hcaller, ← h.committed j, htask]
    by_cases hji : j = i
    · subst hji
      rw [Function.update_self]
      refine iff_of_false ht fun heq => ?_
      rw [heq] at hpending
      cases hpending
    · rw [Function.update_of_ne hji]
  · rw [htask]
    by_cases hji : j = i
    · subst hji
      rw [Function.update_self]
      exact hok
    · rw [Function.update_of_ne hji]
      exact h.block j
  · obtain ⟨hmem, hne⟩ := hqueue j hj
    rw [htask, Function.update_of_ne hne]
    exact h.queue j hmem
  · rcases hbusy w j hj with ⟨rfl, hrun⟩ | ⟨hne, hold⟩
    · rw [htask, Function.update_self]
      exact hrun
    · rw [htask, Function.update_of_ne hne]
      exact h.busy w j hold

theorem Inv.step_worker (h : Inv throws m first last s) {w : Nat}
    (hstep : s.step_worker throws w = some s') : Inv throws m first last s' := by
  unfold State.step_worker at hstep
  split at hstep
  case h_1 hw =>
    split at hstep
    case h_1 => cases hstep
    case h_2 i rest htasks =>
      split at hstep
      case h_2 => cases hstep
      case h_1 b e htask =>
        obtain rfl := Option.some.inj hstep
        have hnodup := h.nodup
        rw [htasks, List.nodup_cons] at hnodup
        have hok := h.block i
        rw [htask] at hok
        obtain ⟨rfl, rfl⟩ := hok
        -- no other thread is in the task
        have hfree : ∀ v, s.worker v ≠ some i := by
          intro v hv
          obtain ⟨it, e, hrun⟩ := h.busy v i hv
          rw [htask] at hrun
          cases hrun
        have htaken : ∀ v j, Function.update s.worker w (some i) v = some j →
            (v = w ∧ j = i) ∨ (v ≠ w ∧ j ≠ i ∧ s.worker v = some j) := by
          intro v j hj
          by_cases hvw : v = w
          · rw [hvw, Function.update_self] at hj
            exact Or.inl ⟨hvw, (Option.some.inj hj).symm⟩
          · rw [Function.update_of_ne hvw] at hj
            exact Or.inr ⟨hvw, fun heq => hfree v (heq ▸ hj), hj⟩
        refine h.task (i := i) (by rw [htask]; rfl) (by simp) (t := .running _ _)
          ⟨le_rfl, (block_start_succ i).symm ▸ Nat.le_add_right _ _, rfl⟩ rfl rfl
          (fun j hj => ⟨htasks ▸ List.mem_cons_of_mem i hj, fun heq => hnodup.1 (heq ▸ hj)⟩)
          hnodup.2 (fun v j hj => ?_) (fun v v' j hv hv' => ?_)
        · rcases htaken v j hj with ⟨-, rfl⟩ | ⟨-, hne, hold⟩
          · exact Or.inl ⟨rfl, _, _, rfl⟩
          · exact Or.inr ⟨hne, hold⟩
        · rcases htaken v j hv with ⟨rfl, rfl⟩ | ⟨-, hne, hold⟩ <;>
            rcases htaken v' _ hv' with ⟨rfl, heq⟩ | ⟨-, hne', hold'⟩
          · rfl
          · exact absurd rfl hne'
          · exact absurd heq hne
          · exact h.alone v v' j hold hold'
  case h_2 i hw =>
    split at hstep
    case h_2 => cases hstep
    case h_1 it e htask =>
      have hpending : (s.task i).pending = true := by rw [htask]; rfl
      have hok := h.block i
      rw [htask] at hok
      obtain ⟨hstart, hend, rfl⟩ := hok
      have hqueue : ∀ j ∈ s.tasks_, j ∈ s.tasks_ ∧ j ≠ i := by
        refine fun j hj => ⟨hj, ?_⟩
        rintro rfl
        obtain ⟨b, e, hq⟩ := h.queue j hj
        rw [htask] at hq
        cases hq
      -- the thread leaves the task
      have hleft : ∀ v j, Function.update s.worker w none v = some j →
          j ≠ i ∧ s.worker v = some j := by
        intro v j hj
        have hvw : v ≠ w := by
          rintro rfl
          rw [Function.update_self] at hj
          cases hj
        rw [Function.update_of_ne hvw] at hj
        exact ⟨fun heq => hvw (h.alone v w i (heq ▸ hj) hw), hj⟩
      have halone : ∀ v v' j, Function.update s.worker w none v = some j →
          Function.update s.worker w none v' = some j → v = v' := fun v v' j hv hv' =>
        h.alone v v' j (hleft v j hv).2 (hleft v' j hv').2
      split at hstep
      case isTrue =>
        obtain rfl := Option.some.inj hstep
        exact h.task hpending (by simp) (t := .returned) trivial rfl rfl hqueue h.nodup
          (fun v j hj => Or.inr (hleft v j hj)) halone
      case isFalse hne =>
        split at hstep
        case isTrue hthrows =>
          obtain rfl := Option.some.inj hstep
          exact h.task hpending (by simp) (t := .threw) ⟨it, hstart, by omega, hthrows⟩ rfl rfl
            hqueue h.nodup (fun v j hj => Or.inr (hleft v j hj)) halone
        case isFalse hthrows =>
          obtain rfl := Option.some.inj hstep
          refine h.task hpending (by simp) (t := .running (it + 1) _) ⟨by omega, by omega, rfl⟩
            rfl rfl hqueue h.nodup (fun v j hj => ?_) h.alone
          by_cases hji : j = i
          · exact Or.inl ⟨hji, _, _, rfl⟩
          · exact Or.inr ⟨hji, hj⟩

/-- The calling thread goes on, and no task changes. -/
theorem Inv.caller {c : Caller} {accessed : List Nat} (h : Inv throws m first last s)
    (hcommitted : c.committed m = s.caller.committed m)
    (hplaced : Placed throws m first last { s with caller := c, accessed := accessed }) :
    Inv throws m first last { s with caller := c, accessed := accessed } :=
  ⟨fun i => hcommitted ▸ h.committed i, hplaced, h.block, h.queue, h.nodup, h.busy, h.alone⟩

/-- The task `i` is committed. -/
theorem Inv.commit {i : Nat} (h : Inv throws m first last s)
    (hcaller : s.caller = .commit i (block_start m first last i)) (hi : i < m - 1) :
    Inv throws m first last { s with
      tasks_ := s.tasks_ ++ [i]
      task := Function.update s.task i
        (.queued (block_start m first last i) (block_start m first last (i + 1)))
      caller := .commit (i + 1) (block_start m first last (i + 1)) } := by
  have hnew : s.task i = .uncommitted := (h.committed i).mpr (by rw [hcaller]; exact le_rfl)
  have hnot : ∀ j, s.task j ≠ .uncommitted → j ≠ i := fun j hj heq => hj (heq ▸ hnew)
  refine ⟨fun j => ?_, ⟨by omega, rfl⟩, fun j => ?_, fun j hj => ?_, ?_, fun w j hj => ?_,
    h.alone⟩
  · have hold := h.committed j
    rw [hcaller] at hold
    change Function.update s.task i _ j = _ ↔ i + 1 ≤ j
    by_cases hji : j = i
    · subst hji
      rw [Function.update_self]
      exact iff_of_false (by simp) (by omega)
    · rw [Function.update_of_ne hji, hold]
      change i ≤ j ↔ i + 1 ≤ j
      omega
  · change TaskOk throws m first last j (Function.update s.task i _ j)
    by_cases hji : j = i
    · subst hji
      rw [Function.update_self]
      exact ⟨rfl, rfl⟩
    · rw [Function.update_of_ne hji]
      exact h.block j
  · change ∃ b e, Function.update s.task i _ j = _
    rcases List.mem_append.mp hj with hj | hj
    · obtain ⟨b, e, hq⟩ := h.queue j hj
      rw [Function.update_of_ne (hnot j (by rw [hq]; simp))]
      exact ⟨b, e, hq⟩
    · obtain rfl := List.mem_singleton.mp hj
      rw [Function.update_self]
      exact ⟨_, _, rfl⟩
  · refine List.nodup_append.mpr ⟨h.nodup, List.nodup_singleton i, ?_⟩
    rintro j hj k hk rfl
    obtain rfl := List.mem_singleton.mp hk
    obtain ⟨b, e, hq⟩ := h.queue j hj
    rw [hnew] at hq
    cases hq
  · change ∃ it e, Function.update s.task i _ j = _
    obtain ⟨it, e, hr⟩ := h.busy w j hj
    rw [Function.update_of_ne (hnot j (by rw [hr]; simp))]
    exact ⟨it, e, hr⟩

/-- There are no tasks for a short range. -/
theorem max_threads_le_one {length : Nat} (h : length ≤ min_per_thread) :
    max_threads length ≤ 1 := by
  simp only [max_threads, min_per_thread] at *
  omega

theorem Inv.step_caller (h : Inv throws m first last s) (hm : m = max_threads (last - first))
    (hle : first ≤ last)
    (hstep : s.step_caller throws m ((last - first) / m) last = some s') :
    Inv throws m first last s' := by
  have hplaced := h.placed
  unfold State.step_caller at hstep
  split at hstep
  case h_1 i begin hcaller =>
    rw [Placed, hcaller] at hplaced
    obtain ⟨hi, rfl⟩ := hplaced
    split at hstep
    case isTrue hlt =>
      obtain rfl := Option.some.inj hstep
      have hnew := h.commit hcaller hlt
      rwa [block_start_succ] at hnew
    case isFalse hge =>
      obtain rfl := Option.some.inj hstep
      obtain rfl : i = m - 1 := by omega
      exact h.caller (by rw [hcaller]; rfl) ⟨le_rfl, block_start_le hle hi⟩
  case h_2 it hcaller =>
    rw [Placed, hcaller] at hplaced
    obtain ⟨hstart, hlast⟩ := hplaced
    split at hstep
    case isTrue =>
      obtain rfl := Option.some.inj hstep
      exact h.caller (by rw [hcaller]; rfl)
        ⟨Nat.zero_le _, fun j hj => absurd hj (Nat.not_lt_zero j)⟩
    case isFalse hne =>
      obtain rfl := Option.some.inj hstep
      by_cases hthrows : throws it = true
      · rw [if_pos hthrows]
        -- `f` throws in the block of the calling thread only when there are no tasks
        refine h.caller (by rw [hcaller]; rfl) fun hconfined j hj => ?_
        rcases hconfined with hfew | hin
        · have hone := max_threads_le_one hfew
          omega
        · have hx := hin it (Nat.le_trans first_le_block_start hstart) (by omega) hthrows
          rw [← hm] at hx
          omega
      · rw [if_neg hthrows]
        exact h.caller (by rw [hcaller]; rfl) ⟨by omega, by omega⟩
  case h_3 i hcaller =>
    rw [Placed, hcaller] at hplaced
    obtain ⟨hi, hgot⟩ := hplaced
    split at hstep
    case isTrue hlt =>
      split at hstep
      case h_1 hret =>
        obtain rfl := Option.some.inj hstep
        refine h.caller (by rw [hcaller]; rfl) ⟨by omega, fun j hj => ?_⟩
        rcases Nat.lt_succ_iff_lt_or_eq.mp hj with hj | rfl
        · exact hgot j hj
        · exact hret
      case h_2 hthrew =>
        obtain rfl := Option.some.inj hstep
        refine h.caller (by rw [hcaller]; rfl) fun hconfined j hj => ?_
        have hok := h.block i
        rw [hthrew] at hok
        obtain ⟨x, hx, hx', hthrows⟩ := hok
        rcases hconfined with hfew | hin
        · have hone := max_threads_le_one hfew
          omega
        · -- the exception is that of the last task
          have hlast : block_start m first last (i + 1) ≤ last := block_start_le hle (by omega)
          have hmem := hin x (Nat.le_trans first_le_block_start hx) (by omega) hthrows
          rw [← hm] at hmem
          have hi' : i = m - 2 := by
            by_contra hne
            have hmono : block_start m first last (i + 1) ≤ block_start m first last (m - 2) :=
              block_start_mono (by omega)
            omega
          by_cases hji : j = i
          · exact Or.inr (hji ▸ hthrew)
          · exact Or.inl (hgot j (by omega))
      case h_3 => cases hstep
    case isFalse hge =>
      obtain rfl := Option.some.inj hstep
      obtain rfl : i = m - 1 := by omega
      exact h.caller (by rw [hcaller]; rfl) hgot
  case h_4 => cases hstep
  case h_5 => cases hstep

/-- What a call begins with. -/
theorem inv_init (hm : m = max_threads (last - first)) :
    Inv throws m first last (init first last) where
  committed := fun i => by
    rw [init]
    split
    case isTrue hlen =>
      have hone : max_threads (last - first) ≤ last - first := max_threads_le
      exact iff_of_true rfl (by simp only [Caller.committed]; omega)
    case isFalse => exact iff_of_true rfl (Nat.zero_le i)
  placed := by
    rw [Placed, init]
    have hone : max_threads (last - first) ≤ last - first := max_threads_le
    split
    case h_1 i begin hcaller =>
      split at hcaller
      case isTrue => cases hcaller
      case isFalse hlen =>
        obtain ⟨rfl, rfl⟩ := Caller.commit.inj hcaller
        exact ⟨hm ▸ max_threads_pos hlen, by rw [block_start, Nat.zero_mul, Nat.add_zero]⟩
    case h_2 hcaller => split at hcaller <;> cases hcaller
    case h_3 hcaller => split at hcaller <;> cases hcaller
    case h_4 hcaller =>
      split at hcaller
      case isTrue hlen => exact fun j hj => by omega
      case isFalse => cases hcaller
    case h_5 hcaller => split at hcaller <;> cases hcaller
  block := fun _ => trivial
  queue := fun _ hj => (by cases hj)
  nodup := List.nodup_nil
  busy := fun _ _ hj => (by cases hj)
  alone := fun _ _ _ hj => (by cases hj)

theorem inv_run (hle : first ≤ last) {as : List Event}
    (hrun : (lts throws num first last).exec (init first last) as = some s) :
    Inv throws (max_threads (last - first)) first last s := by
  refine (lts throws num first last).exec_inv ?_ (inv_init rfl) hrun
  intro t e t' hinv ht
  cases e with
  | caller => exact hinv.step_caller rfl hle ht
  | worker w =>
      change (if w < thread_num num then t.step_worker throws w else none) = some t' at ht
      split at ht
      case isFalse => cases ht
      case isTrue => exact hinv.step_worker ht

/-! ## Nothing is left behind -/

/-- When the call has ended and no task is left, nothing happens any more. -/
theorem Inv.stuck (h : Inv throws m first last s) (hended : s.caller.ended = true)
    (hnone : ∀ i, (s.task i).pending = false) (e : Event) :
    (lts throws num first last).step s e = none := by
  cases e with
  | caller =>
      change s.step_caller _ _ _ _ = none
      cases hcaller : s.caller with
      | returned => rw [State.step_caller, hcaller]
      | threw => rw [State.step_caller, hcaller]
      | _ =>
          rw [hcaller] at hended
          cases hended
  | worker w =>
      change (if w < thread_num num then s.step_worker throws w else none) = none
      split
      case isFalse => rfl
      case isTrue =>
        cases hw : s.worker w with
        | none =>
            cases htasks : s.tasks_ with
            | nil => rw [State.step_worker, hw, htasks]
            | cons i rest =>
                obtain ⟨b, e, hq⟩ := h.queue i (by rw [htasks]; exact List.mem_cons_self)
                have hi := hnone i
                rw [hq] at hi
                cases hi
        | some i =>
            obtain ⟨it, e, hr⟩ := h.busy w i hw
            have hi := hnone i
            rw [hr] at hi
            cases hi

theorem Inv.leaves_nothing (h : Inv throws m first last s)
    (hconfined : Confined throws first last) :
    LeavesNothing throws num first last s := by
  intro hended
  have hnone : ∀ i, (s.task i).pending = false := by
    intro i
    by_cases hi : i < m - 1
    · have hplaced := h.placed
      unfold Placed at hplaced
      cases hcaller : s.caller with
      | returned =>
          rw [hcaller] at hplaced
          rw [hplaced i hi]
          rfl
      | threw =>
          rw [hcaller] at hplaced
          rcases hplaced hconfined i hi with hret | hthrew
          · rw [hret]
            rfl
          · rw [hthrew]
            rfl
      | _ =>
          rw [hcaller] at hended
          cases hended
    · have hun : s.task i = .uncommitted := by
        refine (h.committed i).mpr ?_
        cases hcaller : s.caller with
        | commit k start =>
            rw [hcaller] at hended
            cases hended
        | _ => exact Nat.le_of_not_lt hi
      rw [hun]
      rfl
  refine ⟨hnone, fun as t hrun => ?_⟩
  cases as with
  | nil =>
      obtain rfl := Option.some.inj hrun
      rfl
  | cons e as =>
      obtain ⟨u, hu, -⟩ := (lts throws num first last).exec_cons_some.mp hrun
      rw [h.stuck hended hnone e] at hu
      cases hu

/-! ## A task is left behind -/

theorem reaches_caller {t : State}
    (h : s.step_caller throws (max_threads (last - first))
      ((last - first) / max_threads (last - first)) last = some t) :
    (lts throws num first last).Reaches s t :=
  Lts.Reaches.of_step (a := .caller) h

/-- There is a first thread in every pool. -/
theorem reaches_worker {t : State} (h : s.step_worker throws 0 = some t) :
    (lts throws num first last).Reaches s t := by
  have hpos : 0 < thread_num num := by
    rw [thread_num]
    split <;> omega
  refine Lts.Reaches.of_step (a := .worker 0) ?_
  change (if 0 < thread_num num then s.step_worker throws 0 else none) = some t
  rw [if_pos hpos, h]

/-- The calling thread goes through its block as long as `f` does not throw. -/
theorem own_run {it k : Nat} (hcaller : s.caller = .own it) (hle : it ≤ k) (hk : k ≤ last)
    (hnone : ∀ x, it ≤ x → x < k → throws x = false) :
    ∃ accessed, (lts throws num first last).Reaches s
      { s with caller := .own k, accessed := accessed } := by
  induction k, hle using Nat.le_induction with
  | base => exact ⟨s.accessed, hcaller ▸ Lts.Reaches.refl _ s⟩
  | succ k hle ih =>
      obtain ⟨accessed, hreach⟩ := ih (by omega) fun x hx hlt => hnone x hx (by omega)
      refine ⟨accessed ++ [k], hreach.trans (reaches_caller ?_)⟩
      have hfalse : throws k = false := hnone k hle (Nat.lt_succ_self k)
      simp [State.step_caller, hfalse, show k ≠ last by omega]

/-- So does the first thread of the pool, in a task. -/
theorem task_run {i it k e : Nat} (hw : s.worker 0 = some i) (htask : s.task i = .running it e)
    (hle : it ≤ k) (hk : k ≤ e) (hnone : ∀ x, it ≤ x → x < k → throws x = false) :
    ∃ accessed, (lts throws num first last).Reaches s
      { s with task := Function.update s.task i (.running k e), accessed := accessed } := by
  induction k, hle using Nat.le_induction with
  | base =>
      refine ⟨s.accessed, ?_⟩
      rw [← htask, Function.update_eq_self]
      exact Lts.Reaches.refl _ s
  | succ k hle ih =>
      obtain ⟨accessed, hreach⟩ := ih (by omega) fun x hx hlt => hnone x hx (by omega)
      refine ⟨accessed ++ [k], hreach.trans (reaches_worker ?_)⟩
      have hfalse : throws k = false := hnone k hle (Nat.lt_succ_self k)
      simp [State.step_worker, hw, hfalse, show k ≠ e by omega]

/-- The first `k` tasks have been committed, and none has begun. -/
def loaded (m first last k : Nat) : State where
  tasks_ := List.range k
  task := fun j =>
    if j < k then .queued (block_start m first last j) (block_start m first last (j + 1))
    else .uncommitted
  worker := fun _ => none
  caller := .commit k (block_start m first last k)
  accessed := []

theorem reaches_loaded (hlen : last - first ≠ 0) {k : Nat}
    (hk : k ≤ max_threads (last - first) - 1) :
    (lts throws num first last).Reaches (init first last)
      (loaded (max_threads (last - first)) first last k) := by
  induction k with
  | zero =>
      have hinit : init first last = loaded (max_threads (last - first)) first last 0 := by
        rw [init, if_neg hlen, loaded, block_start, Nat.zero_mul, Nat.add_zero]
        simp
      rw [hinit]
      exact Lts.Reaches.refl _ _
  | succ k ih =>
      refine (ih (by omega)).trans (reaches_caller ?_)
      have hlt : k < max_threads (last - first) - 1 := by omega
      simp only [State.step_caller, loaded, if_pos hlt, block_start_succ, List.range_succ,
        Option.some.injEq, State.mk.injEq, true_and, and_true]
      funext j
      by_cases hj : j = k
      · subst hj
        rw [Function.update_self, if_pos (Nat.lt_succ_self j)]
      · rw [Function.update_of_ne hj]
        by_cases hjk : j < k
        · rw [if_pos hjk, if_pos (by omega)]
        · rw [if_neg hjk, if_neg (by omega)]

/-- All tasks have been committed, and those before `i` have returned; the others have not begun. -/
def waiting (m first last i : Nat) (accessed : List Nat) : State where
  tasks_ := List.range' i (m - 1 - i)
  task := fun j =>
    if j < i then .returned
    else if j < m - 1 then .queued (block_start m first last j) (block_start m first last (j + 1))
    else .uncommitted
  worker := fun _ => none
  caller := .get i
  accessed := accessed

/-- The first thread of the pool pops the task `i`, and goes on to `k` in it. -/
theorem waiting_run (num : Nat) {i k : Nat} (accessed : List Nat) (hi : i < m - 1)
    (hk : block_start m first last i ≤ k) (hk' : k ≤ block_start m first last (i + 1))
    (hnone : ∀ x, block_start m first last i ≤ x → x < k → throws x = false) :
    ∃ accessed', (lts throws num first last).Reaches (waiting m first last i accessed)
      { waiting m first last i accessed with
        tasks_ := List.range' (i + 1) (m - 1 - (i + 1))
        task := Function.update (waiting m first last i accessed).task i
          (.running k (block_start m first last (i + 1)))
        worker := Function.update (fun _ => none) 0 (some i)
        accessed := accessed' } := by
  have hpop : (waiting m first last i accessed).step_worker throws 0 =
      some { waiting m first last i accessed with
        tasks_ := List.range' (i + 1) (m - 1 - (i + 1))
        task := Function.update (waiting m first last i accessed).task i
          (.running (block_start m first last i) (block_start m first last (i + 1)))
        worker := Function.update (fun _ => none) 0 (some i) } := by
    have htasks : List.range' i (m - 1 - i) = i :: List.range' (i + 1) (m - 1 - (i + 1)) := by
      rw [show m - 1 - i = m - 1 - (i + 1) + 1 by omega, List.range'_succ]
    simp [State.step_worker, waiting, htasks, hi]
  obtain ⟨accessed', hrun⟩ := @task_run throws num first last
    { waiting m first last i accessed with
      tasks_ := List.range' (i + 1) (m - 1 - (i + 1))
      task := Function.update (waiting m first last i accessed).task i
        (.running (block_start m first last i) (block_start m first last (i + 1)))
      worker := Function.update (fun _ => none) 0 (some i) }
    i (block_start m first last i) k (block_start m first last (i + 1)) (by simp) (by simp)
    hk hk' hnone
  refine ⟨accessed', (reaches_worker hpop).trans ?_⟩
  simpa only [Function.update_idem] using hrun

/-- A block in which `f` does not throw: the task returns, and `get` does. -/
theorem waiting_step (num : Nat) (hm : m = max_threads (last - first)) {i : Nat}
    (accessed : List Nat) (hi : i < m - 1)
    (hnone : ∀ x, block_start m first last i ≤ x → x < block_start m first last (i + 1) →
      throws x = false) :
    ∃ accessed', (lts throws num first last).Reaches (waiting m first last i accessed)
      (waiting m first last (i + 1) accessed') := by
  have hmono : block_start m first last i ≤ block_start m first last (i + 1) :=
    block_start_mono (Nat.le_succ i)
  obtain ⟨accessed', hrun⟩ := waiting_run num accessed hi hmono le_rfl hnone
  refine ⟨accessed', hrun.trans ?_⟩
  -- the task returns
  refine Lts.Reaches.trans (reaches_worker (t := { waiting m first last i accessed with
    tasks_ := List.range' (i + 1) (m - 1 - (i + 1))
    task := Function.update (waiting m first last i accessed).task i .returned
    worker := fun _ => none
    accessed := accessed' }) ?_) (reaches_caller ?_)
  · simp [State.step_worker]
  · have hi' : i < max_threads (last - first) - 1 := hm ▸ hi
    simp only [State.step_caller, waiting, if_pos hi', Function.update_self, Option.some.injEq,
      State.mk.injEq, true_and, and_true]
    funext j
    by_cases hj : j = i
    · subst hj
      rw [Function.update_self, if_pos (Nat.lt_succ_self j)]
    · have hiff : j < i + 1 ↔ j < i := by omega
      rw [Function.update_of_ne hj]
      simp only [hiff]

/-- The first element on which `f` throws. -/
theorem exists_first {begin x : Nat} (hx : begin ≤ x) (hthrows : throws x = true) :
    ∃ k, begin ≤ k ∧ k ≤ x ∧ throws k = true ∧
      ∀ y, begin ≤ y → y < k → throws y = false := by
  have hex : ∃ k, begin ≤ k ∧ throws k = true := ⟨x, hx, hthrows⟩
  obtain ⟨hk, hkthrows⟩ := Nat.find_spec hex
  refine ⟨Nat.find hex, hk, Nat.find_min' hex ⟨hx, hthrows⟩, hkthrows, fun y hy hlt => ?_⟩
  cases hfy : throws y with
  | false => rfl
  | true => exact absurd ⟨hy, hfy⟩ (Nat.find_min hex hlt)

/-- The first block in which `f` throws: `get` rethrows, and the tasks after it are still queued. -/
theorem waiting_throws (num : Nat) (hm : m = max_threads (last - first)) {i k : Nat}
    (accessed : List Nat) (hi : i + 1 < m - 1) (hk : block_start m first last i ≤ k)
    (hk' : k < block_start m first last (i + 1)) (hthrows : throws k = true)
    (hnone : ∀ y, block_start m first last i ≤ y → y < k → throws y = false) :
    ∃ s, (lts throws num first last).Reaches (waiting m first last i accessed) s ∧
      s.caller = .threw ∧ ∃ j, (s.task j).pending = true := by
  obtain ⟨accessed', hrun⟩ := waiting_run num accessed (Nat.lt_of_succ_lt hi) hk
    (Nat.le_of_lt hk') hnone
  refine ⟨{ waiting m first last i accessed with
    tasks_ := List.range' (i + 1) (m - 1 - (i + 1))
    task := Function.update (waiting m first last i accessed).task i .threw
    worker := fun _ => none
    caller := .threw
    accessed := accessed' ++ [k] }, hrun.trans ?_, rfl, i + 1, ?_⟩
  · refine Lts.Reaches.trans (reaches_worker (t := { waiting m first last i accessed with
      tasks_ := List.range' (i + 1) (m - 1 - (i + 1))
      task := Function.update (waiting m first last i accessed).task i .threw
      worker := fun _ => none
      accessed := accessed' ++ [k] }) ?_) (reaches_caller ?_)
    · have hne : k ≠ block_start m first last (i + 1) := Nat.ne_of_lt hk'
      simp [State.step_worker, hne, hthrows]
    · have hi' : i < max_threads (last - first) - 1 := by omega
      simp [State.step_caller, waiting, hi']
  · change (Function.update (waiting m first last i accessed).task i .threw (i + 1)).pending = true
    rw [Function.update_of_ne (Nat.succ_ne_self i), waiting]
    simp only [Nat.not_succ_lt_self, if_false, if_pos hi]
    rfl

theorem waiting_steps (num : Nat) (hm : m = max_threads (last - first)) {i : Nat} (hi : i ≤ m - 1)
    (hnone : ∀ x, first ≤ x → x < block_start m first last i → throws x = false)
    (accessed : List Nat) :
    ∃ accessed', (lts throws num first last).Reaches (waiting m first last 0 accessed)
      (waiting m first last i accessed') := by
  induction i with
  | zero => exact ⟨accessed, Lts.Reaches.refl _ _⟩
  | succ i ih =>
      have hmono : block_start m first last i ≤ block_start m first last (i + 1) :=
        block_start_mono (Nat.le_succ i)
      obtain ⟨accessed', hreach⟩ := ih (by omega) fun x hx hlt => hnone x hx (by omega)
      obtain ⟨accessed'', hstep⟩ := waiting_step num hm accessed' hi
        fun x hx hlt => hnone x (Nat.le_trans first_le_block_start hx) hlt
      exact ⟨accessed'', hreach.trans hstep⟩

/-- A range that is not short has a task. -/
theorem lt_max_threads {length : Nat} (h : min_per_thread < length) : 1 < max_threads length := by
  simp only [max_threads, min_per_thread] at *
  omega

/-- The calling thread comes to its own block before a task has begun. -/
theorem reaches_begin (hm : m = max_threads (last - first)) (hone : 1 < m) :
    (lts throws num first last).Reaches (init first last)
      { loaded m first last (m - 1) with caller := .own (block_start m first last (m - 1)) } := by
  subst hm
  have hlen : last - first ≠ 0 := by
    intro hzero
    rw [hzero] at hone
    exact absurd hone (by decide)
  refine (reaches_loaded hlen le_rfl).trans (reaches_caller ?_)
  simp [State.step_caller, loaded]

/-- It goes through its block as long as `f` does not throw, and no task has begun. -/
theorem reaches_own (num : Nat) (hm : m = max_threads (last - first)) (hone : 1 < m) {k : Nat}
    (hk : block_start m first last (m - 1) ≤ k) (hk' : k ≤ last)
    (hnone : ∀ x, block_start m first last (m - 1) ≤ x → x < k → throws x = false) :
    ∃ accessed, (lts throws num first last).Reaches (init first last)
      { loaded m first last (m - 1) with caller := .own k, accessed := accessed } := by
  have hown : (lts throws num first last).Reaches (init first last)
      { loaded m first last (m - 1) with
        caller := .own (block_start m first last (m - 1)) } := reaches_begin hm hone
  have hrun : ∃ accessed, (lts throws num first last).Reaches
      { loaded m first last (m - 1) with caller := .own (block_start m first last (m - 1)) }
      { loaded m first last (m - 1) with caller := .own k, accessed := accessed } :=
    own_run rfl hk hk' hnone
  exact hrun.imp fun accessed hrun => hown.trans hrun

/-- Where `f` throws on an element that is not in the block of the last task, a schedule leaves a
task behind. -/
theorem exists_left (num : Nat) (hle : first ≤ last) (hnot : ¬ Confined throws first last) :
    ∃ s, (lts throws num first last).Reaches (init first last) s ∧ s.caller = .threw ∧
      ∃ i, (s.task i).pending = true := by
  obtain ⟨m, hm⟩ : ∃ m, m = max_threads (last - first) := ⟨_, rfl⟩
  obtain ⟨hmany, hx⟩ := not_or.mp hnot
  have hone : 1 < m := hm ▸ lt_max_threads (Nat.lt_of_not_le hmany)
  rw [← hm] at hx
  push Not at hx
  obtain ⟨x, hfirst, hlast, hthrows, hout⟩ := hx
  by_cases hthere : ∃ y, block_start m first last (m - 1) ≤ y ∧ y < last ∧ throws y = true
  · -- the calling thread throws, and the first task is still queued
    obtain ⟨y, hy, hylast, hythrows⟩ := hthere
    obtain ⟨k, hk, hky, hkthrows, hnone⟩ := exists_first hy hythrows
    have hklast : k < last := Nat.lt_of_le_of_lt hky hylast
    obtain ⟨accessed, hown⟩ := reaches_own num hm hone hk (Nat.le_of_lt hklast) hnone
    have hthrow : (lts throws num first last).Reaches
        { loaded m first last (m - 1) with caller := .own k, accessed := accessed }
        { loaded m first last (m - 1) with
          caller := .threw
          accessed := accessed ++ [k] } := by
      apply reaches_caller
      simp [State.step_caller, hkthrows, Nat.ne_of_lt hklast]
    refine ⟨_, hown.trans hthrow, rfl, 0, ?_⟩
    simp only [loaded, if_pos (show 0 < m - 1 by omega)]
    rfl
  · -- the calling thread goes through its block, and waits
    have hnone : ∀ y, block_start m first last (m - 1) ≤ y → y < last → throws y = false := by
      intro y hy hylast
      cases hfy : throws y with
      | false => rfl
      | true => exact absurd ⟨y, hy, hylast, hfy⟩ hthere
    have hownlast : block_start m first last (m - 1) ≤ last := block_start_le hle (by omega)
    obtain ⟨accessed, hown⟩ := reaches_own num hm hone hownlast le_rfl hnone
    have hget : (lts throws num first last).Reaches
        { loaded m first last (m - 1) with caller := .own last, accessed := accessed }
        (waiting m first last 0 accessed) := by
      apply reaches_caller
      simp [State.step_caller, loaded, waiting, List.range_eq_range']
    -- the first element on which `f` throws is not in the block of the last task
    obtain ⟨k, hk, hkx, hkthrows, hbefore⟩ := exists_first hfirst hthrows
    obtain ⟨i, him, hstart, hend⟩ := exists_block (Nat.lt_of_succ_lt hone) hk
      (Nat.lt_of_le_of_lt hkx hlast)
    have hxlt : x < block_start m first last (m - 2) := by
      by_contra hge
      have hown' := hout (Nat.le_of_not_lt hge)
      rw [hnone x hown' hlast] at hthrows
      cases hthrows
    have hi : i + 1 < m - 1 := by
      by_contra hge
      have hmono : block_start m first last (m - 2) ≤ block_start m first last i :=
        block_start_mono (by omega)
      omega
    rw [block_end, if_neg (by omega)] at hend
    have hi' : i ≤ m - 1 := by omega
    obtain ⟨accessed', hsteps⟩ := waiting_steps num hm hi'
      (fun y hy hlt => hbefore y hy (Nat.lt_of_lt_of_le hlt hstart)) accessed
    obtain ⟨s, hthrow, hcaller, hleft⟩ := waiting_throws num hm accessed' hi
      hstart hend hkthrows fun y hy hlt => hbefore y (Nat.le_trans first_le_block_start hy) hlt
    exact ⟨s, ((hown.trans hget).trans hsteps).trans hthrow, hcaller, hleft⟩

/-- **A task is left behind in some schedule, unless `f` throws only in the block of the last
task.** The futures do not join, and the first `get` that throws leaves the loop: the tasks behind
it may still run on memory that the caller has got back. -/
theorem leaves_nothing_iff (throws : Nat → Bool) (num first length : Nat) :
    (∀ as s,
      (lts throws num first (first + length)).exec (init first (first + length)) as = some s →
        LeavesNothing throws num first (first + length) s) ↔
      Confined throws first (first + length) := by
  have hle : first ≤ first + length := Nat.le_add_right first length
  constructor
  · intro hall
    by_contra hnot
    obtain ⟨s, ⟨as, hrun⟩, hcaller, i, hleft⟩ := exists_left num hle hnot
    have hnone := (hall as s hrun (by rw [hcaller]; rfl)).1 i
    rw [hleft] at hnone
    cases hnone
  · intro hconfined as s hrun
    exact (inv_run hle hrun).leaves_nothing hconfined

/-- `f` throws on the element 25 of 50: it is the first of the calling thread's own block, and the
task for the other 25 elements is still queued. -/
theorem leaves_task :
    ¬ ∀ as s, (lts (· == 25) 2 0 50).exec (init 0 50) as = some s →
      LeavesNothing (· == 25) 2 0 50 s := by
  intro hall
  obtain ⟨s, hrun, hended, hleft⟩ : ∃ s,
      (lts (· == 25) 2 0 50).exec (init 0 50) [.caller, .caller, .caller] = some s ∧
        s.caller.ended = true ∧ (s.task 0).pending = true := ⟨_, rfl, by decide, by decide⟩
  have hnone := (hall _ s hrun hended).1 0
  rw [hleft] at hnone
  cases hnone

end BoostNet.PoolForEach
