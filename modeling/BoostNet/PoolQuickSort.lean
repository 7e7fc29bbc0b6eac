/-
`pool_thread_quick_sort` on `ThreadPool` (Concurrent/day22-ThreadPool, QuickSort.h and
ThreadPool.h): a call splits its list, commits the lower chunk as a task, sorts the higher
one itself, and then waits for the task, inside a worker if it is a task itself.

A thread is the calls that it is in (`Frame`, the innermost first) and what the innermost
one does next (`Pc`). A free worker takes the task at the front of `tasks_`; that and a
commit are one step each, as `cv_mt_` makes them. `stop` is not called, so no commit finds
`stop_` set. A future is the number of its commit.

* `Returns` says that a call comes back with the sorted list under every scheduling, and
  `Sys.Deadlock` that the caller and all workers wait while tasks are queued.
* `steps_le`: every run is finite.
* `no_deadlock`: no deadlock is reachable with fewer nonempty chunks than workers.
* `returned_of_stuck`: a run that cannot go on and is no deadlock has returned the list.
-/
import BoostNet.Lts
import BoostNet.QuickSort
import BoostNet.Threads
import Mathlib.Algebra.GroupWithZero.Nat
import Mathlib.Algebra.Order.BigOperators.Group.Finset
import Mathlib.Data.Fintype.BigOperators

set_option autoImplicit false

namespace BoostNet.PoolQuickSort

open QuickSort

/-! ## The system -/

/-- A call that has committed its lower chunk and goes on with the higher one. -/
structure Frame (T : Type*) where
  result : List T
  new_lower : Nat

/-- What a thread does next. `job` is the future that its task will set, and `none` for the
caller. -/
inductive Pc (T : Type*) where
  | free
  | call (job : Option Nat) (input : List T) (frames : List (Frame T))
  | get (job : Option Nat) (result : List T) (new_lower : Nat) (frames : List (Frame T))
  | ret (job : Option Nat) (value : List T) (frames : List (Frame T))

/-- The pool and its `n` workers, and the caller, which is the thread `none`. -/
structure Sys (T : Type*) (n : Nat) where
  tasks_ : List (Nat × List T) := []
  futures : Nat → Option (List T) := fun _ => none
  /-- The number of commits. -/
  committed : Nat := 0
  pc : Option (Fin n) → Pc T

variable {T : Type*} {n : Nat}

def Sys.goto (s : Sys T n) (i : Option (Fin n)) (p : Pc T) : Sys T n :=
  { s with pc := Function.update s.pc i p }

/-- The next step of a thread. -/
def Sys.step [LT T] (part : Partition T) (s : Sys T n) (i : Option (Fin n)) : Option (Sys T n) :=
  match s.pc i with
  | .free =>
      match s.tasks_ with
      | [] => none
      | (new_lower, chunk) :: rest =>
          some { s.goto i (.call (some new_lower) chunk []) with tasks_ := rest }
  | .call job [] frames => some (s.goto i (.ret job [] frames))
  | .call job (p :: input) frames =>
      some { s.goto i (.call job (part.higher_chunk p input)
          ({ result := [p], new_lower := s.committed } :: frames)) with
        tasks_ := s.tasks_ ++ [(s.committed, part.lower_chunk p input)]
        committed := s.committed + 1 }
  | .ret job new_higher (frame :: frames) =>
      some (s.goto i (.get job (frame.result ++ new_higher) frame.new_lower frames))
  | .get job result new_lower frames =>
      match s.futures new_lower with
      | none => none
      | some lower => some (s.goto i (.ret job (lower ++ result) frames))
  | .ret (some job) value [] =>
      some { s.goto i .free with futures := Function.update s.futures job (some value) }
  | .ret none _ [] => none

/-- The caller calls `pool_thread_quick_sort(input)`. -/
def system [LT T] (part : Partition T) (n : Nat) (input : List T) :
    Lts (Sys T n) (Option (Fin n)) where
  init := { pc := fun i => i.elim (.call none input []) fun _ => .free }
  step := Sys.step part

/-! ## What should hold -/

/-- The thread waits in `future.get()`. -/
def Sys.Blocked (s : Sys T n) (i : Option (Fin n)) : Prop :=
  ∃ job result new_lower frames,
    s.pc i = .get job result new_lower frames ∧ s.futures new_lower = none

/-- The caller and all workers wait while tasks are queued. -/
def Sys.Deadlock (s : Sys T n) : Prop := (∀ i, s.Blocked i) ∧ s.tasks_ ≠ []

/-- The call has returned the value. -/
def Sys.Returned (s : Sys T n) (value : List T) : Prop := s.pc none = .ret none value []

/-- The call never deadlocks, and so it returns the sorted list: a run does not go on for
ever, and where it cannot go on the call has returned. -/
structure Returns [LT T] (part : Partition T) (n : Nat) (input : List T) : Prop where
  no_deadlock : ∀ s, (system part n input).Reaches (system part n input).init s → ¬ s.Deadlock
  terminates : ∃ bound, ∀ as s, (system part n input).exec (system part n input).init as = some s →
    as.length ≤ bound
  returned : ∀ s, (system part n input).Reaches (system part n input).init s →
    (system part n input).Stuck s → ∃ value, s.Returned value ∧ Sorted value ∧ value.Perm input

/-! ## What a step does -/

section Steps

variable [LT T] {part : Partition T} {s t : Sys T n} {i : Option (Fin n)}

inductive Step (part : Partition T) (s : Sys T n) (i : Option (Fin n)) : Sys T n → Prop where
  | start (new_lower : Nat) (chunk : List T) (rest : List (Nat × List T))
      (hpc : s.pc i = .free) (htasks : s.tasks_ = (new_lower, chunk) :: rest) :
      Step part s i { s.goto i (.call (some new_lower) chunk []) with tasks_ := rest }
  | empty (job : Option Nat) (frames : List (Frame T)) (hpc : s.pc i = .call job [] frames) :
      Step part s i (s.goto i (.ret job [] frames))
  | commit (job : Option Nat) (p : T) (input : List T) (frames : List (Frame T))
      (hpc : s.pc i = .call job (p :: input) frames) :
      Step part s i { s.goto i (.call job (part.higher_chunk p input)
          ({ result := [p], new_lower := s.committed } :: frames)) with
        tasks_ := s.tasks_ ++ [(s.committed, part.lower_chunk p input)]
        committed := s.committed + 1 }
  | resume (job : Option Nat) (new_higher : List T) (frame : Frame T) (frames : List (Frame T))
      (hpc : s.pc i = .ret job new_higher (frame :: frames)) :
      Step part s i
        (s.goto i (.get job (frame.result ++ new_higher) frame.new_lower frames))
  | ready (job : Option Nat) (result : List T) (new_lower : Nat) (frames : List (Frame T))
      (lower : List T) (hpc : s.pc i = .get job result new_lower frames)
      (hready : s.futures new_lower = some lower) :
      Step part s i (s.goto i (.ret job (lower ++ result) frames))
  | finish (job : Nat) (value : List T) (hpc : s.pc i = .ret (some job) value []) :
      Step part s i
        { s.goto i .free with futures := Function.update s.futures job (some value) }

/-- All that a thread can do in one step. -/
theorem step_cases (hstep : s.step part i = some t) : Step part s i t := by
  cases hpc : s.pc i with
  | free =>
      simp only [Sys.step, hpc] at hstep
      cases htasks : s.tasks_ with
      | nil =>
          simp only [htasks] at hstep
          cases hstep
      | cons task rest =>
          simp only [htasks] at hstep
          cases hstep
          exact .start task.1 task.2 rest hpc htasks
  | call job input frames =>
      cases input with
      | nil =>
          simp only [Sys.step, hpc] at hstep
          cases hstep
          exact .empty job frames hpc
      | cons p input =>
          simp only [Sys.step, hpc] at hstep
          cases hstep
          exact .commit job p input frames hpc
  | get job result new_lower frames =>
      simp only [Sys.step, hpc] at hstep
      cases hready : s.futures new_lower with
      | none =>
          simp only [hready] at hstep
          cases hstep
      | some lower =>
          simp only [hready] at hstep
          cases hstep
          exact .ready job result new_lower frames lower hpc hready
  | ret job value frames =>
      cases frames with
      | nil =>
          cases job with
          | none =>
              simp only [Sys.step, hpc] at hstep
              cases hstep
          | some job =>
              simp only [Sys.step, hpc] at hstep
              cases hstep
              exact .finish job value hpc
      | cons frame frames =>
          simp only [Sys.step, hpc] at hstep
          cases hstep
          exact .resume job value frame frames hpc

/-- A thread that cannot go on waits in `future.get()`, is free and finds no task, or is the
caller and has returned. -/
theorem stuck_cases (hstuck : s.step part i = none) :
    s.Blocked i ∨ (s.pc i = .free ∧ s.tasks_ = []) ∨ ∃ value, s.pc i = .ret none value [] := by
  cases hpc : s.pc i with
  | free =>
      simp only [Sys.step, hpc] at hstuck
      cases htasks : s.tasks_ with
      | nil => exact Or.inr (Or.inl ⟨rfl, rfl⟩)
      | cons task rest =>
          simp only [htasks] at hstuck
          cases hstuck
  | call job input frames =>
      cases input <;> simp only [Sys.step, hpc] at hstuck <;> cases hstuck
  | get job result new_lower frames =>
      simp only [Sys.step, hpc] at hstuck
      cases hready : s.futures new_lower with
      | none => exact Or.inl ⟨job, result, new_lower, frames, hpc, hready⟩
      | some lower =>
          simp only [hready] at hstuck
          cases hstuck
  | ret job value frames =>
      cases frames with
      | nil =>
          cases job with
          | none => exact Or.inr (Or.inr ⟨value, rfl⟩)
          | some job =>
              simp only [Sys.step, hpc] at hstuck
              cases hstuck
      | cons frame frames =>
          simp only [Sys.step, hpc] at hstuck
          cases hstuck

/-! ## Every run is finite -/

/-- A bound on the steps that are left, of a thread and of a task. -/
def Pc.work : Pc T → Nat
  | .free => 0
  | .call _ input frames => 6 * input.length + 2 * frames.length + 2
  | .get _ _ _ frames => 2 * frames.length + 2
  | .ret _ _ frames => 2 * frames.length + 1

def taskWork (task : Nat × List T) : Nat := 6 * task.2.length + 3

def Sys.work (s : Sys T n) : Nat := ∑ i, (s.pc i).work + (s.tasks_.map taskWork).sum

omit [LT T] in
/-- The work after a step of thread `i` to `p`. -/
theorem work_update {p : Pc T} (hpc : t.pc = Function.update s.pc i p)
    (hlocal : p.work + (t.tasks_.map taskWork).sum <
      (s.pc i).work + (s.tasks_.map taskWork).sum) : t.work < s.work := by
  have hsum := sum_update Pc.work s.pc p (Finset.mem_univ i)
  rw [← hpc] at hsum
  rw [Sys.work, Sys.work]
  omega

/-- Each step works off some of the finite rest. -/
theorem work_step (hstep : s.step part i = some t) : t.work < s.work := by
  cases step_cases hstep with
  | start new_lower chunk rest hpc htasks =>
      apply work_update rfl
      rw [hpc, htasks, List.map_cons, List.sum_cons]
      show 6 * chunk.length + 2 * 0 + 2 + (rest.map taskWork).sum <
        0 + (6 * chunk.length + 3 + (rest.map taskWork).sum)
      omega
  | empty job frames hpc =>
      apply work_update rfl
      rw [hpc]
      show 2 * frames.length + 1 + (s.tasks_.map taskWork).sum <
        6 * 0 + 2 * frames.length + 2 + (s.tasks_.map taskWork).sum
      omega
  | commit job p input frames hpc =>
      -- the two chunks together are one element shorter than the list
      have hlen := part.length_add p input
      apply work_update rfl
      rw [hpc, List.map_append, List.sum_append]
      show 6 * (part.higher_chunk p input).length + 2 * (frames.length + 1) + 2 +
          ((s.tasks_.map taskWork).sum + (6 * (part.lower_chunk p input).length + 3 + 0)) <
        6 * (input.length + 1) + 2 * frames.length + 2 + (s.tasks_.map taskWork).sum
      omega
  | resume job new_higher frame frames hpc =>
      apply work_update rfl
      rw [hpc]
      show 2 * frames.length + 2 + (s.tasks_.map taskWork).sum <
        2 * (frames.length + 1) + 1 + (s.tasks_.map taskWork).sum
      omega
  | ready job result new_lower frames lower hpc hready =>
      apply work_update rfl
      rw [hpc]
      show 2 * frames.length + 1 + (s.tasks_.map taskWork).sum <
        2 * frames.length + 2 + (s.tasks_.map taskWork).sum
      omega
  | finish job value hpc =>
      apply work_update rfl
      rw [hpc]
      show 0 + (s.tasks_.map taskWork).sum < 2 * 0 + 1 + (s.tasks_.map taskWork).sum
      omega

/-- **Every run is finite.** -/
theorem steps_le (input : List T) (as : List (Option (Fin n)))
    (hrun : (system part n input).exec (system part n input).init as = some s) :
    as.length ≤ (system part n input).init.work := by
  have hle := (system part n input).length_le_of_measure (μ := Sys.work)
    (fun s i t hstep => work_step hstep) hrun
  omega

/-! ## The nonempty chunks -/

/-- One for a task that has begun to sort a nonempty chunk, and has not come to its end. -/
def Pc.busy : Pc T → Nat
  | .call (some _) [] [] | .ret (some _) _ [] => 0
  | .call (some _) (_ :: _) _ | .call (some _) _ (_ :: _) | .get (some _) _ _ _
  | .ret (some _) _ (_ :: _) => 1
  | .free | .call none _ _ | .get none _ _ _ | .ret none _ _ => 0

/-- The nonempty chunks that a thread has still to commit, with those of their calls. -/
def Pc.rest (part : Partition T) : Pc T → Nat
  | .call _ input _ => nonempty_chunks part input
  | .free | .get _ _ _ _ | .ret _ _ _ => 0

def Pc.load (part : Partition T) (p : Pc T) : Nat := p.busy + p.rest part

def taskLoad (part : Partition T) (task : Nat × List T) : Nat :=
  (if task.2 = [] then 0 else 1) + nonempty_chunks part task.2

/-- The nonempty chunks that are being sorted, queued or to come. -/
def Sys.load (part : Partition T) (s : Sys T n) : Nat :=
  ∑ i, (s.pc i).load part + (s.tasks_.map (taskLoad part)).sum

/-- A step changes the load by its own thread and by the tasks. -/
theorem load_update (part : Partition T) {p : Pc T} (hpc : t.pc = Function.update s.pc i p) :
    t.load part + ((s.pc i).load part + (s.tasks_.map (taskLoad part)).sum) =
      s.load part + (p.load part + (t.tasks_.map (taskLoad part)).sum) := by
  have hsum := sum_update (Pc.load part) s.pc p (Finset.mem_univ i)
  rw [← hpc] at hsum
  rw [Sys.load, Sys.load]
  omega

/-- A commit moves a chunk into the queue. -/
theorem load_commit (part : Partition T) (job : Option Nat) (p : T) (input : List T)
    (frames : List (Frame T)) (frame : Frame T) (f : Nat) :
    (Pc.call job (part.higher_chunk p input) (frame :: frames)).load part +
        taskLoad part (f, part.lower_chunk p input) =
      (Pc.call job (p :: input) frames).load part := by
  have hbusy : (Pc.call job (part.higher_chunk p input) (frame :: frames)).busy =
      (Pc.call job (p :: input) frames).busy := by
    cases job with
    | none => rfl
    | some j => cases part.higher_chunk p input <;> rfl
  have hcons := nonempty_chunks_cons part p input
  rw [Pc.load, Pc.load, hbusy]
  show _ + nonempty_chunks part (part.higher_chunk p input) +
      ((if part.lower_chunk p input = [] then 0 else 1) +
        nonempty_chunks part (part.lower_chunk p input)) =
    _ + nonempty_chunks part (p :: input)
  omega

/-- A worker takes a chunk out of the queue. -/
theorem load_start (f : Nat) (chunk : List T) :
    (Pc.call (some f) chunk []).load part = taskLoad part (f, chunk) := by
  cases chunk with
  | nil => rfl
  | cons p input => rfl

omit [LT T] in
/-- A thread is busy with one call at most. -/
theorem busy_le (p : Pc T) : p.busy ≤ 1 := by
  unfold Pc.busy
  split <;> omega

omit [LT T] in
/-- The end of a task, or of a call in it, adds no chunk. -/
theorem busy_ret_le (job : Option Nat) (value result : List T) (f : Nat)
    (frames : List (Frame T)) :
    (Pc.ret job value frames).busy ≤ (Pc.get job result f frames).busy := by
  cases job with
  | none => exact Nat.le_refl _
  | some j =>
      cases frames with
      | nil => exact Nat.zero_le _
      | cons frame frames => exact Nat.le_refl _

/-- No step adds a nonempty chunk. -/
theorem load_step (hstep : s.step part i = some t) : t.load part ≤ s.load part := by
  have hle : ∀ {p : Pc T}, t.pc = Function.update s.pc i p →
      p.load part + (t.tasks_.map (taskLoad part)).sum ≤
        (s.pc i).load part + (s.tasks_.map (taskLoad part)).sum → t.load part ≤ s.load part := by
    intro p hpc hlocal
    have hload := load_update part hpc
    omega
  cases step_cases hstep with
  | start new_lower chunk rest hpc htasks =>
      apply hle rfl
      rw [hpc, htasks, List.map_cons, List.sum_cons, load_start]
      exact Nat.le_add_left _ _
  | empty job frames hpc =>
      apply hle rfl
      rw [hpc]
      have hbusy : (Pc.ret job [] frames).busy = (Pc.call job [] frames).busy := by
        cases job <;> cases frames <;> rfl
      show (Pc.ret job [] frames).busy + 0 + _ ≤
        (Pc.call job [] frames).busy + nonempty_chunks part [] + _
      rw [hbusy, nonempty_chunks_nil]
      exact Nat.le_refl _
  | commit job p input frames hpc =>
      apply hle rfl
      have hcommit := load_commit part job p input frames
        { result := [p], new_lower := s.committed } s.committed
      rw [hpc, List.map_append, List.sum_append, List.map_singleton, List.sum_singleton]
      omega
  | resume job new_higher frame frames hpc =>
      apply hle rfl
      rw [hpc]
      cases job <;> exact Nat.le_refl _
  | ready job result new_lower frames lower hpc hready =>
      apply hle rfl
      rw [hpc]
      have hbusy := busy_ret_le job (lower ++ result) result new_lower frames
      show (Pc.ret job (lower ++ result) frames).busy + 0 + (s.tasks_.map (taskLoad part)).sum ≤
        (Pc.get job result new_lower frames).busy + 0 + (s.tasks_.map (taskLoad part)).sum
      omega
  | finish job value hpc =>
      apply hle rfl
      rw [hpc]
      exact Nat.le_refl _

/-- At first the load is that of the whole input. -/
theorem load_init (input : List T) :
    (system part n input).init.load part = nonempty_chunks part input := by
  have hworkers : ∑ w : Fin n, ((system part n input).init.pc (some w)).load part = 0 :=
    Finset.sum_eq_zero fun w _ => rfl
  rw [Sys.load, Fintype.sum_option, hworkers]
  show 0 + nonempty_chunks part input + 0 + 0 = nonempty_chunks part input
  omega

/-- It never gets larger than that. -/
theorem load_reaches {input : List T}
    (hreach : (system part n input).Reaches (system part n input).init s) :
    s.load part ≤ nonempty_chunks part input := by
  obtain ⟨as, hrun⟩ := hreach
  refine (system part n input).exec_inv
    (P := fun s => s.load part ≤ nonempty_chunks part input)
    (fun s i t hle hstep => Nat.le_trans (load_step hstep) hle) ?_ hrun
  exact Nat.le_of_eq (load_init input)

/-! ## What the threads compute -/

/-- What a call returns from `value` on, when the futures return their chunks of `g`
sorted. -/
def plug (part : Partition T) (g : Nat → List T) : List (Frame T) → List T → List T
  | [], value => value
  | frame :: frames, value =>
      plug part g frames (quick_sort part (g frame.new_lower) ++ (frame.result ++ value))

/-- What the thread is going to return. -/
def Pc.value (part : Partition T) (g : Nat → List T) : Pc T → List T
  | .free => []
  | .call _ input frames => plug part g frames (quick_sort part input)
  | .get _ result new_lower frames =>
      plug part g frames (quick_sort part (g new_lower) ++ result)
  | .ret _ value frames => plug part g frames value

/-- The task of the thread, if it has one. -/
def Pc.job : Pc T → Option (Option Nat)
  | .free => none
  | .call job _ _ | .get job _ _ _ | .ret job _ _ => some job

/-- The futures that the thread waits for, now or later. -/
def Pc.waits : Pc T → List Nat
  | .free => []
  | .call _ _ frames | .ret _ _ frames => frames.map Frame.new_lower
  | .get _ _ new_lower frames => new_lower :: frames.map Frame.new_lower

/-- What a task is to return. -/
def target (part : Partition T) (input : List T) (g : Nat → List T) : Option Nat → List T
  | none => quick_sort part input
  | some f => quick_sort part (g f)

structure ThreadOk (part : Partition T) (input : List T) (g : Nat → List T) (committed : Nat)
    (i : Option (Fin n)) (p : Pc T) : Prop where
  caller : p.job = some none ↔ i = none
  value : ∀ job, p.job = some job → p.value part g = target part input g job
  job_lt : ∀ f, p.job = some (some f) → f < committed
  waits : ∀ f ∈ p.waits, f < committed ∧ ∀ f', p.job = some (some f') → f' < f

/-- The chunk of each future is `g` of it. -/
structure Inv (part : Partition T) (input : List T) (g : Nat → List T) (s : Sys T n) :
    Prop where
  threads : ∀ i, ThreadOk part input g s.committed i (s.pc i)
  tasks : ∀ f chunk, (f, chunk) ∈ s.tasks_ → f < s.committed ∧ g f = chunk
  futures : ∀ f value, s.futures f = some value →
    f < s.committed ∧ value = quick_sort part (g f)
  pending : ∀ f, f < s.committed → s.futures f = none →
    (∃ chunk, (f, chunk) ∈ s.tasks_) ∨ ∃ i, (s.pc i).job = some (some f)

section Invariant

variable {input : List T} {g g' : Nat → List T} {c c' : Nat} {p : Pc T}

/-- What is put together depends only on the futures that are waited for. -/
theorem plug_congr {frames : List (Frame T)} {value : List T}
    (hg : ∀ frame ∈ frames, g' frame.new_lower = g frame.new_lower) :
    plug part g' frames value = plug part g frames value := by
  induction frames generalizing value with
  | nil => rfl
  | cons frame frames ih =>
      rw [plug, plug, hg frame List.mem_cons_self]
      exact ih fun frame' hframe => hg frame' (List.mem_cons_of_mem _ hframe)

/-- Later commits change nothing for a thread. -/
theorem ThreadOk.mono (h : ThreadOk part input g c i p) (hg : ∀ f, f < c → g' f = g f)
    (hc : c ≤ c') : ThreadOk part input g' c' i p where
  caller := h.caller
  value job hjob := by
    -- its calls wait for futures that were committed before, and these keep their chunks
    have hframes : ∀ frames : List (Frame T), (∀ frame ∈ frames, frame.new_lower ∈ p.waits) →
        ∀ value, plug part g' frames value = plug part g frames value := by
      intro frames hwaits value
      exact plug_congr fun frame hframe => hg _ (h.waits _ (hwaits frame hframe)).1
    have hvalue : p.value part g' = p.value part g := by
      cases p with
      | free => rfl
      | call job input frames | ret job value frames =>
          exact hframes frames (fun frame hframe => List.mem_map_of_mem hframe) _
      | get job result new_lower frames =>
          have hlower : g' new_lower = g new_lower :=
            hg new_lower (h.waits new_lower List.mem_cons_self).1
          rw [Pc.value, Pc.value, hlower]
          exact hframes frames
            (fun frame hframe => List.mem_cons_of_mem _ (List.mem_map_of_mem hframe)) _
    have htarget : target part input g' job = target part input g job := by
      cases job with
      | none => rfl
      | some f => rw [target, target, hg f (h.job_lt f hjob)]
    rw [hvalue, htarget, h.value job hjob]
  job_lt f hf := Nat.lt_of_lt_of_le (h.job_lt f hf) hc
  waits f hf := ⟨Nat.lt_of_lt_of_le (h.waits f hf).1 hc, (h.waits f hf).2⟩

/-- A thread goes on with its task. -/
theorem ThreadOk.move {q : Pc T} (h : ThreadOk part input g c i q) (hjob : p.job = q.job)
    (hvalue : p.value part g = q.value part g) (hwaits : ∀ f ∈ p.waits, f ∈ q.waits) :
    ThreadOk part input g c i p where
  caller := by rw [hjob]; exact h.caller
  value job hp := by rw [hvalue]; exact h.value job (hjob ▸ hp)
  job_lt f hf := h.job_lt f (hjob ▸ hf)
  waits f hf := by rw [hjob]; exact h.waits f (hwaits f hf)

/-- The threads after one of them has moved. -/
theorem Inv.threads_update (h : Inv part input g s) (hpc : t.pc = Function.update s.pc i p)
    (hg : ∀ f, f < s.committed → g' f = g f) (hc : s.committed ≤ t.committed)
    (hp : ThreadOk part input g' t.committed i p) :
    ∀ j, ThreadOk part input g' t.committed j (t.pc j) := by
  intro j
  rw [hpc]
  by_cases hj : j = i
  · rw [hj, Function.update_self]
    exact hp
  · rw [Function.update_of_ne hj]
    exact (h.threads j).mono hg hc

omit [LT T] in
/-- A thread that has moved still has its task. -/
theorem job_update {f : Nat} (hpc : t.pc = Function.update s.pc i p)
    (hjob : p.job = some (some f) ∨ (s.pc i).job ≠ some (some f)) {j : Option (Fin n)}
    (hj : (s.pc j).job = some (some f)) : ∃ k, (t.pc k).job = some (some f) := by
  rw [hpc]
  by_cases hji : j = i
  · rcases hjob with hp | hne
    · exact ⟨i, by rw [Function.update_self, hp]⟩
    · exact absurd (hji ▸ hj) hne
  · exact ⟨j, by rw [Function.update_of_ne hji, hj]⟩

/-- A thread goes on with its task, without a commit. -/
theorem Inv.goto (h : Inv part input g s) (hjob : p.job = (s.pc i).job)
    (hvalue : p.value part g = (s.pc i).value part g)
    (hwaits : ∀ f ∈ p.waits, f ∈ (s.pc i).waits) : Inv part input g (s.goto i p) where
  threads := h.threads_update rfl (fun _ _ => rfl) (Nat.le_refl _)
    ((h.threads i).move hjob hvalue hwaits)
  tasks := h.tasks
  futures := h.futures
  pending f hf hnone := by
    refine (h.pending f hf hnone).imp_right ?_
    rintro ⟨j, hj⟩
    refine job_update (t := s.goto i p) rfl ?_ hj
    rw [hjob]
    exact em _

/-- A free thread takes a task from the pool. -/
theorem inv_start (h : Inv part input g s) {f : Nat} {chunk : List T}
    {rest : List (Nat × List T)} (hpc : s.pc i = .free) (htasks : s.tasks_ = (f, chunk) :: rest) :
    Inv part input g { s.goto i (.call (some f) chunk []) with tasks_ := rest } := by
  obtain ⟨hlt, hchunk⟩ := h.tasks f chunk (by rw [htasks]; exact List.mem_cons_self)
  have hi := h.threads i
  rw [hpc] at hi
  refine ⟨h.threads_update rfl (fun _ _ => rfl) (Nat.le_refl _) ⟨?_, ?_, ?_, ?_⟩, ?_, h.futures, ?_⟩
  · refine iff_of_false (fun heq => ?_) fun heq => ?_
    · cases heq
    · cases hi.caller.mpr heq
  · intro job hjob
    obtain rfl : some f = job := Option.some.inj hjob
    show quick_sort part chunk = quick_sort part (g f)
    rw [hchunk]
  · intro f' hf
    obtain rfl : f = f' := Option.some.inj (Option.some.inj hf)
    exact hlt
  · intro f' hf
    cases hf
  · intro f' chunk' hmem
    exact h.tasks f' chunk' (by rw [htasks]; exact List.mem_cons_of_mem _ hmem)
  · intro f' hf hnone
    rcases h.pending f' hf hnone with ⟨chunk', hmem⟩ | ⟨j, hj⟩
    · rw [htasks] at hmem
      rcases List.mem_cons.mp hmem with heq | hmem
      · -- the task that is started
        right
        refine ⟨i, ?_⟩
        show (Function.update s.pc i (Pc.call (some f) chunk []) i).job = some (some f')
        rw [Function.update_self, (Prod.mk.inj heq).1]
        rfl
      · exact Or.inl ⟨chunk', hmem⟩
    · right
      refine job_update (p := .call (some f) chunk []) rfl (Or.inr ?_) hj
      rw [hpc]
      simp [Pc.job]

/-- The lower chunk becomes a task with a future of its own, the higher one is sorted by the same
thread. -/
theorem inv_commit (h : Inv part input g s) {job : Option Nat} {x : T} {xs : List T}
    {frames : List (Frame T)} (hpc : s.pc i = .call job (x :: xs) frames) :
    Inv part input (Function.update g s.committed (part.lower_chunk x xs))
      { s.goto i (.call job (part.higher_chunk x xs)
          ({ result := [x], new_lower := s.committed } :: frames)) with
        tasks_ := s.tasks_ ++ [(s.committed, part.lower_chunk x xs)]
        committed := s.committed + 1 } := by
  have hi := h.threads i
  rw [hpc] at hi
  have hg : ∀ f, f < s.committed →
      Function.update g s.committed (part.lower_chunk x xs) f = g f :=
    fun f hf => Function.update_of_ne (Nat.ne_of_lt hf) _ _
  have hi' := hi.mono hg (Nat.le_succ s.committed)
  refine ⟨h.threads_update rfl hg (Nat.le_succ _) ⟨hi.caller, ?_, hi'.job_lt, ?_⟩, ?_, ?_, ?_⟩
  · intro job' hjob
    -- the call waits for the new future, which is to return the lower chunk sorted
    rw [← hi'.value job' hjob]
    show plug part _ frames (quick_sort part (Function.update g s.committed
      (part.lower_chunk x xs) s.committed) ++ ([x] ++ quick_sort part (part.higher_chunk x xs))) =
      plug part _ frames (quick_sort part (x :: xs))
    rw [Function.update_self, quick_sort_cons]
    rfl
  · intro f hf
    rcases List.mem_cons.mp hf with rfl | hf
    · exact ⟨Nat.lt_succ_self _, fun f' hf' => hi.job_lt f' hf'⟩
    · exact hi'.waits f hf
  · intro f chunk hmem
    rcases List.mem_append.mp hmem with hmem | hmem
    · obtain ⟨hlt, hchunk⟩ := h.tasks f chunk hmem
      exact ⟨Nat.lt_succ_of_lt hlt, (hg f hlt).trans hchunk⟩
    · obtain ⟨rfl, rfl⟩ := Prod.mk.inj (List.mem_singleton.mp hmem)
      exact ⟨Nat.lt_succ_self _, Function.update_self _ _ _⟩
  · intro f value hf
    obtain ⟨hlt, hvalue⟩ := h.futures f value hf
    exact ⟨Nat.lt_succ_of_lt hlt, by rw [hg f hlt, hvalue]⟩
  · intro f hf hnone
    by_cases heq : f = s.committed
    · -- the task of the new future is in the queue
      left
      exact ⟨part.lower_chunk x xs, by rw [heq]; simp⟩
    · have hf : f < s.committed + 1 := hf
      rcases h.pending f (by omega) hnone with ⟨chunk, hmem⟩ | ⟨j, hj⟩
      · exact Or.inl ⟨chunk, List.mem_append_left _ hmem⟩
      · right
        refine job_update (p := .call job (part.higher_chunk x xs)
          ({ result := [x], new_lower := s.committed } :: frames)) rfl ?_ hj
        rw [hpc]
        exact em _

/-- A task that is done sets the value of its future. -/
theorem inv_finish (h : Inv part input g s) {f : Nat} {value : List T}
    (hpc : s.pc i = .ret (some f) value []) :
    Inv part input g
      { s.goto i .free with futures := Function.update s.futures f (some value) } := by
  have hi := h.threads i
  rw [hpc] at hi
  have hcaller : i ≠ none := fun heq => by cases hi.caller.mpr heq
  refine ⟨h.threads_update rfl (fun _ _ => rfl) (Nat.le_refl _) ⟨?_, ?_, ?_, ?_⟩, h.tasks, ?_, ?_⟩
  · exact iff_of_false (fun heq => by cases heq) hcaller
  · intro job hjob
    cases hjob
  · intro f' hf
    cases hf
  · intro f' hf
    cases hf
  · intro f' value' hready
    by_cases heq : f' = f
    · -- the value of the future is what its task was to return
      subst heq
      have hready : Function.update s.futures f' (some value) f' = some value' := hready
      rw [Function.update_self, Option.some.injEq] at hready
      subst hready
      exact ⟨hi.job_lt f' rfl, hi.value (some f') rfl⟩
    · exact h.futures f' value' ((Function.update_of_ne heq _ _).symm.trans hready)
  · intro f' hf hnone
    have hne : f' ≠ f := by
      rintro rfl
      cases (Function.update_self f' (some value) s.futures).symm.trans hnone
    have hnone : s.futures f' = none := (Function.update_of_ne hne _ _).symm.trans hnone
    refine (h.pending f' hf hnone).imp_right ?_
    rintro ⟨j, hj⟩
    refine job_update (p := .free) rfl (Or.inr ?_) hj
    rw [hpc]
    simpa [Pc.job] using Ne.symm hne

/-- **Every step keeps the invariant.** -/
theorem inv_step (h : Inv part input g s) (hstep : s.step part i = some t) :
    ∃ g', Inv part input g' t := by
  cases step_cases hstep with
  | start new_lower chunk rest hpc htasks => exact ⟨g, inv_start h hpc htasks⟩
  | empty job frames hpc =>
      refine ⟨g, h.goto (by rw [hpc]; rfl) ?_ (by rw [hpc]; exact fun f hf => hf)⟩
      rw [hpc, Pc.value, Pc.value, quick_sort_nil]
  | commit job x xs frames hpc => exact ⟨_, inv_commit h hpc⟩
  | resume job new_higher frame frames hpc =>
      exact ⟨g, h.goto (by rw [hpc]; rfl) (by rw [hpc]; rfl) (by rw [hpc]; exact fun f hf => hf)⟩
  | ready job result new_lower frames lower hpc hready =>
      refine ⟨g, h.goto (by rw [hpc]; rfl) ?_ ?_⟩
      · rw [hpc, (h.futures new_lower lower hready).2]
        rfl
      · rw [hpc]
        exact fun f hf => List.mem_cons_of_mem _ hf
  | finish f value hpc => exact ⟨g, inv_finish h hpc⟩

/-- The call sorts the whole input. -/
theorem inv_init (input : List T) :
    Inv part input (fun _ => []) (system part n input).init where
  threads i := by
    cases i with
    | none =>
        refine ⟨iff_of_true rfl rfl, ?_, ?_, ?_⟩
        · intro job hjob
          obtain rfl : none = job := Option.some.inj hjob
          rfl
        · intro f hf
          cases hf
        · intro f hf
          cases hf
    | some w =>
        refine ⟨iff_of_false (fun heq => by cases heq) (fun heq => by cases heq), ?_, ?_, ?_⟩
        · intro job hjob
          cases hjob
        · intro f hf
          cases hf
        · intro f hf
          cases hf
  tasks f chunk hmem := by cases hmem
  futures f value hready := by cases hready
  pending f hf := absurd hf (Nat.not_lt_zero f)

/-- Along a run the values of the futures are what the invariant says. -/
theorem inv_reaches (hreach : (system part n input).Reaches (system part n input).init s) :
    ∃ g, Inv part input g s := by
  obtain ⟨as, hrun⟩ := hreach
  exact (system part n input).exec_inv (P := fun s => ∃ g, Inv part input g s)
    (fun s i t ⟨g, h⟩ hstep => inv_step h hstep) ⟨_, inv_init input⟩ hrun

end Invariant

/-! ## With fewer nonempty chunks than workers -/

/-- A worker that waits is busy. -/
theorem busy_of_blocked {input : List T} {g : Nat → List T} (h : Inv part input g s) {w : Fin n}
    (hblocked : s.Blocked (some w)) : 1 ≤ (s.pc (some w)).load part := by
  obtain ⟨job, result, new_lower, frames, hpc, -⟩ := hblocked
  have hi := h.threads (some w)
  rw [hpc] at hi ⊢
  cases job with
  | none => cases hi.caller.mp rfl
  | some f => exact Nat.le_refl 1

/-- **No deadlock** is reachable with fewer nonempty chunks than workers. -/
theorem no_deadlock {input : List T} (hlt : nonempty_chunks part input < n)
    (hreach : (system part n input).Reaches (system part n input).init s) : ¬ s.Deadlock := by
  rintro ⟨hblocked, -⟩
  obtain ⟨g, h⟩ := inv_reaches hreach
  have hload := load_reaches hreach
  -- each of the workers waits with a nonempty chunk of its own
  have hworkers : n ≤ ∑ w : Fin n, (s.pc (some w)).load part := by
    calc n = ∑ _w : Fin n, 1 := by simp
      _ ≤ ∑ w : Fin n, (s.pc (some w)).load part :=
          Finset.sum_le_sum fun w _ => busy_of_blocked h (hblocked (some w))
  rw [Sys.load, Fintype.sum_option] at hload
  omega

/-- Where no thread can go on and no task is queued, nobody waits: the task waited for
would be one that waits for a later one. -/
theorem not_blocked {input : List T} {g : Nat → List T} (h : Inv part input g s)
    (hstuck : ∀ i, s.step part i = none) (htasks : s.tasks_ = []) {f : Nat}
    (hf : f < s.committed) (hnone : s.futures f = none) : False := by
  -- the induction is on the number of futures that are committed later
  induction hk : s.committed - f using Nat.strongRecOn generalizing f with
  | ind k ih =>
      rcases h.pending f hf hnone with ⟨chunk, hmem⟩ | ⟨i, hi⟩
      · rw [htasks] at hmem
        cases hmem
      · rcases stuck_cases (hstuck i) with hblocked | ⟨hfree, -⟩ | ⟨value, hret⟩
        · obtain ⟨job, result, f', frames, hpc, hnone'⟩ := hblocked
          have hok := h.threads i
          rw [hpc] at hok hi
          obtain ⟨hf', hlt⟩ := hok.waits f' List.mem_cons_self
          have hlt := hlt f hi
          exact ih (s.committed - f') (by omega) hf' hnone' rfl
        · rw [hfree] at hi
          cases hi
        · rw [hret] at hi
          cases hi

/-- **Where no thread can go on and there is no deadlock, the call has returned.** -/
theorem returned_of_stuck {input : List T}
    (hreach : (system part n input).Reaches (system part n input).init s)
    (hstuck : (system part n input).Stuck s) (hlive : ¬ s.Deadlock) :
    s.Returned (quick_sort part input) := by
  obtain ⟨g, h⟩ := inv_reaches hreach
  have hcaller := (h.threads none).caller.mpr rfl
  rcases stuck_cases (hstuck none) with hblocked | ⟨hfree, -⟩ | ⟨value, hret⟩
  · exfalso
    by_cases htasks : s.tasks_ = []
    · obtain ⟨job, result, f, frames, hpc, hnone⟩ := hblocked
      have hok := h.threads none
      rw [hpc] at hok
      exact not_blocked h hstuck htasks (hok.waits f List.mem_cons_self).1 hnone
    · -- no worker is free, so all of them wait
      refine hlive ⟨fun i => ?_, htasks⟩
      rcases stuck_cases (hstuck i) with hi | ⟨-, hempty⟩ | ⟨value, hret⟩
      · exact hi
      · exact absurd hempty htasks
      · have hnone : i = none := by
          apply (h.threads i).caller.mp
          rw [hret]
          rfl
        rw [hnone]
        exact hblocked
  · rw [hfree] at hcaller
    cases hcaller
  · have hvalue := (h.threads none).value none hcaller
    rw [hret] at hvalue
    rw [Sys.Returned, hret, ← show value = quick_sort part input from hvalue]

end Steps

end BoostNet.PoolQuickSort
