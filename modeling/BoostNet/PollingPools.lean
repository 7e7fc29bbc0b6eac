/-
The pools of Concurrent/day22-ThreadPool whose workers poll: `simple_thread_pool` and
`future_thread_pool`, which have one queue, and `steal_thread_pool`, which has one for each worker
and lets a worker that finds its own empty steal from the others.

Any threads submit, tasks among them, and one thread destroys the pool at any moment; by then
nobody is in `submit` any more. A task is the number of its promise. An operation of a queue is one
step, as it is for whoever uses the queue of `BoostNet.StealQueue`.

A task ends without waiting for another task of its pool. That is an assumption: a task of
`steal_thread_quick_sort` waits for one it has submitted itself. Such tasks can fill all the workers
while what they wait for is in a queue, and then the destructor joins for ever.

* `exactly_once`: a task that has been made is in one place, and runs at most once. No promise is
  broken before the destructor destroys the queues.
* `shutdown`: once the destructor has begun, every run is finite, and where it ends the destructor
  has returned and every future is ready or broken. Workers that wait for a notification may sleep
  through it; these look at `done` again.
-/
import BoostNet.Lts
import BoostNet.Threads
import Mathlib.Algebra.Order.BigOperators.Group.Finset

set_option autoImplicit false

namespace BoostNet.PollingPools

/-! ## The pools -/

/-- What the pools differ in: which queue is a worker's own, whether `submit` goes round the
queues, and whether the workers steal. -/
structure Kind where
  workers : Nat
  queues : Nat
  pos : 0 < queues
  home : Fin workers → Fin queues
  robin : Bool
  steals : Bool

/-- With `n` threads. The two differ in what `submit` returns. -/
def simple_thread_pool (n : Nat) : Kind where
  workers := n
  queues := 1
  pos := Nat.one_pos
  home _ := 0
  robin := false
  steals := false

def future_thread_pool (n : Nat) : Kind := simple_thread_pool n

/-- Without threads `submit` divides by zero. -/
def steal_thread_pool (n : Nat) (pos : 0 < n) : Kind where
  workers := n
  queues := n
  pos
  home := id
  robin := true
  steals := true

inductive Future where
  | pending
  | ready
  | broken
  deriving DecidableEq

/-- Where a worker is in `worker_thread`; `i` is the index of the loop over the queues. -/
inductive Worker where
  | load_done
  | try_pop
  | steal (i : Nat)
  | run (task : Nat)
  | exited
  deriving DecidableEq

/-- Where a thread is in `submit`. -/
inductive Submit (k : Kind) where
  | idle
  | load_index
  | store_index (index : Fin k.queues)
  | make (index : Fin k.queues)
  | push (index : Fin k.queues) (task : Nat)
  deriving DecidableEq

/-- Where the destructor is. At its end the queues are destroyed. -/
inductive Destructor where
  | none
  | exit (i : Nat)
  | join (i : Nat)
  | done
  deriving DecidableEq

structure St (k : Kind) (ι : Type*) where
  done : Bool
  atm_index : Fin k.queues
  ques : Fin k.queues → List Nat
  worker : Fin k.workers → Worker
  submit : ι → Submit k
  destructor : Destructor
  made : Nat
  futures : Nat → Option Future
  /-- The tasks in the order in which they have ended. -/
  ran : List Nat

def St.init {k : Kind} {ι : Type*} : St k ι where
  done := false
  atm_index := ⟨0, k.pos⟩
  ques _ := []
  worker _ := .load_done
  submit _ := .idle
  destructor := .none
  made := 0
  futures _ := .none
  ran := []

inductive Act (k : Kind) (ι : Type*) where
  /-- `submit` is called. -/
  | submit (i : ι)
  | submitter (i : ι)
  | worker (w : Fin k.workers)
  /-- The destructor is called. -/
  | destroy
  | destructor

variable {k : Kind} {ι : Type*}

def St.work (s : St k ι) (w : Fin k.workers) (p : Worker) : St k ι :=
  { s with worker := Function.update s.worker w p }

/-- A queue is left with `rest`. -/
def St.take (s : St k ι) (q : Fin k.queues) (rest : List Nat) : St k ι :=
  { s with ques := Function.update s.ques q rest }

def worker_thread (s : St k ι) (w : Fin k.workers) : Option (St k ι) :=
  match s.worker w with
  | .load_done => some (s.work w (if s.done then .exited else .try_pop))
  | .try_pop =>
      match s.ques (k.home w) with
      | task :: rest => some ((s.take (k.home w) rest).work w (.run task))
      | [] => some (s.work w (if k.steals then .steal 0 else .load_done))
  | .steal i =>
      if h : i < k.queues then
        -- The own queue has just been tried.
        if (⟨i, h⟩ : Fin k.queues) = k.home w then some (s.work w (.steal (i + 1)))
        else
          match (s.ques ⟨i, h⟩).getLast? with
          | some task => some ((s.take ⟨i, h⟩ (s.ques ⟨i, h⟩).dropLast).work w (.run task))
          | none => some (s.work w (.steal (i + 1)))
      else some (s.work w .load_done)
  | .run task => some { s.work w .load_done with
      futures := Function.update s.futures task (some .ready)
      ran := s.ran ++ [task] }
  | .exited => none

variable [DecidableEq ι]

def St.call (s : St k ι) (i : ι) (p : Submit k) : St k ι :=
  { s with submit := Function.update s.submit i p }

def submit (s : St k ι) (i : ι) : Option (St k ι) :=
  match s.submit i with
  | .idle => none
  | .load_index =>
      some (s.call i (.store_index ⟨(s.atm_index.val + 1) % k.queues, Nat.mod_lt _ k.pos⟩))
  | .store_index index => some { s.call i (.make index) with atm_index := index }
  | .make index => some { s.call i (.push index s.made) with
      made := s.made + 1
      futures := Function.update s.futures s.made (some .pending) }
  | .push index task => some { s.call i .idle with
      ques := Function.update s.ques index (s.ques index ++ [task]) }

omit [DecidableEq ι] in
/-- A promise is broken that is destroyed with its task. -/
def St.destroyed (s : St k ι) : St k ι :=
  { s with
    ques := fun _ => []
    destructor := .done
    futures := fun task => if ∃ q, task ∈ s.ques q then some .broken else s.futures task }

omit [DecidableEq ι] in
def St.nextDestructor [Fintype ι] (s : St k ι) : Option (St k ι) :=
  match s.destructor with
  | .none | .done => none
  | .exit i => some { s with destructor := if i < k.queues then .exit (i + 1) else .join 0 }
  | .join i =>
      if h : i < k.workers then
        if s.worker ⟨i, h⟩ = .exited then some { s with destructor := .join (i + 1) } else none
      else if ∀ i, s.submit i = .idle then some s.destroyed else none

def lts (k : Kind) (ι : Type*) [Fintype ι] [DecidableEq ι] : Lts (St k ι) (Act k ι) where
  init := .init
  step s a :=
    match a with
    | .submit i =>
        match s.submit i, s.destructor with
        | _, .done => none
        | .idle, _ => some (s.call i (if k.robin then .load_index else .make ⟨0, k.pos⟩))
        | _, _ => none
    | .submitter i => submit s i
    | .worker w => worker_thread s w
    | .destroy =>
        match s.destructor with
        | .none => some { s with
            done := true
            destructor := if k.steals then .exit 0 else .join 0 }
        | _ => none
    | .destructor => s.nextDestructor

/-! ## Where a task is -/

/-- How often the worker has the task in hand. -/
def Worker.holds (task : Nat) : Worker → Nat
  | .run task' => if task' = task then 1 else 0
  | _ => 0

def Submit.holds (task : Nat) : Submit k → Nat
  | .push _ task' => if task' = task then 1 else 0
  | _ => 0

variable [Fintype ι] {s s' : St k ι}

omit [DecidableEq ι] in
/-- In how many places a task is: in a queue, with a worker, or with a thread that submits it. -/
def St.places (s : St k ι) (task : Nat) : Nat :=
  ∑ q, (s.ques q).count task + ∑ w, (s.worker w).holds task + ∑ i, (s.submit i).holds task

/-- The future is one of these, that of a task that has not run and of one that has. -/
def isPending : Option Future → Nat
  | some .pending => 1
  | _ => 0

def isReady : Option Future → Nat
  | some .ready => 1
  | _ => 0

omit [DecidableEq ι] in
/-- What has become of the tasks: one that has been made is in one place, has run, or is
broken. -/
structure Inv (s : St k ι) : Prop where
  placed : ∀ task, s.places task = isPending (s.futures task)
  fresh : ∀ task, s.futures task = none ↔ s.made ≤ task
  ran : ∀ task, s.ran.count task = isReady (s.futures task)
  closing : s.destructor ≠ .none → s.done = true
  broken : ∀ task, s.futures task = some .broken → s.destructor = .done
  joined : ∀ n, s.destructor = .join n → ∀ w, w.val < n → s.worker w = .exited
  gone : s.destructor = .done → (∀ w, s.worker w = .exited) ∧ (∀ i, s.submit i = .idle) ∧
    ∀ q, s.ques q = []

omit [DecidableEq ι] in
/-- No task has been made. -/
theorem Inv.init : Inv (St.init : St k ι) where
  placed task := by
    simp [St.places, St.init, Worker.holds, Submit.holds, isPending]
  fresh task := iff_of_true rfl (Nat.zero_le task)
  ran _ := rfl
  closing h := absurd rfl h
  broken _ h := by cases h
  joined n h := by cases h
  gone h := by cases h

omit [DecidableEq ι] in
/-- Until the queues are destroyed every task that has been made will run. -/
theorem Inv.not_broken (hi : Inv s) (hdone : s.destructor ≠ .done) (task : Nat) :
    s.futures task ≠ some .broken :=
  fun hbroken => hdone (hi.broken task hbroken)

section Places

variable {w : Fin k.workers} {p : Worker} {q : Fin k.queues} {task t : Nat} {i : ι}
  {c : Submit k}

omit [DecidableEq ι] in
/-- What a worker puts down and what it takes up. -/
theorem places_work : (s.work w p).places t + (s.worker w).holds t = s.places t + p.holds t := by
  have hsum := sum_update (Worker.holds t) s.worker p (Finset.mem_univ w)
  simp only [St.places, St.work]
  omega

/-- The same for a thread in `submit`. -/
theorem places_call : (s.call i c).places t + (s.submit i).holds t = s.places t + c.holds t := by
  have hsum := sum_update (Submit.holds t) s.submit c (Finset.mem_univ i)
  simp only [St.places, St.call]
  omega

omit [DecidableEq ι] in
/-- And for a queue. -/
theorem places_take (rest : List Nat) :
    (s.take q rest).places t + (s.ques q).count t = s.places t + rest.count t := by
  have hsum := sum_update (List.count t) s.ques rest (Finset.mem_univ q)
  simp only [St.places, St.take]
  omega

theorem count_singleton : [task].count t = (Worker.run task).holds t := by
  rw [Worker.holds, List.count_singleton]
  exact if_congr beq_iff_eq rfl rfl

end Places

/-! ## Steps -/

section Steps

variable {w : Fin k.workers} {p : Worker} {q : Fin k.queues} {task : Nat} {rest : List Nat} {i : ι}
  {c : Submit k}

omit [DecidableEq ι] in
/-- A worker goes on with the same in hand. -/
theorem Inv.work (hi : Inv s) (hw : s.worker w ≠ .exited)
    (hholds : ∀ t, p.holds t = (s.worker w).holds t) : Inv (s.work w p) where
  placed t := by
    have hplaces := places_work (s := s) (w := w) (p := p) (t := t)
    have hsame := hi.placed t
    rw [hholds t] at hplaces
    exact (Nat.add_right_cancel hplaces).trans hsame
  fresh := hi.fresh
  ran := hi.ran
  closing := hi.closing
  broken := hi.broken
  joined n hn w' hw' := by
    have hne : w' ≠ w := by
      rintro rfl
      exact hw (hi.joined n hn w' hw')
    exact (Function.update_of_ne hne ..).trans (hi.joined n hn w' hw')
  gone h := absurd ((hi.gone h).1 w) hw

omit [DecidableEq ι] in
/-- A worker takes a task from a queue. -/
theorem Inv.take (hi : Inv s) (hw : s.worker w ≠ .exited) (hholds : ∀ t, (s.worker w).holds t = 0)
    (hques : ∀ t, (s.ques q).count t = rest.count t + [task].count t) :
    Inv ((s.take q rest).work w (.run task)) where
  placed t := by
    have hwork := places_work (s := s.take q rest) (w := w) (p := .run task) (t := t)
    have htake := places_take (s := s) (q := q) (t := t) rest
    have hsame := hi.placed t
    rw [hques t, count_singleton] at htake
    have hzero : ((s.take q rest).worker w).holds t = 0 := hholds t
    have hfutures : ((s.take q rest).work w (.run task)).futures = s.futures := rfl
    rw [hfutures]
    omega
  fresh := hi.fresh
  ran := hi.ran
  closing := hi.closing
  broken := hi.broken
  joined n hn w' hw' := by
    have hne : w' ≠ w := by
      rintro rfl
      exact hw (hi.joined n hn w' hw')
    exact (Function.update_of_ne hne ..).trans (hi.joined n hn w' hw')
  gone h := absurd ((hi.gone h).1 w) hw

omit [DecidableEq ι] in
/-- A worker has run its task. -/
theorem Inv.run (hi : Inv s) (hw : s.worker w = .run task) :
    Inv { s.work w .load_done with
      futures := Function.update s.futures task (some .ready)
      ran := s.ran ++ [task] } := by
  have hpending : s.places task = 1 ∧ s.futures task = some .pending := by
    have hle : (s.worker w).holds task ≤ s.places task := by
      have hsum := Finset.single_le_sum (f := fun w => (s.worker w).holds task)
        (fun _ _ => Nat.zero_le _) (Finset.mem_univ w)
      simp only [St.places]
      omega
    have hplaced := hi.placed task
    rw [hw, Worker.holds, if_pos rfl] at hle
    unfold isPending at hplaced
    split at hplaced
    next h => exact ⟨hplaced, h⟩
    next => omega
  refine ⟨fun t => ?_, fun t => ?_, fun t => ?_, hi.closing, fun t ht => ?_,
    fun n hn w' hw' => ?_, fun h => ?_⟩
  · have hwork := places_work (s := s) (w := w) (p := .load_done) (t := t)
    have hplaced := hi.placed t
    rw [hw] at hwork
    show (s.work w .load_done).places t = _
    dsimp only
    by_cases ht : t = task
    · rw [ht] at hwork ⊢
      rw [Function.update_self]
      have hone : (Worker.run task).holds task = 1 := if_pos rfl
      have hzero : Worker.load_done.holds task = 0 := rfl
      show _ = 0
      omega
    · have hzero : (Worker.run task).holds t = 0 := if_neg (Ne.symm ht)
      have hzero' : Worker.load_done.holds t = 0 := rfl
      rw [Function.update_of_ne ht, ← hplaced]
      omega
  · dsimp only
    by_cases ht : t = task
    · rw [ht, Function.update_self]
      refine iff_of_false (Option.some_ne_none _) fun hle => ?_
      have hnone := (hi.fresh task).mpr hle
      rw [hpending.2] at hnone
      exact Option.some_ne_none _ hnone
    · rw [Function.update_of_ne ht]
      exact hi.fresh t
  · dsimp only
    rw [List.count_append, hi.ran t, count_singleton]
    by_cases ht : t = task
    · rw [ht, Function.update_self, hpending.2]
      exact (Nat.zero_add _).trans (if_pos rfl)
    · rw [Function.update_of_ne ht]
      exact congrArg (_ + ·) (if_neg (Ne.symm ht))
  · rcases eq_or_ne t task with rfl | hne
    · cases (Function.update_self ..).symm.trans ht
    · exact hi.broken t ((Function.update_of_ne hne ..).symm.trans ht)
  · have hne : w' ≠ w := by
      rintro rfl
      have hexited := hi.joined n hn w' hw'
      rw [hw] at hexited
      cases hexited
    exact (Function.update_of_ne hne ..).trans (hi.joined n hn w' hw')
  · have hexited := (hi.gone h).1 w
    rw [hw] at hexited
    cases hexited

omit [DecidableEq ι] in
/-- A turn of the loop of `worker_thread`: it looks at `done`, tries its own queue, then those of
the others where it steals, and runs what it has found. -/
theorem Inv.worker_step (hi : Inv s) (h : worker_thread s w = some s') : Inv s' := by
  unfold worker_thread at h
  split at h
  -- `while (!done)`
  next hw =>
    obtain rfl := Option.some.inj h
    by_cases hdone : s.done = true
    · rw [if_pos hdone]
      exact hi.work (by rw [hw]; decide) fun t => by rw [hw]; rfl
    · rw [if_neg hdone]
      exact hi.work (by rw [hw]; decide) fun t => by rw [hw]; rfl
  -- The own queue, and then those of the others.
  next hw =>
    split at h
    next task rest hques =>
      obtain rfl := Option.some.inj h
      refine hi.take (by rw [hw]; decide) (fun t => by rw [hw]; rfl) fun t => ?_
      rw [hques, ← List.singleton_append, List.count_append, Nat.add_comm]
    next =>
      obtain rfl := Option.some.inj h
      split
      · exact hi.work (by rw [hw]; decide) fun t => by rw [hw]; rfl
      · exact hi.work (by rw [hw]; decide) fun t => by rw [hw]; rfl
  next j hw =>
    have hexited : s.worker w ≠ .exited := by
      rw [hw]
      exact Worker.noConfusion
    split at h
    next hj =>
      split at h
      next =>
        obtain rfl := Option.some.inj h
        exact hi.work hexited fun t => by rw [hw]; rfl
      next =>
        split at h
        next task hlast =>
          obtain rfl := Option.some.inj h
          refine hi.take hexited (fun t => by rw [hw]; rfl) fun t => ?_
          rw [← List.count_append, List.dropLast_append_getLast? task hlast]
        next =>
          obtain rfl := Option.some.inj h
          exact hi.work hexited fun t => by rw [hw]; rfl
    next =>
      obtain rfl := Option.some.inj h
      exact hi.work hexited fun t => by rw [hw]; rfl
  next task hw =>
    obtain rfl := Option.some.inj h
    exact hi.run hw
  next => cases h

/-- A thread goes on in `submit` with no task in hand. -/
theorem Inv.call (hi : Inv s) (hsubmit : s.destructor ≠ .done)
    (hholds : ∀ t, c.holds t = (s.submit i).holds t) : Inv (s.call i c) where
  placed t := by
    have hplaces := places_call (s := s) (i := i) (c := c) (t := t)
    rw [hholds t] at hplaces
    exact (Nat.add_right_cancel hplaces).trans (hi.placed t)
  fresh := hi.fresh
  ran := hi.ran
  closing := hi.closing
  broken := hi.broken
  joined := hi.joined
  gone h := absurd h hsubmit

/-- A step of `submit`. The promise is made here, and the task goes from the caller's hands into a
queue. -/
theorem Inv.submit_step (hi : Inv s) (h : submit s i = some s') : Inv s' := by
  have hdone : s.submit i ≠ .idle → s.destructor ≠ .done :=
    fun hne hdone => hne ((hi.gone hdone).2.1 i)
  unfold submit at h
  split at h
  next => cases h
  next hc =>
    obtain rfl := Option.some.inj h
    exact hi.call (hdone (by rw [hc]; intro h; cases h)) fun t => by rw [hc]; rfl
  next index hc =>
    obtain rfl := Option.some.inj h
    have hcall := hi.call (i := i) (c := .make index)
      (hdone (by rw [hc]; intro h; cases h)) fun t => by rw [hc]; rfl
    exact ⟨hcall.placed, hcall.fresh, hcall.ran, hcall.closing, hcall.broken, hcall.joined,
      hcall.gone⟩
  -- The new task is in the hand of the thread, and its future is pending.
  next index hc =>
    obtain rfl := Option.some.inj h
    have hfresh : s.futures s.made = none := (hi.fresh s.made).mpr le_rfl
    refine ⟨fun t => ?_, fun t => ?_, fun t => ?_, hi.closing, fun t ht => ?_, hi.joined,
      fun h => ?_⟩
    · have hcall := places_call (s := s) (i := i) (c := .push index s.made) (t := t)
      have hplaced := hi.placed t
      rw [hc] at hcall
      show (s.call i (.push index s.made)).places t = _
      dsimp only
      by_cases ht : t = s.made
      · rw [ht] at hcall hplaced ⊢
        rw [hfresh] at hplaced
        rw [Function.update_self]
        have hone : (Submit.push index s.made).holds s.made = 1 := if_pos rfl
        have hzero : (Submit.make index).holds s.made = 0 := rfl
        have hnone : isPending none = 0 := rfl
        show _ = 1
        omega
      · have hzero : (Submit.push index s.made).holds t = 0 := if_neg (Ne.symm ht)
        have hzero' : (Submit.make index).holds t = 0 := rfl
        rw [Function.update_of_ne ht, ← hplaced]
        omega
    · dsimp only
      by_cases ht : t = s.made
      · rw [ht, Function.update_self]
        exact iff_of_false (Option.some_ne_none _) (Nat.not_succ_le_self _)
      · rw [Function.update_of_ne ht, hi.fresh t]
        omega
    · dsimp only
      by_cases ht : t = s.made
      · have hran := hi.ran s.made
        rw [hfresh] at hran
        rw [ht, Function.update_self]
        exact hran
      · rw [Function.update_of_ne ht]
        exact hi.ran t
    · rcases eq_or_ne t s.made with rfl | hne
      · cases (Function.update_self ..).symm.trans ht
      · exact hi.broken t ((Function.update_of_ne hne ..).symm.trans ht)
    · exact absurd h (hdone (by rw [hc]; intro h; cases h))
  -- It goes from the hand into the queue.
  next index task hc =>
    obtain rfl := Option.some.inj h
    refine ⟨fun t => ?_, hi.fresh, hi.ran, hi.closing, hi.broken, hi.joined, fun h => ?_⟩
    · have hcall := places_call (s := s) (i := i) (c := .idle) (t := t)
      have hques := places_take (s := s.call i .idle) (q := index) (t := t) (s.ques index ++ [task])
      rw [List.count_append] at hques
      rw [hc] at hcall
      have hzero : (Submit.idle : Submit k).holds t = 0 := rfl
      have hsame : (s.call i .idle).ques index = s.ques index := rfl
      have hholds : (Submit.push index task).holds t = [task].count t := count_singleton.symm
      have hplaced := hi.placed t
      rw [hsame] at hques
      apply Nat.add_right_cancel (m := (s.ques index).count t)
      refine hques.trans ?_
      show _ = isPending (s.futures t) + _
      omega
    · exact absurd h (hdone (by rw [hc]; intro h; cases h))

omit [DecidableEq ι] in
/-- When the destructor is through, all tasks that have not run are in the queues. -/
theorem Inv.destroy (hi : Inv s) (hworkers : ∀ w, s.worker w = .exited)
    (hsubmit : ∀ i, s.submit i = .idle) (hdone : s.done = true) : Inv s.destroyed := by
  have hwork (t : Nat) : ∑ w, (s.worker w).holds t = 0 :=
    Finset.sum_eq_zero fun w _ => by rw [hworkers w]; rfl
  have hcall (t : Nat) : ∑ i, (s.submit i).holds t = 0 :=
    Finset.sum_eq_zero fun i _ => by rw [hsubmit i]; rfl
  have hques (t : Nat) (hmem : ∃ q, t ∈ s.ques q) : s.futures t = some .pending := by
    obtain ⟨q, hq⟩ := hmem
    have hle := Finset.single_le_sum (f := fun q => (s.ques q).count t)
      (fun _ _ => Nat.zero_le _) (Finset.mem_univ q)
    have hpos := List.count_pos_iff.mpr hq
    have hplaced := hi.placed t
    rw [St.places, hwork, hcall] at hplaced
    unfold isPending at hplaced
    split at hplaced
    next h => exact h
    next => omega
  refine ⟨fun t => ?_, fun t => ?_, fun t => ?_, fun _ => hdone, fun _ _ => rfl, fun n hn => ?_,
    fun _ => ⟨hworkers, hsubmit, fun _ => rfl⟩⟩
  · have hnone : s.destroyed.places t = 0 := by
      simp only [St.places, St.destroyed, hwork, hcall, List.count_nil, Finset.sum_const_zero]
    rw [hnone, St.destroyed]
    dsimp only
    split
    next => rfl
    next hmem =>
      have hzero : ∑ q, (s.ques q).count t = 0 :=
        Finset.sum_eq_zero fun q _ => List.count_eq_zero.mpr fun hq => hmem ⟨q, hq⟩
      rw [← hi.placed t, St.places, hwork, hcall, hzero]
  · rw [St.destroyed]
    dsimp only
    split
    next hmem =>
      refine iff_of_false (Option.some_ne_none _) fun hle => ?_
      have hnone := (hi.fresh t).mpr hle
      rw [hques t hmem] at hnone
      exact Option.some_ne_none _ hnone
    next => exact hi.fresh t
  · rw [St.destroyed]
    dsimp only
    split
    next hmem =>
      rw [hi.ran t, hques t hmem]
      rfl
    next => exact hi.ran t
  · cases hn

omit [DecidableEq ι] in
/-- A step of the destructor. Only its last one drops tasks, those that are left in the queues, and
by then no worker has any in hand. -/
theorem Inv.destructor_step (hi : Inv s) (h : s.nextDestructor = some s') : Inv s' := by
  unfold St.nextDestructor at h
  split at h
  next => cases h
  next => cases h
  next n hn =>
    obtain rfl := Option.some.inj h
    have hdone := hi.closing (by rw [hn]; exact Destructor.noConfusion)
    have hnone := hi.not_broken (by rw [hn]; exact Destructor.noConfusion)
    refine ⟨hi.placed, hi.fresh, hi.ran, fun _ => hdone, fun t ht => absurd ht (hnone t),
      fun m hm w' hw' => ?_, fun h => ?_⟩
    · dsimp only at hm
      split at hm
      next => cases hm
      next => cases hm; exact absurd hw' (Nat.not_lt_zero _)
    · dsimp only at h
      split at h <;> cases h
  next n hn =>
    have hdone := hi.closing (by rw [hn]; exact Destructor.noConfusion)
    split at h
    next hlt =>
      obtain ⟨hexited, h⟩ := Option.ite_none_right_eq_some.mp h
      obtain rfl := Option.some.inj h
      have hnone := hi.not_broken (by rw [hn]; exact Destructor.noConfusion)
      refine ⟨hi.placed, hi.fresh, hi.ran, fun _ => hdone, fun t ht => absurd ht (hnone t),
        fun m hm w' hw' => ?_, fun h => ?_⟩
      · cases hm
        by_cases hn' : w'.val = n
        · have hw : w' = ⟨n, hlt⟩ := Fin.ext hn'
          rw [hw]
          exact hexited
        · exact hi.joined n hn w' (by omega)
      · cases h
    next hge =>
      obtain ⟨hidle, h⟩ := Option.ite_none_right_eq_some.mp h
      obtain rfl := Option.some.inj h
      refine hi.destroy (fun w => hi.joined n hn w ?_) hidle hdone
      exact w.isLt.trans_le (Nat.le_of_not_lt hge)

/-- Any step of any thread. -/
theorem Inv.step (s : St k ι) (a : Act k ι) (s' : St k ι) (hi : Inv s)
    (h : (lts k ι).step s a = some s') : Inv s' := by
  cases a with
  | submit i =>
      simp only [lts] at h
      split at h
      next => cases h
      next hc hne =>
        obtain rfl := Option.some.inj h
        refine hi.call hne fun t => ?_
        rw [hc]
        split <;> rfl
      next => cases h
  | submitter i => exact hi.submit_step h
  | worker w => exact hi.worker_step h
  | destroy =>
      simp only [lts] at h
      split at h
      next hn =>
        obtain rfl := Option.some.inj h
        have hnone := hi.not_broken (by rw [hn]; exact Destructor.noConfusion)
        refine ⟨hi.placed, hi.fresh, hi.ran, fun _ => rfl, fun t ht => absurd ht (hnone t),
          fun m hm w' hw' => ?_, fun h => ?_⟩
        · dsimp only at hm
          split at hm
          next => cases hm
          next => cases hm; exact absurd hw' (Nat.not_lt_zero _)
        · dsimp only at h
          split at h <;> cases h
      next => cases h
  | destructor => exact hi.destructor_step h

end Steps

/-! ## Tasks run once -/

omit [DecidableEq ι] in
/-- A task has run exactly where its future is ready, and then once; it is in one place exactly
while its future is pending. What is neither has gone with the queues. -/
structure Once (s : St k ι) : Prop where
  ran : ∀ task, s.ran.count task = isReady (s.futures task)
  placed : ∀ task, s.places task = isPending (s.futures task)
  made : ∀ task, s.futures task = none ↔ s.made ≤ task
  broken : ∀ task, s.futures task = some .broken → s.destructor = .done

/-- **Exactly once**: in every run of any of the pools, with any threads submitting, each task that
has been made is in one place or has run once, unless the destructor has dropped it. A queue hands a
task out by moving it, under its own lock, and what a worker has in hand is nowhere else until its
future is set. -/
theorem exactly_once (as : List (Act k ι)) : (lts k ι).Along Once (lts k ι).init as :=
  (lts k ι).along_of_inv (fun _ hi => ⟨Inv.ran hi, Inv.placed hi, Inv.fresh hi, Inv.broken hi⟩)
    Inv.step .init

/-! ## The destructor -/

/-- How many steps a worker takes at most until it has exited, when `done` is set. -/
def Worker.rank (queues : Nat) : Worker → Nat
  | .exited => 0
  | .load_done => 1
  | .run _ => 2
  | .steal i => 3 + (queues - i)
  | .try_pop => 4 + queues

def Submit.rank : Submit k → Nat
  | .idle => 0
  | .push _ _ => 1
  | .make _ => 2
  | .store_index _ => 3
  | .load_index => 4

def Destructor.rank (queues workers : Nat) : Destructor → Nat
  | .done => 0
  | .join i => 1 + (workers - i)
  | .exit i => 2 + workers + (queues - i)
  | .none => 3 + workers + queues

omit [DecidableEq ι] in
/-- How many steps there are at most until the destructor has returned. -/
def St.rank (s : St k ι) : Nat :=
  ∑ w, (s.worker w).rank k.queues + ∑ i, (s.submit i).rank +
    s.destructor.rank k.queues k.workers

/-- What a call of `submit` adds to that. -/
def Act.cost : Act k ι → Nat
  | .submit _ => 5
  | _ => 0

section Rank

variable {w : Fin k.workers} {p : Worker} {i : ι} {c : Submit k}

omit [DecidableEq ι] in
/-- A worker that comes nearer to its exit brings the end nearer. -/
theorem rank_work (hp : p.rank k.queues < (s.worker w).rank k.queues) :
    (s.work w p).rank < s.rank := by
  have hsum := sum_update (Worker.rank k.queues) s.worker p (Finset.mem_univ w)
  simp only [St.rank, St.work]
  omega

/-- So does a thread that comes nearer to the return of `submit`. -/
theorem rank_call : (s.call i c).rank + (s.submit i).rank = s.rank + c.rank := by
  have hsum := sum_update Submit.rank s.submit c (Finset.mem_univ i)
  simp only [St.rank, St.call]
  omega

omit [DecidableEq ι] in
/-- With `done` set a worker makes one round at most: it runs the task it has or finds, and then
sees `done`. -/
theorem rank_worker_step (hdone : s.done = true) (h : worker_thread s w = some s') :
    s'.rank < s.rank := by
  unfold worker_thread at h
  split at h
  next hw =>
    obtain rfl := Option.some.inj h
    rw [if_pos hdone]
    exact rank_work (by rw [hw]; exact Nat.one_pos)
  next hw =>
    split at h
    next =>
      obtain rfl := Option.some.inj h
      exact rank_work (s := s.take _ _) (by
        show Worker.rank k.queues _ < (s.worker w).rank k.queues
        rw [hw, Worker.rank, Worker.rank]
        omega)
    next =>
      obtain rfl := Option.some.inj h
      apply rank_work
      rw [hw]
      split
      · rw [Worker.rank, Worker.rank]
        omega
      · rw [Worker.rank, Worker.rank]
        omega
  next j hw =>
    have hnext (hj : j < k.queues) :
        (Worker.steal (j + 1)).rank k.queues < (s.worker w).rank k.queues := by
      rw [hw, Worker.rank, Worker.rank]
      omega
    split at h
    next hj =>
      split at h
      next =>
        obtain rfl := Option.some.inj h
        exact rank_work (hnext hj)
      next =>
        split at h
        next =>
          obtain rfl := Option.some.inj h
          exact rank_work (s := s.take _ _) (by
            show Worker.rank k.queues _ < (s.worker w).rank k.queues
            rw [hw, Worker.rank, Worker.rank]
            omega)
        next =>
          obtain rfl := Option.some.inj h
          exact rank_work (hnext hj)
    next =>
      obtain rfl := Option.some.inj h
      apply rank_work
      rw [hw, Worker.rank, Worker.rank]
      omega
  next task hw =>
    obtain rfl := Option.some.inj h
    exact rank_work (s := s) (w := w) (p := .load_done) (by rw [hw]; exact Nat.one_lt_two)
  next => cases h

/-- `submit` has no loop. -/
theorem rank_submit_step (h : submit s i = some s') : s'.rank < s.rank := by
  unfold submit at h
  split at h
  next => cases h
  next hc =>
    obtain rfl := Option.some.inj h
    have hcall := rank_call (s := s) (i := i)
      (c := .store_index ⟨(s.atm_index.val + 1) % k.queues, Nat.mod_lt _ k.pos⟩)
    rw [hc] at hcall
    simp only [Submit.rank] at hcall
    omega
  next index hc =>
    obtain rfl := Option.some.inj h
    have hcall := rank_call (s := s) (i := i) (c := .make index)
    rw [hc] at hcall
    simp only [Submit.rank] at hcall
    show (s.call i (.make index)).rank < _
    omega
  next index hc =>
    obtain rfl := Option.some.inj h
    have hcall := rank_call (s := s) (i := i) (c := .push index s.made)
    rw [hc] at hcall
    simp only [Submit.rank] at hcall
    show (s.call i (.push index s.made)).rank < _
    omega
  next index task hc =>
    obtain rfl := Option.some.inj h
    have hcall := rank_call (s := s) (i := i) (c := .idle)
    rw [hc] at hcall
    simp only [Submit.rank] at hcall
    show (s.call i .idle).rank < _
    omega

omit [DecidableEq ι] in
/-- The destructor goes through the queues and the threads once. -/
theorem rank_destructor_step (h : s.nextDestructor = some s') : s'.rank < s.rank := by
  unfold St.nextDestructor at h
  split at h
  next => cases h
  next => cases h
  next n hn =>
    obtain rfl := Option.some.inj h
    simp only [St.rank]
    rw [hn]
    split
    · simp only [Destructor.rank]
      omega
    · simp only [Destructor.rank]
      omega
  next n hn =>
    split at h
    next =>
      obtain ⟨-, h⟩ := Option.ite_none_right_eq_some.mp h
      obtain rfl := Option.some.inj h
      simp only [St.rank]
      rw [hn]
      simp only [Destructor.rank]
      omega
    next =>
      obtain ⟨-, h⟩ := Option.ite_none_right_eq_some.mp h
      obtain rfl := Option.some.inj h
      simp only [St.rank, St.destroyed]
      rw [hn]
      simp only [Destructor.rank]
      omega

omit [DecidableEq ι] [Fintype ι] in
/-- Workers do not touch the destructor. -/
theorem destructor_worker_step (h : worker_thread s w = some s') :
    s'.destructor = s.destructor := by
  unfold worker_thread at h
  repeat' split at h
  all_goals
    cases h
    try rfl

omit [Fintype ι] in
theorem destructor_submit_step (h : submit s i = some s') : s'.destructor = s.destructor := by
  unfold submit at h
  split at h
  all_goals
    cases h
    try rfl

omit [DecidableEq ι] in
/-- Once it has begun it goes on to its end. -/
theorem destructor_destructor_step (h : s.nextDestructor = some s') :
    s'.destructor ≠ .none := by
  unfold St.nextDestructor at h
  split at h
  next => cases h
  next => cases h
  next =>
    obtain rfl := Option.some.inj h
    dsimp only
    split
    · exact Destructor.noConfusion
    · exact Destructor.noConfusion
  next =>
    split at h
    next =>
      obtain ⟨-, h⟩ := Option.ite_none_right_eq_some.mp h
      obtain rfl := Option.some.inj h
      exact Destructor.noConfusion
    next =>
      obtain ⟨-, h⟩ := Option.ite_none_right_eq_some.mp h
      obtain rfl := Option.some.inj h
      exact Destructor.noConfusion

/-- Every step after the destructor has begun brings the end nearer; only a new call of `submit`
adds to what is left. -/
theorem rank_step {a : Act k ι} (hi : Inv s) (hbegun : s.destructor ≠ .none)
    (h : (lts k ι).step s a = some s') : s'.destructor ≠ .none ∧ s'.rank < s.rank + a.cost := by
  cases a with
  | submit i =>
      simp only [lts] at h
      split at h
      next => cases h
      next hc hne =>
        obtain rfl := Option.some.inj h
        refine ⟨hbegun, ?_⟩
        have hcall := rank_call (s := s) (i := i)
          (c := if k.robin then .load_index else .make ⟨0, k.pos⟩)
        have hle :
            (if k.robin then Submit.load_index else .make ⟨0, k.pos⟩ : Submit k).rank ≤ 4 := by
          split
          · exact le_rfl
          · exact (by decide : 2 ≤ 4)
        rw [Act.cost]
        omega
      next => cases h
  | submitter i =>
      exact ⟨destructor_submit_step h ▸ hbegun, rank_submit_step h⟩
  | worker w =>
      exact ⟨destructor_worker_step h ▸ hbegun, rank_worker_step (hi.closing hbegun) h⟩
  | destroy =>
      simp only [lts] at h
      cases h
  | destructor => exact ⟨destructor_destructor_step h, rank_destructor_step h⟩

end Rank

omit [DecidableEq ι] [Fintype ι] in
/-- A worker that has not exited has a next step. -/
theorem exited_of_stuck {w : Fin k.workers} (h : worker_thread s w = none) :
    s.worker w = .exited := by
  unfold worker_thread at h
  repeat' split at h
  all_goals
    first
      | assumption
      | cases h

omit [Fintype ι] in
/-- A thread in `submit` always has a next step. -/
theorem idle_of_stuck {i : ι} (h : submit s i = none) : s.submit i = .idle := by
  unfold submit at h
  split at h
  all_goals
    first
      | assumption
      | cases h

/-- Where no thread can go on, unless by a new call of `submit`, the destructor has returned. -/
theorem returned (hbegun : s.destructor ≠ .none)
    (hstuck : ∀ a, (∀ i, a ≠ .submit i) → (lts k ι).step s a = none) : s.destructor = .done := by
  have hexited (w : Fin k.workers) : s.worker w = .exited :=
    exited_of_stuck (hstuck (.worker w) (by intro i h; cases h))
  have hidle (i : ι) : s.submit i = .idle :=
    idle_of_stuck (hstuck (.submitter i) (by intro i h; cases h))
  have hnext : s.nextDestructor = none := hstuck .destructor (by intro i h; cases h)
  unfold St.nextDestructor at hnext
  split at hnext
  next hn => exact absurd hn hbegun
  next hn => exact hn
  next => cases hnext
  next =>
    split at hnext
    next =>
      rw [if_pos (hexited _)] at hnext
      cases hnext
    next => cases hnext

/-- **Shutdown**: once the destructor has begun, a run is no longer than what is left to do and what
new calls of `submit` add. Where nothing is left to do, the destructor has returned and no future is
pending. The workers poll, and read `done` between two tasks: there is no condition variable at
which the end could be missed. -/
theorem shutdown {s u : St k ι} {as bs : List (Act k ι)} (hs : (lts k ι).exec .init as = some s)
    (hbegun : s.destructor ≠ .none) (h : (lts k ι).exec s bs = some u) :
    bs.length + u.rank ≤ s.rank + Lts.total Act.cost bs ∧
      ((∀ a, (∀ i, a ≠ .submit i) → (lts k ι).step u a = none) →
        u.destructor = .done ∧ ∀ task, u.futures task ≠ some .pending) := by
  have hi : Inv s := (lts k ι).exec_inv Inv.step .init hs
  have hstep : ∀ s a t, Inv s ∧ s.destructor ≠ .none → (lts k ι).step s a = some t →
      (Inv t ∧ t.destructor ≠ .none) ∧ t.rank < s.rank + a.cost := by
    rintro s a t ⟨hi, hbegun⟩ ht
    obtain ⟨hbegun', hrank⟩ := rank_step hi hbegun ht
    exact ⟨⟨hi.step s a t ht, hbegun'⟩, hrank⟩
  obtain ⟨hu, hbegun'⟩ := (lts k ι).exec_inv (P := fun s => Inv s ∧ s.destructor ≠ .none)
    (fun s a t hs ht => (hstep s a t hs ht).1) ⟨hi, hbegun⟩ h
  refine ⟨(lts k ι).length_le_of_cost St.rank Act.cost hstep ⟨hi, hbegun⟩ h, fun hstuck => ?_⟩
  have hdone := returned hbegun' hstuck
  refine ⟨hdone, fun task htask => ?_⟩
  obtain ⟨hexited, hidle, hques⟩ := hu.gone hdone
  have hplaced := hu.placed task
  rw [htask] at hplaced
  have hnone : u.places task = 0 := by
    have hwork : ∑ w, (u.worker w).holds task = 0 :=
      Finset.sum_eq_zero fun w _ => by rw [hexited w]; rfl
    have hcall : ∑ i, (u.submit i).holds task = 0 :=
      Finset.sum_eq_zero fun i _ => by rw [hidle i]; rfl
    have hcount : ∑ q, (u.ques q).count task = 0 :=
      Finset.sum_eq_zero fun q _ => by rw [hques q]; rfl
    rw [St.places, hwork, hcall, hcount]
  rw [hnone] at hplaced
  exact absurd hplaced (by decide)

/-- A task is submitted, and the destructor begins. -/
def dropping : St (simple_thread_pool 1) (Fin 1) :=
  ((lts (simple_thread_pool 1) (Fin 1)).exec .init
    [.submit 0, .submitter 0, .submitter 0, .destroy]).get rfl

/-- The worker has seen `done` first. -/
def dropped : St (simple_thread_pool 1) (Fin 1) :=
  ((lts (simple_thread_pool 1) (Fin 1)).exec dropping
    [.worker ⟨0, Nat.one_pos⟩, .destructor, .destructor]).get rfl

theorem shutdown_dropped : dropped.futures 0 = some .broken ∧
    3 + dropped.rank ≤ dropping.rank + 0 ∧
      ((∀ a, (∀ i, a ≠ .submit i) →
          (lts (simple_thread_pool 1) (Fin 1)).step dropped a = none) →
        dropped.destructor = .done ∧ ∀ task, dropped.futures task ≠ some .pending) := by
  have hs : (lts (simple_thread_pool 1) (Fin 1)).exec .init
      [.submit 0, .submitter 0, .submitter 0, .destroy] = some dropping := (Option.some_get _).symm
  have hu : (lts (simple_thread_pool 1) (Fin 1)).exec dropping
      [.worker ⟨0, Nat.one_pos⟩, .destructor, .destructor] = some dropped :=
    (Option.some_get _).symm
  exact ⟨rfl, shutdown hs (by intro h; cases h) hu⟩

end BoostNet.PollingPools
