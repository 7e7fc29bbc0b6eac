/-
`ThreadPool` of day22-ThreadPool: `commit`, the loop that `start` gives each thread of the
pool, and `stop`.

Any threads commit, the tasks that run in the pool among them, and `stop` runs at any
moment. `commit` pushes under `cv_mt_` and notifies one after it; `stop` sets `stop_` under
no mutex, notifies all and joins the pool. So it may notify after a worker has found its
predicate false and before the worker blocks; then `stop` joins a thread that sleeps for
good.

What is done under `cv_mt_` is one step, with the release of it where it is released, and
so is the test of the predicate, for `tasks_` does not change under the worker that holds
`cv_mt_`. A wait may end spuriously. What a task does, other than to commit, is left out;
`started` has the tasks in the order in which the pool starts them.

* `stop_no_hang`: `stop` does not join a blocked worker that nobody notifies, in any run in
  which each notification after the stop, if it is the last one in progress, wakes every
  worker that is asleep or about to be.
* `stop_hang`: `stop` between a worker's test and its wait.
-/
import BoostNet.CondVar
import BoostNet.Lts

set_option autoImplicit false

namespace BoostNet.ThreadPool

/-! ## The threads -/

/-- Who calls `commit`: a thread outside the pool, or a task. -/
inductive Caller where
  | outside
  | task
  deriving DecidableEq

/-- What a thread does next. -/
inductive Pc (ι T : Type*) where
  | idle
  -- `commit`
  | commit_load_stop (c : Caller) (task : T)
  | commit_push (c : Caller) (task : T)
  | commit_notify (c : Caller)
  -- a thread of the pool
  | load_stop
  | lock
  | predicate
  | block
  | blocked
  | woken
  | pop
  | thread_num_dec
  | task
  | thread_num_inc
  | exited
  -- `stop`
  | stop_store
  | stop_notify
  | join (rest : List ι)

variable {ι T : Type*}

/-- Where `commit` returns to. -/
def Caller.ret : Caller → Pc ι T
  | .outside => .idle
  | .task => .task

/-- A thread blocked on `cv_lock_` goes on by locking `cv_mt_` again. -/
def Pc.wake : Pc ι T → Option (Pc ι T)
  | .blocked => some .woken
  | _ => none

/-! ## The pool -/

structure Pool (ι T : Type*) where
  cv_mt_ : Option ι := none
  stop_ : Bool := false
  thread_num_ : Int
  tasks_ : List T := []
  started : List T := []
  pc : ι → Pc ι T

inductive Action (ι T : Type*) where
  | commit (i : ι) (task : T)
  | stop (i : ι)
  | step (i : ι)
  /-- `notify_one`, and whom it wakes. -/
  | notify (i : ι) (target : Option ι)
  | spurious (i : ι)

variable [DecidableEq ι]

def Pool.goto (s : Pool ι T) (i : ι) (p : Pc ι T) : Pool ι T :=
  { s with pc := Function.update s.pc i p }

/-- The next step of a thread. `pool_` are the threads of the pool. -/
def Pool.stepThread (pool_ : List ι) (s : Pool ι T) (i : ι) : Option (Pool ι T) :=
  match s.pc i with
  | .idle | .blocked | .exited | .commit_notify _ => none
  | .commit_load_stop c task => some (s.goto i (if s.stop_ then c.ret else .commit_push c task))
  | .commit_push c task =>
      if s.cv_mt_ = none then
        some { s.goto i (.commit_notify c) with tasks_ := s.tasks_ ++ [task] }
      else none
  | .load_stop => some (s.goto i (if s.stop_ then .exited else .lock))
  | .lock | .woken =>
      if s.cv_mt_ = none then some { s.goto i .predicate with cv_mt_ := some i } else none
  | .predicate => some (s.goto i (if s.stop_ ∨ s.tasks_ ≠ [] then .pop else .block))
  | .block => some { s.goto i .blocked with cv_mt_ := none }
  | .pop =>
      match s.tasks_ with
      | [] => some { s.goto i .exited with cv_mt_ := none }
      | task :: rest =>
          some { s.goto i .thread_num_dec with
            cv_mt_ := none
            tasks_ := rest
            started := s.started ++ [task] }
  | .thread_num_dec => some { s.goto i .task with thread_num_ := s.thread_num_ - 1 }
  | .task => some (s.goto i .thread_num_inc)
  | .thread_num_inc => some { s.goto i .load_stop with thread_num_ := s.thread_num_ + 1 }
  | .stop_store => some { s.goto i .stop_notify with stop_ := true }
  | .stop_notify => some { s with pc := Function.update (notifyAll Pc.wake s.pc) i (.join pool_) }
  | .join [] => some (s.goto i .idle)
  | .join (w :: rest) =>
      match s.pc w with
      | .exited => some (s.goto i (.join rest))
      | _ => none

variable [Fintype ι]

def Pool.step (pool_ : List ι) (s : Pool ι T) : Action ι T → Option (Pool ι T)
  | .commit i task =>
      match s.pc i with
      | .idle => some (s.goto i (.commit_load_stop .outside task))
      | .task => some (s.goto i (.commit_load_stop .task task))
      | _ => none
  | .stop i =>
      match s.pc i with
      | .idle => some (s.goto i .stop_store)
      | _ => none
  | .step i => s.stepThread pool_ i
  | .notify i target =>
      match s.pc i with
      | .commit_notify c =>
          (notifyOne Pc.wake s.pc target).map fun pc =>
            { s with pc := Function.update pc i c.ret }
      | _ => none
  | .spurious i => (s.pc i).wake.map (s.goto i)

/-- The threads of `pool_` have been started; the others have not called the pool. -/
def system (pool_ : List ι) (T : Type*) : Lts (Pool ι T) (Action ι T) where
  init := {
    thread_num_ := pool_.length
    pc := fun i => if i ∈ pool_ then .load_stop else .idle }
  step := Pool.step pool_

/-! ## No hang, and the condition -/

/-- A notification is to come from the thread, and that is its next step. -/
def Pc.notifying : Pc ι T → Bool
  | .commit_notify _ | .stop_notify => true
  | _ => false

omit [DecidableEq ι] [Fintype ι] in
/-- `stop` does not wait for a worker that is blocked while `stop_` is true and no
notification is to come. -/
def Pool.NoHang (s : Pool ι T) : Prop :=
  ∀ i w rest, s.pc i = .join (w :: rest) → s.pc w = .blocked → s.stop_ = true →
    ∃ j, (s.pc j).notifying = true

/-- A worker that does not look at `stop_` again before it sleeps. -/
def Pc.late : Pc ι T → Bool
  | .block | .blocked => true
  | _ => false

/-- When thread `i` notifies the threads in `reached` after the stop, and no other
notification is to come, it reaches every worker that is asleep or about to be. -/
def Pool.InTime (s : Pool ι T) (i : ι) (reached : ι → Prop) : Prop :=
  (s.pc i).notifying = true → (∀ j, j ≠ i → (s.pc j).notifying = false) → s.stop_ = true →
    ∀ j, (s.pc j).late = true → (s.pc j).wake.isSome = true ∧ reached j

/-- Every notification is in time. -/
def InTime (s : Pool ι T) : Action ι T → Prop
  | .step i => s.InTime i fun _ => True
  | .notify i target => s.InTime i fun j => target = some j
  | .commit _ _ | .stop _ | .spurious _ => True

instance (s : Pool ι T) (i : ι) (reached : ι → Prop) [DecidablePred reached] :
    Decidable (s.InTime i reached) := by
  unfold Pool.InTime
  infer_instance

instance (s : Pool ι T) : ∀ a : Action ι T, Decidable (InTime s a)
  | .step i => inferInstanceAs (Decidable (s.InTime i fun _ => True))
  | .notify i target => inferInstanceAs (Decidable (s.InTime i fun j => target = some j))
  | .commit _ _ | .stop _ | .spurious _ => inferInstanceAs (Decidable True)

/-! ## The invariant -/

/-- No worker is late once `stop_` is true, unless a notification is to come. -/
def Inv (s : Pool ι T) : Prop :=
  Covered (fun p : Pc ι T => p.late = true) (fun p => p.notifying = true) (s.stop_ = true) s.pc

variable {pool_ : List ι} {s t : Pool ι T} {i : ι} {p : Pc ι T}

omit [Fintype ι] in
/-- A thread moves: it is late only if it was, or has found `stop_` false. -/
theorem Inv.goto (h : Inv s) {cv_mt_ : Option ι} {tasks_ started : List T} {n : Int}
    (hlate : p.late = true → (s.pc i).late = true ∨ s.stop_ = false)
    (hnotifying : (s.pc i).notifying = true → p.notifying = true) :
    Inv { s.goto i p with
      cv_mt_ := cv_mt_
      tasks_ := tasks_
      started := started
      thread_num_ := n } :=
  Covered.update h (fun hl => (hlate hl).imp_right (fun hs => by simp [hs, Pool.goto])) Or.inl
    hnotifying

omit [DecidableEq ι] [Fintype ι] in
/-- A blocked thread is a worker in its wait. -/
theorem wake_eq_some {q : Pc ι T} : p.wake = some q ↔ p = .blocked ∧ q = .woken := by
  cases p <;> simp [Pc.wake, eq_comm]

omit [Fintype ι] in
/-- Thread `i` notifies, in time. -/
theorem inv_notified {pc : ι → Pc ι T} {reached : ι → Prop}
    (hpc : Notified Pc.wake reached s.pc pc) (hG : s.InTime i reached)
    (hnotifying : (s.pc i).notifying = true) (hp : p.late = false) :
    Inv { s with pc := Function.update pc i p } := by
  apply Covered.notified hpc
  · intro q q' hwoken
    obtain ⟨rfl, rfl⟩ := wake_eq_some.mp hwoken
    exact ⟨nofun, nofun⟩
  · simp [hp]
  · intro hother hr
    exact hG hnotifying (fun j hji => Bool.eq_false_iff.mpr (hother j hji)) hr

omit [Fintype ι] in
/-- The next step of a thread keeps the invariant. -/
theorem inv_stepThread (h : Inv s) (hG : s.InTime i fun _ => True)
    (hstep : s.stepThread pool_ i = some t) : Inv t := by
  unfold Pool.stepThread at hstep
  cases hpc : s.pc i <;>
    simp only [hpc, reduceCtorEq, Option.ite_none_right_eq_some, Option.some.injEq] at hstep
  case commit_load_stop c task =>
    subst hstep
    apply h.goto
    · split <;> cases c <;> exact fun hl => by cases hl
    · simp [hpc, Pc.notifying]
  case commit_push c task =>
    obtain ⟨-, rfl⟩ := hstep
    exact h.goto (fun hl => by cases hl) (fun _ => rfl)
  case load_stop =>
    subst hstep
    apply h.goto
    · split <;> exact fun hl => by cases hl
    · simp [hpc, Pc.notifying]
  case lock | woken =>
    obtain ⟨-, rfl⟩ := hstep
    exact h.goto (fun hl => by cases hl) (by simp [hpc, Pc.notifying])
  case predicate =>
    subst hstep
    apply h.goto
    · intro hl
      by_cases hready : s.stop_ = true ∨ s.tasks_ ≠ []
      · rw [if_pos hready] at hl
        cases hl
      · push Not at hready
        exact Or.inr (Bool.eq_false_iff.mpr hready.1)
    · simp [hpc, Pc.notifying]
  case block =>
    subst hstep
    exact h.goto (fun _ => Or.inl (by rw [hpc]; rfl)) (by simp [hpc, Pc.notifying])
  case pop =>
    cases htasks : s.tasks_ <;> simp only [htasks, Option.some.injEq] at hstep <;> subst hstep
    · exact h.goto (fun hl => by cases hl) (by simp [hpc, Pc.notifying])
    · exact h.goto (fun hl => by cases hl) (by simp [hpc, Pc.notifying])
  case thread_num_dec | task | thread_num_inc =>
    subst hstep
    exact h.goto (fun hl => by cases hl) (by simp [hpc, Pc.notifying])
  case stop_store =>
    subst hstep
    exact Covered.update h (fun hl => by cases hl) (fun _ => Or.inr rfl) (fun _ => rfl)
  case stop_notify =>
    subst hstep
    exact inv_notified (notified_all _ _) hG (by rw [hpc]; rfl) rfl
  case join rest =>
    cases rest with
    | nil =>
        obtain rfl := Option.some.inj hstep
        exact h.goto (fun hl => by cases hl) (by simp [hpc, Pc.notifying])
    | cons w rest =>
        cases hw : s.pc w <;> simp only [hw, reduceCtorEq, Option.some.injEq] at hstep
        subst hstep
        exact h.goto (fun hl => by cases hl) (by simp [hpc, Pc.notifying])

/-- **The step lemma.** Every step that meets `InTime` keeps the invariant. -/
theorem inv_step (s : Pool ι T) (a : Action ι T) (t : Pool ι T) (h : Inv s) (hG : InTime s a)
    (hstep : (system pool_ T).step s a = some t) : Inv t := by
  change s.step pool_ a = some t at hstep
  cases a with
  | commit i task =>
      unfold Pool.step at hstep
      cases hpc : s.pc i <;> simp only [hpc, reduceCtorEq, Option.some.injEq] at hstep <;>
        subst hstep
      · exact h.goto (fun hl => by cases hl) (by simp [hpc, Pc.notifying])
      · exact h.goto (fun hl => by cases hl) (by simp [hpc, Pc.notifying])
  | stop i =>
      unfold Pool.step at hstep
      cases hpc : s.pc i <;> simp only [hpc, reduceCtorEq, Option.some.injEq] at hstep
      subst hstep
      exact h.goto (fun hl => by cases hl) (by simp [hpc, Pc.notifying])
  | step i => exact inv_stepThread h hG hstep
  | notify i target =>
      unfold Pool.step at hstep
      cases hpc : s.pc i <;> simp only [hpc, reduceCtorEq] at hstep
      obtain ⟨pc, hwoken, rfl⟩ := Option.map_eq_some_iff.mp hstep
      exact inv_notified (notified_one hwoken) hG (by rw [hpc]; rfl) (by cases ‹Caller› <;> rfl)
  | spurious i =>
      obtain ⟨q, hq, rfl⟩ := Option.map_eq_some_iff.mp hstep
      obtain ⟨hblocked, rfl⟩ := wake_eq_some.mp hq
      exact h.goto (fun hl => by cases hl) (by simp [hblocked, Pc.notifying])

theorem inv_init : Inv (system pool_ T).init := by
  apply Covered.of_none
  intro j
  change ¬ (if j ∈ pool_ then Pc.load_stop else Pc.idle : Pc ι T).late = true
  split <;> exact fun hl => by cases hl

/-! ## No hang -/

/-- **`stop` does not hang**, for any pool, in every run in which each notification is in time.
`stop` has the same gap: the flag is atomic and is set outside of the mutex of the condition
variable. -/
theorem stop_no_hang (pool_ : List ι) (as : List (Action ι T))
    (hG : (system pool_ T).Always InTime (system pool_ T).init as) :
    (system pool_ T).Along Pool.NoHang (system pool_ T).init as :=
  (system pool_ T).along_of_always
    (fun _ h _ w _ _ hblocked hstop => h w (by rw [hblocked]; rfl) hstop) inv_step inv_init hG

/-- Two workers block, and `stop` wakes both. -/
theorem stop_no_hang_inTime :
    (system [0, 1] Nat : Lts (Pool (Fin 3) Nat) _).Along Pool.NoHang
      (system [0, 1] Nat : Lts (Pool (Fin 3) Nat) _).init
      [.step 0, .step 0, .step 0, .step 0, .step 1, .step 1, .step 1, .step 1, .stop 2,
        .step 2, .step 2, .step 0, .step 0, .step 0, .step 2, .step 1, .step 1, .step 1,
        .step 2, .step 2] :=
  stop_no_hang [0, 1] _ (by decide)

/-- Worker 0 finds its predicate false, `stop` wakes nobody, and then worker 0 blocks. -/
theorem stop_hang : ¬ (system [0, 1] Nat : Lts (Pool (Fin 3) Nat) _).Along Pool.NoHang
    (system [0, 1] Nat : Lts (Pool (Fin 3) Nat) _).init
    [.step 0, .step 0, .step 0, .stop 2, .step 2, .step 2, .step 0] := by
  intro h
  obtain ⟨i, hi⟩ := Lts.Along.last _ h rfl 2 0 [1] rfl rfl rfl
  revert hi
  revert i
  decide

end BoostNet.ThreadPool
