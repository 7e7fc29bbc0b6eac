/-
`danger_swap`, `safe_swap` and `safe_swap_scope` of two `big_object_mgr`s. Any number of
threads make any such calls, each its own one after another, over any objects.

`danger_swap` takes the mutex of its first object and then that of its second. The other two
leave the order to `std::lock`: it takes one of the mutexes, whichever it likes, tries the
other, and where that fails gives the first back and starts again. `std::scoped_lock` is
`std::lock` in its constructor. A `try_lock` may also fail for no reason.

* `can_hang_iff`: the threads can get to where not all of them can return any more exactly
  where some calls of `danger_swap` form a ring: the first objects are different ones, and each
  second object is the first object of another.
* `rearranged`: whatever the calls are, an object nobody has locked holds what the swaps done so
  far, one after another, have brought there. So no value is lost or there twice, and each
  thread's swaps are done once each and in its order.
-/
import Mathlib.Algebra.Order.BigOperators.Group.Finset
import Mathlib.Logic.Equiv.Basic
import Mathlib.Tactic.ByContra
import BoostNet.Lts
import BoostNet.Threads

set_option autoImplicit false

namespace BoostNet.BigObjectMgr

/-! ## Calls -/

/-- The functions. -/
inductive Func where
  | danger_swap
  | safe_swap
  | safe_swap_scope
  deriving DecidableEq

/-- One of the two arguments. -/
inductive Side where
  | objm1
  | objm2
  deriving DecidableEq

def Side.other : Side → Side
  | .objm1 => .objm2
  | .objm2 => .objm1

structure Call (ο : Type*) where
  func : Func
  objm1 : ο
  objm2 : ο
  deriving DecidableEq

/-- A call whose arguments are two objects: any other returns at once. -/
structure Swap (ο : Type*) extends Call ο where
  ne : objm1 ≠ objm2
  deriving DecidableEq

def Swap.arg {ο : Type*} (c : Swap ο) : Side → ο
  | .objm1 => c.objm1
  | .objm2 => c.objm2

/-- The mutex that is released last: guards are destroyed in reverse, while `~scoped_lock`
unlocks from the first mutex to the last. -/
def Func.last : Func → Side
  | .danger_swap | .safe_swap => .objm1
  | .safe_swap_scope => .objm2

/-- `_data` of a `some_big_object`. What is moved from keeps its value. -/
abbrev Data := Int

/-! ## Threads -/

/-- Where a thread is. `swap1`, `swap2` and `swap3` are the three lines of `swap`. -/
inductive Pc (ο : Type*) where
  | idle
  /-- `guard1` -/
  | lock1 (c : Swap ο)
  /-- `guard2` -/
  | lock2 (c : Swap ο)
  /-- `std::lock`, with neither mutex. -/
  | lock (c : Swap ο)
  /-- It has the mutex of `a`. -/
  | try_lock (c : Swap ο) (a : Side)
  | give_back (c : Swap ο) (a : Side)
  | swap1 (c : Swap ο)
  | swap2 (c : Swap ο) (temp : Data)
  | swap3 (c : Swap ο) (temp : Data)
  | unlock (c : Swap ο)
  | unlock_last (c : Swap ο)
  deriving DecidableEq

/-- The first thing done once the arguments turn out to be two objects. -/
def Swap.start {ο : Type*} (c : Swap ο) : Pc ο :=
  match c.func with
  | .danger_swap => .lock1 c
  | .safe_swap | .safe_swap_scope => .lock c

structure Sys (ι ο : Type*) where
  obj : ο → Data
  mtx : ο → Option ι
  pc : ι → Pc ο
  /-- The calls a thread has still to make. -/
  todo : ι → List (Call ο)
  /-- The swaps that are done. -/
  log : List (ι × Swap ο)

def Sys.init {ι ο : Type*} (prog : ι → List (Call ο)) (obj : ο → Data) : Sys ι ο where
  obj
  mtx _ := none
  pc _ := .idle
  todo := prog
  log := []

/-- `run` goes on. In `std::lock` it begins with the first mutex, and `reverse` with the
second; a `try_lock` succeeds with `run` and fails with `fail`. -/
inductive Act (ι : Type*) where
  | run (i : ι)
  | reverse (i : ι)
  | fail (i : ι)
  deriving DecidableEq

section Def

variable {ι ο : Type*} [DecidableEq ι] [DecidableEq ο]

def Sys.goto (s : Sys ι ο) (i : ι) (p : Pc ο) : Sys ι ο :=
  { s with pc := Function.update s.pc i p }

def Sys.lock (s : Sys ι ο) (i : ι) (o : ο) (p : Pc ο) : Option (Sys ι ο) :=
  if s.mtx o = none then
    some { s.goto i p with mtx := Function.update s.mtx o (some i) }
  else none

def Sys.unlock (s : Sys ι ο) (i : ι) (o : ο) (p : Pc ο) : Sys ι ο :=
  { s.goto i p with mtx := Function.update s.mtx o none }

/-- The next call: it compares the addresses. -/
def Sys.call (s : Sys ι ο) (i : ι) : Option (Sys ι ο) :=
  match s.todo i with
  | [] => none
  | c :: rest =>
      let s := { s with todo := Function.update s.todo i rest }
      -- `if (&objm1 == &objm2) return;`
      if h : c.objm1 = c.objm2 then some s else some (s.goto i (Swap.start ⟨c, h⟩))

def Sys.run (s : Sys ι ο) (i : ι) : Option (Sys ι ο) :=
  match s.pc i with
  | .idle => s.call i
  | .lock1 c => s.lock i c.objm1 (.lock2 c)
  | .lock2 c => s.lock i c.objm2 (.swap1 c)
  | .lock c => s.lock i c.objm1 (.try_lock c .objm1)
  -- Here a `try_lock` that succeeds; one that fails is `Act.fail`.
  | .try_lock c a => s.lock i (c.arg a.other) (.swap1 c)
  | .give_back c a => some (s.unlock i (c.arg a) (.lock c))
  -- `temp = std::move(lhs)`, `lhs = std::move(rhs)`, `rhs = std::move(temp)`
  | .swap1 c => some (s.goto i (.swap2 c (s.obj c.objm1)))
  | .swap2 c temp =>
      some { s.goto i (.swap3 c temp) with obj := Function.update s.obj c.objm1 (s.obj c.objm2) }
  | .swap3 c temp =>
      some { s.goto i (.unlock c) with
        obj := Function.update s.obj c.objm2 temp
        log := s.log ++ [(i, c)] }
  | .unlock c => some (s.unlock i (c.arg c.func.last.other) (.unlock_last c))
  | .unlock_last c => some (s.unlock i (c.arg c.func.last) .idle)

def Sys.step (s : Sys ι ο) : Act ι → Option (Sys ι ο)
  | .run i => s.run i
  | .reverse i =>
      match s.pc i with
      | .lock c => s.lock i c.objm2 (.try_lock c .objm2)
      | _ => none
  | .fail i =>
      match s.pc i with
      | .try_lock c a => some (s.goto i (.give_back c a))
      | _ => none

def lts (prog : ι → List (Call ο)) (obj : ο → Data) : Lts (Sys ι ο) (Act ι) where
  init := .init prog obj
  step := Sys.step

end Def

/-- All calls have returned. -/
def Sys.Finished {ι ο : Type*} (s : Sys ι ο) : Prop := ∀ i, s.pc i = .idle ∧ s.todo i = []

/-- Calls of `danger_swap`, each of a thread of its own, whose first objects are different ones
and whose second objects are first objects of theirs. -/
def Ring {ι ο : Type*} (prog : ι → List (Call ο)) : Prop :=
  ∃ (S : Finset ι) (c : ι → Swap ο), S.Nonempty ∧
    (∀ i ∈ S, (c i).func = .danger_swap ∧ (c i).toCall ∈ prog i) ∧
    (∀ i ∈ S, ∀ j ∈ S, (c i).objm1 = (c j).objm1 → i = j) ∧
    ∀ i ∈ S, ∃ j ∈ S, (c i).objm2 = (c j).objm1

/-- Where the swaps of `log` have taken each value from. -/
def arrangement {ι ο : Type*} [DecidableEq ο] (log : List (ι × Swap ο)) : Equiv.Perm ο :=
  log.foldl (fun σ e => (Equiv.swap e.2.objm1 e.2.objm2).trans σ) (Equiv.refl ο)

/-- The swaps of thread `i` that are done. -/
def Sys.done {ι ο : Type*} [DecidableEq ι] (s : Sys ι ο) (i : ι) : List (Call ο) :=
  (s.log.filter fun e => e.1 = i).map fun e => e.2.toCall

/-- The calls that have something to swap. -/
def swaps {ο : Type*} [DecidableEq ο] (cs : List (Call ο)) : List (Call ο) :=
  cs.filter fun c => c.objm1 ≠ c.objm2

/-! ## What a step does -/

/-- The mutexes a thread has. -/
def Pc.held {ο : Type*} : Pc ο → List ο
  | .idle | .lock1 _ | .lock _ => []
  | .lock2 c => [c.objm1]
  | .try_lock c a | .give_back c a => [c.arg a]
  | .swap1 c | .swap2 c _ | .swap3 c _ | .unlock c => [c.objm1, c.objm2]
  | .unlock_last c => [c.arg c.func.last]

def Pc.holds {ο : Type*} [DecidableEq ο] (o : ο) (p : Pc ο) : Bool := o ∈ p.held

/-- The call that still has to swap. -/
def Pc.pending {ο : Type*} : Pc ο → List (Call ο)
  | .idle | .unlock _ | .unlock_last _ => []
  | .lock1 c | .lock2 c | .lock c | .try_lock c _ | .give_back c _ | .swap1 c | .swap2 c _
  | .swap3 c _ => [c.toCall]

/-- Only `danger_swap` takes one mutex after the other. -/
def Pc.Fits {ο : Type*} : Pc ο → Prop
  | .lock1 c | .lock2 c => c.func = .danger_swap
  | _ => True

/-- From `p` a thread takes the mutex of `o`, and is then at `q`. -/
inductive Pc.Locks {ο : Type*} : Pc ο → ο → Pc ο → Prop where
  | lock1 (c : Swap ο) : Locks (.lock1 c) c.objm1 (.lock2 c)
  | lock2 (c : Swap ο) : Locks (.lock2 c) c.objm2 (.swap1 c)
  | lock (c : Swap ο) (a : Side) : Locks (.lock c) (c.arg a) (.try_lock c a)
  | try_lock (c : Swap ο) (a : Side) : Locks (.try_lock c a) (c.arg a.other) (.swap1 c)

/-- From `p` it gives back that of `o`. -/
inductive Pc.Unlocks {ο : Type*} : Pc ο → ο → Pc ο → Prop where
  | give_back (c : Swap ο) (a : Side) : Unlocks (.give_back c a) (c.arg a) (.lock c)
  | unlock (c : Swap ο) : Unlocks (.unlock c) (c.arg c.func.last.other) (.unlock_last c)
  | unlock_last (c : Swap ο) : Unlocks (.unlock_last c) (c.arg c.func.last) .idle

section Step

variable {ι ο : Type*} [DecidableEq ι] [DecidableEq ο]

/-- The steps of thread `i`. -/
inductive Moves (s : Sys ι ο) (i : ι) : Sys ι ο → Prop where
  | returns {c : Call ο} {rest : List (Call ο)} (hpc : s.pc i = .idle)
      (htodo : s.todo i = c :: rest) (heq : c.objm1 = c.objm2) :
      Moves s i { s with todo := Function.update s.todo i rest }
  | starts {c : Swap ο} {rest : List (Call ο)} (hpc : s.pc i = .idle)
      (htodo : s.todo i = c.toCall :: rest) :
      Moves s i { s.goto i c.start with todo := Function.update s.todo i rest }
  | locks {o : ο} {p : Pc ο} (hlocks : (s.pc i).Locks o p) (hfree : s.mtx o = none) :
      Moves s i { s.goto i p with mtx := Function.update s.mtx o (some i) }
  | unlocks {o : ο} {p : Pc ο} (hunlocks : (s.pc i).Unlocks o p) : Moves s i (s.unlock i o p)
  | fails {c : Swap ο} {a : Side} (hpc : s.pc i = .try_lock c a) :
      Moves s i (s.goto i (.give_back c a))
  | swap1 {c : Swap ο} (hpc : s.pc i = .swap1 c) :
      Moves s i (s.goto i (.swap2 c (s.obj c.objm1)))
  | swap2 {c : Swap ο} {temp : Data} (hpc : s.pc i = .swap2 c temp) :
      Moves s i { s.goto i (.swap3 c temp) with
        obj := Function.update s.obj c.objm1 (s.obj c.objm2) }
  | swap3 {c : Swap ο} {temp : Data} (hpc : s.pc i = .swap3 c temp) :
      Moves s i { s.goto i (.unlock c) with
        obj := Function.update s.obj c.objm2 temp
        log := s.log ++ [(i, c)] }

variable {s s' : Sys ι ο} {a : Act ι} {i : ι} {o : ο} {p q : Pc ο}

/-- A lock is one of the moves that the proofs go by. -/
theorem lock_spec (hp : (s.pc i).Locks o p) (h : s.lock i o p = some s') : Moves s i s' := by
  unfold Sys.lock at h
  split at h
  · rename_i hfree
    obtain rfl := Option.some.inj h
    exact .locks hp hfree
  · cases h

/-- So is the beginning of a call. -/
theorem call_spec (hpc : s.pc i = .idle) (h : s.call i = some s') : Moves s i s' := by
  unfold Sys.call at h
  cases htodo : s.todo i with
  | nil =>
      rw [htodo] at h
      cases h
  | cons c rest =>
      simp only [htodo] at h
      split at h
      · rename_i heq
        obtain rfl := Option.some.inj h
        exact .returns hpc htodo heq
      · rename_i hne
        obtain rfl := Option.some.inj h
        exact .starts (c := ⟨c, hne⟩) hpc htodo

/-- So is every other step of a thread. -/
theorem run_spec (h : s.run i = some s') : Moves s i s' := by
  unfold Sys.run at h
  cases hpc : s.pc i with
  | idle =>
      rw [hpc] at h
      exact call_spec hpc h
  | lock1 c =>
      rw [hpc] at h
      exact lock_spec (hpc ▸ .lock1 c) h
  | lock2 c =>
      rw [hpc] at h
      exact lock_spec (hpc ▸ .lock2 c) h
  | lock c =>
      rw [hpc] at h
      exact lock_spec (hpc ▸ .lock c .objm1) h
  | try_lock c a =>
      rw [hpc] at h
      exact lock_spec (hpc ▸ .try_lock c a) h
  | give_back c a =>
      simp only [hpc] at h
      obtain rfl := Option.some.inj h
      exact .unlocks (hpc ▸ .give_back c a)
  | swap1 c =>
      simp only [hpc] at h
      obtain rfl := Option.some.inj h
      exact .swap1 hpc
  | swap2 c temp =>
      simp only [hpc] at h
      obtain rfl := Option.some.inj h
      exact .swap2 hpc
  | swap3 c temp =>
      simp only [hpc] at h
      obtain rfl := Option.some.inj h
      exact .swap3 hpc
  | unlock c =>
      simp only [hpc] at h
      obtain rfl := Option.some.inj h
      exact .unlocks (hpc ▸ .unlock c)
  | unlock_last c =>
      simp only [hpc] at h
      obtain rfl := Option.some.inj h
      exact .unlocks (hpc ▸ .unlock_last c)

/-- **The step specification.** -/
theorem step_spec (h : s.step a = some s') : ∃ i, Moves s i s' := by
  cases a with
  | run i => exact ⟨i, run_spec h⟩
  | reverse i =>
      refine ⟨i, ?_⟩
      simp only [Sys.step] at h
      split at h
      · rename_i c hpc
        exact lock_spec (hpc ▸ .lock c .objm2) h
      · cases h
  | fail i =>
      refine ⟨i, ?_⟩
      simp only [Sys.step] at h
      split at h
      · rename_i c a hpc
        obtain rfl := Option.some.inj h
        exact .fails hpc
      · cases h

/-- A step leaves the other threads alone. -/
theorem Moves.apart (h : Moves s i s') {j : ι} (hj : j ≠ i) :
    s'.pc j = s.pc j ∧ s'.todo j = s.todo j := by
  cases h with
  | returns _ _ _ => exact ⟨rfl, Function.update_of_ne hj _ _⟩
  | starts _ _ => exact ⟨Function.update_of_ne hj _ _, Function.update_of_ne hj _ _⟩
  | locks _ _ | unlocks _ | fails _ | swap1 _ | swap2 _ | swap3 _ =>
      exact ⟨Function.update_of_ne hj _ _, rfl⟩

/-! ## The mutexes -/

omit [DecidableEq ο] in
/-- The two objects of a swap, seen from either side. -/
theorem Swap.mem_both (c : Swap ο) (a : Side) (o : ο) :
    o ∈ [c.objm1, c.objm2] ↔ o = c.arg a.other ∨ o = c.arg a := by
  rw [List.mem_pair]
  cases a with
  | objm1 => exact or_comm
  | objm2 => exact Iff.rfl

omit [DecidableEq ο] in
theorem Swap.arg_other_ne (c : Swap ο) (a : Side) : c.arg a ≠ c.arg a.other := by
  cases a with
  | objm1 => exact c.ne
  | objm2 => exact c.ne.symm

omit [DecidableEq ο] in
/-- A lock adds its object to what the thread holds. -/
theorem Pc.Locks.held (h : p.Locks o q) (o' : ο) : o' ∈ q.held ↔ o' = o ∨ o' ∈ p.held := by
  cases h with
  | lock1 c => simp only [Pc.held, List.mem_singleton, List.not_mem_nil, or_false]
  | lock2 c =>
      simp only [Pc.held, List.mem_singleton]
      exact c.mem_both .objm1 o'
  | lock c a => simp only [Pc.held, List.mem_singleton, List.not_mem_nil, or_false]
  | try_lock c a =>
      simp only [Pc.held, List.mem_singleton]
      exact c.mem_both a o'

omit [DecidableEq ο] in
/-- An unlock takes it away again. -/
theorem Pc.Unlocks.held (h : p.Unlocks o q) :
    o ∈ p.held ∧ ∀ o', o' ∈ q.held ↔ o' ≠ o ∧ o' ∈ p.held := by
  cases h with
  | give_back c a =>
      simp only [Pc.held, List.mem_singleton, List.not_mem_nil, ne_eq, not_and_self_iff,
        implies_true, and_self]
  | unlock c =>
      refine ⟨(c.mem_both _ _).mpr (.inl rfl), fun o' => ?_⟩
      have hne := c.arg_other_ne c.func.last
      simp only [Pc.held, List.mem_singleton, c.mem_both c.func.last]
      constructor
      · rintro rfl
        exact ⟨hne, .inr rfl⟩
      · rintro ⟨hother, ho⟩
        exact ho.resolve_left hother
  | unlock_last c =>
      simp only [Pc.held, List.mem_singleton, List.not_mem_nil, ne_eq, not_and_self_iff,
        implies_true, and_self]

/-- The mutex of an object is held by the thread that has it. -/
def Sys.Locked (s : Sys ι ο) : Prop := ∀ o, Guarded (Pc.holds o) (s.mtx o) s.pc

theorem Pc.holds_iff : p.holds o = true ↔ o ∈ p.held := decide_eq_true_iff

theorem Pc.holds_congr (h : o ∈ q.held ↔ o ∈ p.held) : q.holds o = p.holds o := by
  unfold Pc.holds
  exact decide_eq_decide.mpr h

omit [DecidableEq ι] in
theorem Sys.Locked.mem_held (h : s.Locked) : o ∈ (s.pc i).held ↔ s.mtx o = some i :=
  Pc.holds_iff.symm.trans (h o i)

omit [DecidableEq ι] in
/-- Two threads never hold the same mutex. -/
theorem Sys.Locked.eq (h : s.Locked) {j : ι} (hi : o ∈ (s.pc i).held) (hj : o ∈ (s.pc j).held) :
    i = j :=
  (h o).eq (Pc.holds_iff.mpr hi) (Pc.holds_iff.mpr hj)

omit [DecidableEq ι] in
/-- A mutex that nobody holds is free, so a lock of it does not wait. -/
theorem Sys.Locked.free (h : s.Locked) (hnone : ∀ i, o ∉ (s.pc i).held) : s.mtx o = none := by
  cases hmtx : s.mtx o with
  | none => rfl
  | some i => exact absurd (h.mem_held.mpr hmtx) (hnone i)

/-- A step that neither locks nor unlocks leaves it known who holds what. -/
theorem Sys.Locked.goto (h : s.Locked) (hp : p.held = (s.pc i).held) : (s.goto i p).Locked :=
  fun o => (h o).move (Pc.holds_congr (by rw [hp]))

/-- Every move keeps the mutexes in step with what the threads hold. -/
theorem Sys.Locked.step (h : s.Locked) (hm : Moves s i s') : s'.Locked := by
  cases hm with
  | returns _ _ _ => exact h
  | @starts c rest hpc _ =>
      refine h.goto ?_
      rw [hpc, Swap.start]
      cases c.func <;> rfl
  | @locks o p hlocks hfree =>
      intro o'
      by_cases ho : o' = o
      · have hholds : p.holds o = true := Pc.holds_iff.mpr ((hlocks.held o).mpr (.inl rfl))
        have hlock := (hfree ▸ h o).lock (i := i) hholds
        simpa only [ho, Sys.goto, Function.update_self] using hlock
      · have hmove := (h o').move (i := i) (p := p) (Pc.holds_congr (by simp [hlocks.held, ho]))
        simpa only [Sys.goto, Function.update_of_ne ho] using hmove
  | @unlocks o p hunlocks =>
      obtain ⟨hheld, hrest⟩ := hunlocks.held
      intro o'
      by_cases ho : o' = o
      · have hunlock := (h o).unlock (Pc.holds_iff.mpr hheld) (p := p)
          (decide_eq_false (by simp [hrest]))
        simpa only [ho, Sys.unlock, Sys.goto, Function.update_self] using hunlock
      · have hmove := (h o').move (i := i) (p := p) (Pc.holds_congr (by simp [hrest, ho]))
        simpa only [Sys.unlock, Sys.goto, Function.update_of_ne ho] using hmove
  | fails hpc | swap1 hpc | swap2 hpc | swap3 hpc => exact h.goto (by rw [hpc]; rfl)

/-! ## The calls -/

omit [DecidableEq ο] in
/-- A lock finishes no swap. -/
theorem Pc.Locks.pending (h : p.Locks o q) : q.pending = p.pending := by
  cases h with
  | lock1 c | lock2 c | lock c a | try_lock c a => rfl

omit [DecidableEq ο] in
/-- Nor does an unlock: what was swapped before is what the call leaves. -/
theorem Pc.Unlocks.pending (h : p.Unlocks o q) : q.pending = p.pending := by
  cases h with
  | give_back c a | unlock c | unlock_last c => rfl

omit [DecidableEq ο] in
theorem Swap.start_pending (c : Swap ο) : c.start.pending = [c.toCall] := by
  unfold Swap.start
  cases c.func <;> rfl

/-- A call with the same object twice returns before it locks anything. -/
theorem swaps_of_eq {c : Call ο} (h : c.objm1 = c.objm2) (rest : List (Call ο)) :
    swaps (c :: rest) = swaps rest :=
  List.filter_cons_of_neg (by simpa using h)

theorem swaps_cons (c : Swap ο) (rest : List (Call ο)) :
    swaps (c.toCall :: rest) = c.toCall :: swaps rest :=
  List.filter_cons_of_pos (by simpa using c.ne)

/-- The swaps of thread `i`, those done and those to come. -/
def Sys.all (s : Sys ι ο) (i : ι) : List (Call ο) :=
  s.done i ++ ((s.pc i).pending ++ swaps (s.todo i))

omit [DecidableEq ο] in
/-- The swap that is logged is its own thread's, and the others have done what they had. -/
theorem Sys.done_append (s t : Sys ι ο) (i j : ι) (c : Swap ο) (h : t.log = s.log ++ [(i, c)]) :
    t.done j = s.done j ++ if i = j then [c.toCall] else [] := by
  unfold Sys.done
  rw [h, List.filter_append, List.map_append]
  by_cases hij : i = j <;> simp [hij]

/-- A step does none of the swaps twice, leaves none out, and keeps their order. -/
theorem Moves.all_eq (h : Moves s i s') (j : ι) : s'.all j = s.all j := by
  unfold Sys.all
  by_cases hj : j = i
  · subst hj
    cases h with
    | returns hpc htodo heq =>
        rw [htodo, swaps_of_eq heq]
        simp only [Function.update_self]
        rfl
    | @starts c rest hpc htodo =>
        rw [htodo, hpc, swaps_cons]
        simp only [Sys.goto, Function.update_self, c.start_pending]
        rfl
    | locks hlocks hfree =>
        simp only [Sys.goto, Function.update_self, hlocks.pending]
        rfl
    | unlocks hunlocks =>
        simp only [Sys.unlock, Sys.goto, Function.update_self, hunlocks.pending]
        rfl
    | fails hpc | swap1 hpc | swap2 hpc =>
        rw [hpc]
        simp only [Sys.goto, Function.update_self]
        rfl
    | @swap3 c temp hpc =>
        rw [s.done_append _ j j c rfl, hpc, if_pos rfl]
        simp only [Sys.goto, Function.update_self, Pc.pending, List.append_assoc, List.nil_append]
  · obtain ⟨hpc, htodo⟩ := h.apart hj
    rw [hpc, htodo]
    cases h with
    | returns _ _ _ | starts _ _ | locks _ _ | unlocks _ | fails _ | swap1 _ | swap2 _ => rfl
    | @swap3 c temp _ => rw [s.done_append _ i j c rfl, if_neg (Ne.symm hj), List.append_nil]

omit [DecidableEq ο] in
theorem Pc.Locks.fits (h : p.Locks o q) (hp : p.Fits) : q.Fits := by
  cases h with
  | lock1 c => exact hp
  | lock2 c | lock c a | try_lock c a => trivial

omit [DecidableEq ο] in
theorem Pc.Unlocks.fits (h : p.Unlocks o q) : q.Fits := by
  cases h with
  | give_back c a | unlock c | unlock_last c => trivial

omit [DecidableEq ο] in
theorem Swap.start_fits (c : Swap ο) : c.start.Fits := by
  unfold Swap.start
  cases h : c.func with
  | danger_swap => exact h
  | safe_swap | safe_swap_scope => trivial

/-- The threads stay at places that their functions have. -/
theorem Moves.fits (h : Moves s i s') (hs : ∀ j, (s.pc j).Fits) : ∀ j, (s'.pc j).Fits := by
  cases h with
  | returns _ _ _ => exact hs
  | @starts c _ _ _ => exact forall_update c.start_fits fun j _ => hs j
  | locks hlocks _ => exact forall_update (hlocks.fits (hs i)) fun j _ => hs j
  | unlocks hunlocks => exact forall_update hunlocks.fits fun j _ => hs j
  | fails _ | swap1 _ | swap2 _ | swap3 _ => exact forall_update (by trivial) fun j _ => hs j

/-- What every run keeps. -/
structure Inv (prog : ι → List (Call ο)) (s : Sys ι ο) : Prop where
  locked : s.Locked
  fits : ∀ i, (s.pc i).Fits
  all_eq : ∀ i, s.all i = swaps (prog i)

/-- At the start every thread has all its calls before it. -/
theorem Inv.init (prog : ι → List (Call ο)) (obj : ο → Data) : Inv prog (.init prog obj) where
  locked _ _ := by simp [Sys.init, Pc.holds, Pc.held]
  fits _ := trivial
  all_eq _ := rfl

/-- What a thread has done and what it has before it make up its calls, after any step. -/
theorem Inv.step {prog : ι → List (Call ο)} (hi : Inv prog s) (h : s.step a = some s') :
    Inv prog s' := by
  obtain ⟨i, hm⟩ := step_spec h
  exact ⟨hi.locked.step hm, hm.fits hi.fits, fun j => (hm.all_eq j).trans (hi.all_eq j)⟩

/-! ## The values -/

/-- The value `temp` of a thread in the middle of `swap`. -/
def Pc.temp {ο : Type*} : Pc ο → Option (Swap ο × Data)
  | .swap2 c temp | .swap3 c temp => some (c, temp)
  | _ => none

/-- The swap whose first object has its new value and whose second has not. -/
def Pc.half {ο : Type*} : Pc ο → Option (Swap ο)
  | .swap3 c _ => some c
  | _ => none

/-- `obj` is what the swaps done so far make of it, but for those halfway. -/
structure Values (obj₀ : ο → Data) (s : Sys ι ο) : Prop where
  temp : ∀ i c temp, (s.pc i).temp = some (c, temp) → temp = obj₀ (arrangement s.log c.objm1)
  half : ∀ i c, (s.pc i).half = some c → s.obj c.objm1 = obj₀ (arrangement s.log c.objm2)
  rest : ∀ o, (∀ i c, (s.pc i).half = some c → o ≠ c.objm1) → s.obj o = obj₀ (arrangement s.log o)

omit [DecidableEq ι] [DecidableEq ο] in
/-- One more swap rearranges what the earlier ones have left. -/
theorem arrangement_append [DecidableEq ο] (log : List (ι × Swap ο)) (i : ι) (c : Swap ο) (o : ο) :
    arrangement (log ++ [(i, c)]) o = arrangement log (Equiv.swap c.objm1 c.objm2 o) := by
  unfold arrangement
  rw [List.foldl_append]
  rfl

omit [DecidableEq ο] in
/-- Between the two assignments of a swap both objects are locked. -/
theorem Pc.half_held {c : Swap ο} (h : p.half = some c) : p.held = [c.objm1, c.objm2] := by
  cases p with
  | swap3 d temp =>
      obtain rfl := Option.some.inj h
      rfl
  | _ => cases h

omit [DecidableEq ο] in
/-- So are they while `temp` holds the first value. -/
theorem Pc.temp_held {c : Swap ο} {temp : Data} (h : p.temp = some (c, temp)) :
    p.held = [c.objm1, c.objm2] := by
  cases p with
  | swap2 d temp' | swap3 d temp' =>
      obtain ⟨rfl, rfl⟩ := Prod.mk.inj (Option.some.inj h)
      rfl
  | _ => cases h

/-- Nothing in the middle of `swap` changes. -/
theorem Values.goto {obj₀ : ο → Data} (h : Values obj₀ s) (hobj : s'.obj = s.obj)
    (hlog : s'.log = s.log) (hpc : s'.pc = Function.update s.pc i p)
    (htemp : ∀ c temp, p.temp = some (c, temp) → temp = obj₀ (arrangement s.log c.objm1))
    (hold : (s.pc i).half = none) (hnew : p.half = none) : Values obj₀ s' := by
  have hhalf : ∀ j, (s'.pc j).half = (s.pc j).half := by
    rw [hpc]
    exact forall_update_at (P := fun j (q : Pc ο) => q.half = (s.pc j).half) (hnew.trans hold.symm)
      fun j _ => rfl
  constructor
  · rw [hpc, hlog]
    exact forall_update (P := fun q : Pc ο => ∀ c temp, q.temp = some (c, temp) →
      temp = obj₀ (arrangement s.log c.objm1)) htemp fun j _ => h.temp j
  · intro j c hj
    rw [hobj, hlog]
    exact h.half j c (hhalf j ▸ hj)
  · intro o ho
    rw [hobj, hlog]
    exact h.rest o fun j c hj => ho j c ((hhalf j).trans hj)

omit [DecidableEq ο] in
theorem Pc.Locks.quiet (h : p.Locks o q) : p.half = none ∧ q.half = none ∧ q.temp = none := by
  cases h with
  | lock1 c | lock2 c | lock c a | try_lock c a => exact ⟨rfl, rfl, rfl⟩

omit [DecidableEq ο] in
theorem Pc.Unlocks.quiet (h : p.Unlocks o q) : p.half = none ∧ q.half = none ∧ q.temp = none := by
  cases h with
  | give_back c a | unlock c | unlock_last c => exact ⟨rfl, rfl, rfl⟩

omit [DecidableEq ο] in
theorem Swap.start_quiet (c : Swap ο) : c.start.half = none ∧ c.start.temp = none := by
  unfold Swap.start
  cases c.func <;> exact ⟨rfl, rfl⟩

omit [DecidableEq ι] in
/-- Threads in the middle of `swap` have no object in common. -/
theorem Sys.Locked.disjoint (h : s.Locked) {j : ι} {c d : Swap ο} (hij : i ≠ j)
    (hi : (s.pc i).held = [c.objm1, c.objm2]) (hj : (s.pc j).held = [d.objm1, d.objm2]) :
    (d.objm1 ≠ c.objm1 ∧ d.objm1 ≠ c.objm2) ∧ d.objm2 ≠ c.objm1 ∧ d.objm2 ≠ c.objm2 := by
  have hne : ∀ o ∈ [c.objm1, c.objm2], ∀ o' ∈ [d.objm1, d.objm2], o' ≠ o := by
    rintro o ho o' ho' rfl
    exact hij (h.eq (hi ▸ ho) (hj ▸ ho'))
  simp only [List.mem_pair, forall_eq_or_imp, forall_eq] at hne
  exact ⟨⟨hne.1.1, hne.2.1⟩, hne.1.2, hne.2.2⟩

/-- The first assignment of `swap`: the first object gets the value of the second. -/
theorem Values.swap2 {obj₀ : ο → Data} (h : Values obj₀ s) (hl : s.Locked) {c : Swap ο}
    {temp : Data} (hpc : s.pc i = .swap2 c temp) :
    Values obj₀ { s.goto i (.swap3 c temp) with
      obj := Function.update s.obj c.objm1 (s.obj c.objm2) } := by
  have hheld : (s.pc i).held = [c.objm1, c.objm2] := by rw [hpc]; rfl
  -- Nobody is halfway at an object of this swap, so its second object is as it should be.
  have happart : ∀ j d, (s.pc j).half = some d → j ≠ i ∧ c.objm2 ≠ d.objm1 ∧ d.objm1 ≠ c.objm1 := by
    intro j d hd
    have hji : j ≠ i := by
      rintro rfl
      rw [hpc] at hd
      cases hd
    have hne := hl.disjoint hji.symm hheld (Pc.half_held hd)
    exact ⟨hji, hne.1.2.symm, hne.1.1⟩
  have hobj : s.obj c.objm2 = obj₀ (arrangement s.log c.objm2) :=
    h.rest c.objm2 fun j d hd => (happart j d hd).2.1
  constructor
  · refine forall_update (P := fun q : Pc ο => ∀ d temp, q.temp = some (d, temp) →
      temp = obj₀ (arrangement s.log d.objm1)) ?_ fun j _ => h.temp j
    rintro d temp' hd
    exact h.temp i d temp' (by rw [hpc]; exact hd)
  · refine forall_update_at (P := fun j (q : Pc ο) => ∀ d, q.half = some d →
      Function.update s.obj c.objm1 (s.obj c.objm2) d.objm1 =
        obj₀ (arrangement s.log d.objm2)) ?_ ?_
    · rintro d hd
      obtain rfl := Option.some.inj hd
      rw [Function.update_self]
      exact hobj
    · intro j _ d hd
      rw [Function.update_of_ne (happart j d hd).2.2]
      exact h.half j d hd
  · intro o ho
    have hne : o ≠ c.objm1 := ho i c (by simp only [Sys.goto, Function.update_self]; rfl)
    simp only [Function.update_of_ne hne]
    refine h.rest o fun j d hd => ho j d ?_
    simp only [Sys.goto, Function.update_of_ne (happart j d hd).1]
    exact hd

/-- The second assignment: the swap is done. -/
theorem Values.swap3 {obj₀ : ο → Data} (h : Values obj₀ s) (hl : s.Locked) {c : Swap ο}
    {temp : Data} (hpc : s.pc i = .swap3 c temp) :
    Values obj₀ { s.goto i (.unlock c) with
      obj := Function.update s.obj c.objm2 temp
      log := s.log ++ [(i, c)] } := by
  have hheld : (s.pc i).held = [c.objm1, c.objm2] := by rw [hpc]; rfl
  have htemp : temp = obj₀ (arrangement s.log c.objm1) := h.temp i c temp (by rw [hpc]; rfl)
  have hobj : s.obj c.objm1 = obj₀ (arrangement s.log c.objm2) := h.half i c (by rw [hpc]; rfl)
  constructor
  · refine forall_update_at (P := fun j (q : Pc ο) => ∀ d temp, q.temp = some (d, temp) →
      temp = obj₀ (arrangement (s.log ++ [(i, c)]) d.objm1)) ?_ ?_
    · intro d temp' hd
      cases hd
    · intro j hj d temp' hd
      have hne := (hl.disjoint hj.symm hheld (Pc.temp_held hd)).1
      rw [arrangement_append, Equiv.swap_apply_of_ne_of_ne hne.1 hne.2]
      exact h.temp j d temp' hd
  · refine forall_update_at (P := fun j (q : Pc ο) => ∀ d, q.half = some d →
      Function.update s.obj c.objm2 temp d.objm1 =
        obj₀ (arrangement (s.log ++ [(i, c)]) d.objm2)) ?_ ?_
    · intro d hd
      cases hd
    · intro j hj d hd
      have hne := hl.disjoint hj.symm hheld (Pc.half_held hd)
      rw [Function.update_of_ne hne.1.2, arrangement_append,
        Equiv.swap_apply_of_ne_of_ne hne.2.1 hne.2.2]
      exact h.half j d hd
  · intro o ho
    rw [arrangement_append]
    by_cases h2 : o = c.objm2
    · rw [h2, Equiv.swap_apply_right, ← htemp]
      exact Function.update_self _ _ _
    · by_cases h1 : o = c.objm1
      · rw [h1, Equiv.swap_apply_left, ← hobj]
        exact Function.update_of_ne c.ne _ _
      · rw [Equiv.swap_apply_of_ne_of_ne h1 h2]
        refine (Function.update_of_ne h2 _ _).trans (h.rest o fun j d hd => ?_)
        by_cases hj : j = i
        · rw [hj, hpc] at hd
          obtain rfl := Option.some.inj hd
          exact h1
        · refine ho j d ?_
          simp only [Sys.goto, Function.update_of_ne hj]
          exact hd

/-- The values are where the finished swaps have put them, and what a swap is in the middle of is
accounted for. Nobody else touches the two objects, since they are locked. -/
theorem Values.step {obj₀ : ο → Data} (h : Values obj₀ s) (hl : s.Locked) (hm : Moves s i s') :
    Values obj₀ s' := by
  cases hm with
  | returns _ _ _ => exact ⟨h.temp, h.half, h.rest⟩
  | @starts c rest hpc _ =>
      obtain ⟨hhalf, htemp⟩ := c.start_quiet
      refine h.goto rfl rfl rfl (fun d temp hd => ?_) (by rw [hpc]; rfl) hhalf
      cases htemp.symm.trans hd
  -- Taking a mutex or giving one back is outside of `swap`.
  | locks hlocks _ =>
      obtain ⟨hold, hnew, htemp⟩ := hlocks.quiet
      refine h.goto rfl rfl rfl (fun d temp hd => ?_) hold hnew
      cases htemp.symm.trans hd
  | unlocks hunlocks =>
      obtain ⟨hold, hnew, htemp⟩ := hunlocks.quiet
      refine h.goto rfl rfl rfl (fun d temp hd => ?_) hold hnew
      cases htemp.symm.trans hd
  | fails hpc =>
      refine h.goto rfl rfl rfl (fun d temp hd => ?_) (by rw [hpc]; rfl) rfl
      cases hd
  | @swap1 c hpc =>
      refine h.goto rfl rfl rfl (fun d temp hd => ?_) (by rw [hpc]; rfl) rfl
      obtain ⟨rfl, rfl⟩ := Prod.mk.inj (Option.some.inj hd)
      refine h.rest c.objm1 fun j e he heq => ?_
      -- Who is halfway at the first object has its mutex, which this thread has.
      have hij : i = j := by
        refine hl.eq (o := c.objm1) ?_ ?_
        · rw [hpc]
          exact List.mem_cons_self
        · rw [Pc.half_held he, heq]
          exact List.mem_cons_self
      rw [← hij, hpc] at he
      cases he
  | swap2 hpc => exact h.swap2 hl hpc
  | swap3 hpc => exact h.swap3 hl hpc

/-! ## What the swaps make of the values -/

section Runs

variable {prog : ι → List (Call ο)} {obj : ο → Data} {as : List (Act ι)}

theorem inv_exec (h : (lts prog obj).exec (lts prog obj).init as = some s) : Inv prog s :=
  (lts prog obj).exec_inv (fun _ _ _ hi hs => hi.step hs) (.init prog obj) h

theorem values_exec (h : (lts prog obj).exec (lts prog obj).init as = some s) : Values obj s := by
  have hinit : Values obj (Sys.init prog obj) :=
    ⟨fun _ _ _ hi => (by cases hi), fun _ _ hi => (by cases hi), fun _ _ => rfl⟩
  refine ((lts prog obj).exec_inv (P := fun s => Inv prog s ∧ Values obj s) ?_
    ⟨.init prog obj, hinit⟩ h).2
  rintro s a t ⟨hi, hv⟩ hs
  obtain ⟨i, hm⟩ := step_spec hs
  exact ⟨hi.step hs, hv.step hi.locked hm⟩

/-- **The objects are rearranged.** An object whose mutex is free has the value that the swaps
done so far, one after another, have brought there from another object. The swaps of each
thread are done once each and in its order, all of them by the time all calls have returned. -/
theorem rearranged (h : (lts prog obj).exec (lts prog obj).init as = some s) :
    (∀ o, s.mtx o = none → s.obj o = obj (arrangement s.log o)) ∧
      (∀ i, s.done i <+: swaps (prog i)) ∧
      (s.Finished → (∀ o, s.obj o = obj (arrangement s.log o)) ∧
        ∀ i, s.done i = swaps (prog i)) := by
  have hi := inv_exec h
  have hfree : ∀ o, s.mtx o = none → s.obj o = obj (arrangement s.log o) := by
    intro o ho
    refine (values_exec h).rest o fun i c hc heq => ?_
    have hheld : o ∈ (s.pc i).held := by
      rw [Pc.half_held hc, heq]
      exact List.mem_cons_self
    rw [hi.locked.mem_held, ho] at hheld
    cases hheld
  refine ⟨hfree, fun i => ⟨_, hi.all_eq i⟩, fun hfin => ⟨fun o => hfree o ?_, fun i => ?_⟩⟩
  · refine hi.locked.free fun i hheld => ?_
    rw [(hfin i).1] at hheld
    cases hheld
  · have hall := hi.all_eq i
    unfold Sys.all at hall
    rw [(hfin i).1, (hfin i).2] at hall
    exact (List.append_nil _).symm.trans hall

end Runs

/-- `test_safe_swap`: two threads swap two objects, one in the one order, one in the other. -/
def test_safe_swap (t : Bool) : List (Call Bool) := [⟨.safe_swap, t, !t⟩]

/-- The data of the two objects. -/
def test_data (o : Bool) : Data := if o then 100 else 5

/-- Each thread takes its first mutex, cannot have the other, and gives the first back. -/
def test_run : List (Act Bool) :=
  [.run false, .run true, .run false, .run true, .fail false, .fail true, .run true, .run false] ++
    [.run false, .run false] ++ List.replicate 5 (.run false) ++
    [.reverse true] ++ List.replicate 6 (.run true)

def test_end : Sys Bool Bool :=
  ((lts test_safe_swap test_data).exec (lts test_safe_swap test_data).init test_run).get rfl

theorem test_end_run : (lts test_safe_swap test_data).exec (lts test_safe_swap test_data).init
    test_run = some test_end :=
  (Option.some_get _).symm

theorem test_end_finished : test_end.Finished := by
  unfold Sys.Finished
  decide

theorem rearranged_test_safe_swap :
    (∀ o, test_end.obj o = test_data (arrangement test_end.log o)) ∧
      ∀ i, test_end.done i = swaps (test_safe_swap i) :=
  (rearranged test_end_run).2.2 test_end_finished

/-! ## Getting on -/

/-- The mutexes a thread waits for. Whoever tries one waits for nothing. -/
def Pc.wants : Pc ο → List ο
  | .lock1 c => [c.objm1]
  | .lock2 c => [c.objm2]
  | .lock c => [c.objm1, c.objm2]
  | _ => []

/-- What is left of the call, at most. -/
def Pc.rank : Pc ο → Nat
  | .idle => 0
  | .unlock_last _ => 1
  | .unlock _ => 2
  | .swap3 _ _ => 3
  | .swap2 _ _ => 4
  | .swap1 _ => 5
  | .lock2 _ => 6
  | .lock1 _ | .lock _ => 7
  | .give_back _ _ => 8
  | .try_lock _ _ => 9

omit [DecidableEq ο] in
theorem Swap.start_rank (c : Swap ο) : c.start.rank = 7 := by
  unfold Swap.start
  cases c.func <;> rfl

section Advance

variable (prog : ι → List (Call ο)) (obj : ο → Data)

/-- A lock of a free mutex is taken at once. -/
theorem lock_of_free (hfree : s.mtx o = none) : s.lock i o p =
    some { s.goto i p with mtx := Function.update s.mtx o (some i) } := by
  rw [Sys.lock, if_pos hfree]

/-- A step that takes thread `i` on, and no other. -/
theorem reaches_of_step {u : Sys ι ο} (hstep : s.step a = some u)
    (hpc : u.pc = Function.update s.pc i p) (htodo : u.todo = s.todo)
    (hrank : p.rank < (s.pc i).rank) :
    ∃ u, (lts prog obj).Reaches s u ∧ (∀ j, j ≠ i → u.pc j = s.pc j) ∧ u.todo = s.todo ∧
      (u.pc i).rank < (s.pc i).rank := by
  refine ⟨u, .of_step hstep, fun j hj => ?_, htodo, ?_⟩
  · rw [hpc, Function.update_of_ne hj]
  · rw [hpc, Function.update_self]
    exact hrank

/-- `std::lock` gets both mutexes where both are free: it takes one and then the other. -/
theorem reaches_both {c : Swap ο} (hpc : s.pc i = .lock c) (h1 : s.mtx c.objm1 = none)
    (h2 : s.mtx c.objm2 = none) :
    ∃ u, (lts prog obj).Reaches s u ∧ u.pc = Function.update s.pc i (.swap1 c) ∧
      u.todo = s.todo := by
  have hfirst : (lts prog obj).step s (.run i) = some { s.goto i (.try_lock c .objm1) with
      mtx := Function.update s.mtx c.objm1 (some i) } := by
    simp only [lts, Sys.step, Sys.run, hpc]
    exact lock_of_free h1
  have hfree : Function.update s.mtx c.objm1 (some i) c.objm2 = none :=
    (Function.update_of_ne c.ne.symm _ _).trans h2
  refine ⟨{ s.goto i (.swap1 c) with
      mtx := Function.update (Function.update s.mtx c.objm1 (some i)) c.objm2 (some i) },
    (Lts.Reaches.of_step hfirst).trans (.of_step (a := .run i) ?_), rfl, rfl⟩
  simp only [lts, Sys.step, Sys.run, Sys.goto, Function.update_self, Swap.arg, Side.other]
  rw [lock_of_free hfree]
  simp only [Sys.goto, Function.update_idem]

/-- A call in which no mutex is waited for that is taken goes on, with the rest as it is. -/
theorem advance (hpc : s.pc i ≠ .idle) (hfree : ∀ o ∈ (s.pc i).wants, s.mtx o = none) :
    ∃ u, (lts prog obj).Reaches s u ∧ (∀ j, j ≠ i → u.pc j = s.pc j) ∧ u.todo = s.todo ∧
      (u.pc i).rank < (s.pc i).rank := by
  cases h : s.pc i with
  | idle => exact absurd h hpc
  | lock1 c =>
      have ho : s.mtx c.objm1 = none := hfree _ (by rw [h]; exact List.mem_cons_self)
      have hstep : s.step (.run i) = s.lock i c.objm1 (.lock2 c) := by
        simp only [Sys.step, Sys.run, h]
      rw [lock_of_free ho] at hstep
      exact h ▸ reaches_of_step prog obj hstep rfl rfl (by rw [h]; exact Nat.lt_add_one _)
  | lock2 c =>
      have ho : s.mtx c.objm2 = none := hfree _ (by rw [h]; exact List.mem_cons_self)
      have hstep : s.step (.run i) = s.lock i c.objm2 (.swap1 c) := by
        simp only [Sys.step, Sys.run, h]
      rw [lock_of_free ho] at hstep
      exact h ▸ reaches_of_step prog obj hstep rfl rfl (by rw [h]; exact Nat.lt_add_one _)
  | lock c =>
      have h1 : s.mtx c.objm1 = none := hfree _ (by rw [h]; exact List.mem_cons_self)
      have h2 : s.mtx c.objm2 = none :=
        hfree _ (by rw [h]; exact List.mem_cons_of_mem _ List.mem_cons_self)
      obtain ⟨u, hreach, hu, htodo⟩ := reaches_both prog obj h h1 h2
      refine ⟨u, hreach, fun j hj => ?_, htodo, ?_⟩
      · rw [hu, Function.update_of_ne hj]
      · rw [hu, Function.update_self]
        exact Nat.lt_add_of_pos_right Nat.two_pos
  | try_lock c a =>
      -- Giving up is always possible, and brings the call closer to where both mutexes are free.
      have hstep : s.step (.fail i) = some (s.goto i (.give_back c a)) := by
        simp only [Sys.step, h]
      exact h ▸ reaches_of_step prog obj hstep rfl rfl (by rw [h]; exact Nat.lt_add_one _)
  | give_back c a | swap1 c | swap2 c temp | swap3 c temp | unlock c | unlock_last c =>
      have hstep : s.step (.run i) = s.run i := rfl
      unfold Sys.run at hstep
      simp only [h] at hstep
      exact h ▸ reaches_of_step prog obj hstep rfl rfl (by rw [h]; exact Nat.lt_add_one _)

/-- A thread makes its next call. -/
theorem reaches_call {c : Call ο} {rest : List (Call ο)} (hpc : s.pc i = .idle)
    (htodo : s.todo i = c :: rest) :
    ∃ u p, (lts prog obj).Reaches s u ∧ u.pc = Function.update s.pc i p ∧
      u.todo = Function.update s.todo i rest ∧ p.rank ≤ 7 := by
  by_cases heq : c.objm1 = c.objm2
  · refine ⟨{ s with todo := Function.update s.todo i rest }, .idle,
      .of_step (a := .run i) ?_, ?_, rfl, Nat.zero_le _⟩
    · simp only [lts, Sys.step, Sys.run, Sys.call, hpc, htodo, dif_pos heq]
    · rw [← hpc, Function.update_eq_self]
  · refine ⟨{ s.goto i (Swap.start ⟨c, heq⟩) with todo := Function.update s.todo i rest }, _,
      .of_step (a := .run i) ?_, rfl, rfl, (Swap.start_rank _).le⟩
    simp only [lts, Sys.step, Sys.run, Sys.call, hpc, htodo, dif_neg heq]
    rfl

variable {prog}

variable {obj} in
theorem Inv.reaches {u : Sys ι ο} (hi : Inv prog s) (h : (lts prog obj).Reaches s u) :
    Inv prog u := by
  obtain ⟨as, has⟩ := h
  exact (lts prog obj).exec_inv (fun _ _ _ hi hs => hi.step hs) hi has

/-! ## Without a ring all calls can return -/

def Sys.rank [Fintype ι] (s : Sys ι ο) : Nat :=
  ∑ i, (10 * (s.todo i).length + (s.pc i).rank)

omit [DecidableEq ο] in
/-- The rank goes down where one thread does something and the others do not. -/
theorem Sys.rank_lt [Fintype ι] {u : Sys ι ο} (hpc : ∀ j, j ≠ i → u.pc j = s.pc j)
    (htodo : ∀ j, j ≠ i → u.todo j = s.todo j)
    (hlt : 10 * (u.todo i).length + (u.pc i).rank < 10 * (s.todo i).length + (s.pc i).rank) :
    u.rank < s.rank := by
  refine Finset.sum_lt_sum (fun j _ => ?_) ⟨i, Finset.mem_univ i, hlt⟩
  by_cases hj : j = i
  · rw [hj]
    exact hlt.le
  · rw [hpc j hj, htodo j hj]

omit [DecidableEq ο] in
/-- Who has a mutex, and waits for one, is at `guard2`. -/
theorem Pc.eq_lock2 {o' : ο} (hheld : o ∈ p.held) (hwants : o' ∈ p.wants) :
    ∃ c, p = .lock2 c ∧ o = c.objm1 ∧ o' = c.objm2 := by
  cases p with
  | lock2 c => exact ⟨c, rfl, List.mem_singleton.mp hheld, List.mem_singleton.mp hwants⟩
  | idle | lock1 c | lock c => cases hheld
  | _ => cases hwants

/-- Only `danger_swap` waits for its second mutex with the first one locked. -/
theorem Inv.mem_prog (hi : Inv prog s) {c : Swap ο} (hpc : s.pc i = .lock2 c) :
    c.func = .danger_swap ∧ c.toCall ∈ prog i := by
  have hfits := hi.fits i
  rw [hpc] at hfits
  refine ⟨hfits, ?_⟩
  have hmem : c.toCall ∈ s.all i := by
    unfold Sys.all
    rw [hpc]
    exact List.mem_append_right _ List.mem_cons_self
  rw [hi.all_eq i] at hmem
  exact (List.mem_filter.mp hmem).1

/-- The call of a thread at `guard2`. -/
def Pc.second : Pc ο → Option (Swap ο)
  | .lock2 c => some c
  | _ => none

/-- Threads that are stuck at `guard2` are in a ring. -/
theorem Inv.ring [Fintype ι] (hi : Inv prog s) {c₀ : Swap ο} (hc₀ : s.pc i = .lock2 c₀)
    (hwaits : ∀ j c, s.pc j = .lock2 c → ∃ k d, s.pc k = .lock2 d ∧ c.objm2 = d.objm1) :
    Ring prog := by
  have hmem : ∀ j, j ∈ Finset.univ.filter (fun j => (s.pc j).second.isSome = true) →
      s.pc j = .lock2 ((s.pc j).second.getD c₀) := by
    intro j hj
    have hsome := (Finset.mem_filter.mp hj).2
    cases hpc : s.pc j with
    | lock2 c => rfl
    | _ =>
        rw [hpc] at hsome
        cases hsome
  have hmem' : ∀ j c, s.pc j = .lock2 c →
      j ∈ Finset.univ.filter (fun j => (s.pc j).second.isSome = true) := by
    intro j c hpc
    refine Finset.mem_filter.mpr ⟨Finset.mem_univ j, ?_⟩
    rw [hpc]
    rfl
  refine ⟨_, fun j => (s.pc j).second.getD c₀, ⟨i, hmem' i c₀ hc₀⟩,
    fun j hj => hi.mem_prog (hmem j hj), fun j hj k hk heq => ?_, fun j hj => ?_⟩
  · refine hi.locked.eq (o := ((s.pc j).second.getD c₀).objm1) ?_ ?_
    · rw [hmem j hj]
      exact List.mem_cons_self
    · rw [hmem k hk, heq]
      exact List.mem_cons_self
  · obtain ⟨k, d, hk, heq⟩ := hwaits j _ (hmem j hj)
    refine ⟨k, hmem' k d hk, heq.trans ?_⟩
    simp only [hk, Pc.second, Option.getD_some]

/-- Without a ring something can be done until all calls have returned. -/
theorem Inv.progress [Fintype ι] (hi : Inv prog s) (hring : ¬ Ring prog) (hfin : ¬ s.Finished) :
    ∃ u, (lts prog obj).Reaches s u ∧ u.rank < s.rank := by
  by_contra! hno
  have hidle : ∀ i, s.pc i = .idle → s.todo i = [] := by
    intro i hpc
    cases htodo : s.todo i with
    | nil => rfl
    | cons c rest =>
        obtain ⟨u, p, hreach, hu, hrest, hrank⟩ :=
          reaches_call prog obj hpc htodo
        refine absurd (Sys.rank_lt (i := i) ?_ ?_ ?_) (Nat.not_lt_of_le (hno u hreach))
        · intro j hj
          rw [hu, Function.update_of_ne hj]
        · intro j hj
          rw [hrest, Function.update_of_ne hj]
        · rw [hu, hrest, hpc, htodo, Function.update_self, Function.update_self, List.length_cons,
            Pc.rank]
          omega
  have hblocked : ∀ i, s.pc i ≠ .idle → ∃ o ∈ (s.pc i).wants, ∃ j, o ∈ (s.pc j).held := by
    intro i hpc
    by_contra! hnone
    obtain ⟨u, hreach, hu, htodo, hrank⟩ :=
      advance prog obj hpc fun o ho => hi.locked.free (hnone o ho)
    refine absurd (Sys.rank_lt hu ?_ ?_) (Nat.not_lt_of_le (hno u hreach))
    · intro j _
      rw [htodo]
    · rw [htodo]
      exact Nat.add_lt_add_left hrank _
  -- Who has a mutex cannot go on, so it waits for another one, at `guard2`.
  have hholder : ∀ o j, o ∈ (s.pc j).held → ∃ c, s.pc j = .lock2 c ∧ o = c.objm1 := by
    intro o j hheld
    have hpc : s.pc j ≠ .idle := by
      intro hpc
      rw [hpc] at hheld
      cases hheld
    obtain ⟨o', hwants, -⟩ := hblocked j hpc
    obtain ⟨c, hc, ho, -⟩ := Pc.eq_lock2 hheld hwants
    exact ⟨c, hc, ho⟩
  obtain ⟨i, hpc⟩ : ∃ i, s.pc i ≠ .idle := by
    by_contra! hall
    exact hfin fun i => ⟨hall i, hidle i (hall i)⟩
  obtain ⟨o, -, j, hheld⟩ := hblocked i hpc
  obtain ⟨c₀, hc₀, -⟩ := hholder o j hheld
  refine hring (hi.ring hc₀ fun k c hk => ?_)
  obtain ⟨o, hwants, l, hl⟩ := hblocked k (by rw [hk]; exact fun h => by cases h)
  obtain ⟨d, hd, ho⟩ := hholder o l hl
  rw [hk] at hwants
  exact ⟨l, d, hd, (List.mem_singleton.mp hwants).symm.trans ho⟩

/-- Without a ring the run can be completed from any state: as long as it is not finished some
thread can go on, and the rank bounds how often. -/
theorem Inv.can_finish [Fintype ι] (hi : Inv prog s) (hring : ¬ Ring prog) :
    ∃ u, (lts prog obj).Reaches s u ∧ u.Finished := by
  induction hn : s.rank using Nat.strong_induction_on generalizing s with
  | _ n ih =>
      by_cases hfin : s.Finished
      · exact ⟨s, .refl _ s, hfin⟩
      · obtain ⟨u, hreach, hlt⟩ := hi.progress obj hring hfin
        obtain ⟨v, hv, hfin⟩ := ih _ (hn ▸ hlt) (hi.reaches hreach) rfl
        exact ⟨v, hreach.trans hv, hfin⟩

/-! ## In a ring they hang -/

/-- With the other threads between two calls, a thread can finish its own. -/
theorem Inv.finish_call (hi : Inv prog s) (hidle : ∀ j, j ≠ i → s.pc j = .idle) :
    ∃ u, (lts prog obj).Reaches s u ∧ (∀ j, u.pc j = .idle) ∧ u.todo = s.todo := by
  induction hn : (s.pc i).rank using Nat.strong_induction_on generalizing s with
  | _ n ih =>
      by_cases hpc : s.pc i = .idle
      · refine ⟨s, .refl _ s, fun j => ?_, rfl⟩
        by_cases hj : j = i
        · rw [hj, hpc]
        · exact hidle j hj
      · have hfree : ∀ o ∈ (s.pc i).wants, s.mtx o = none := by
          refine fun o ho => hi.locked.free fun j hheld => ?_
          by_cases hj : j = i
          · obtain ⟨c, -, h1, h2⟩ := Pc.eq_lock2 (hj ▸ hheld) ho
            exact c.ne (h1.symm.trans h2)
          · rw [hidle j hj] at hheld
            cases hheld
        obtain ⟨u, hreach, hu, htodo, hrank⟩ := advance prog obj hpc hfree
        obtain ⟨v, hv, hidle', htodo'⟩ := ih _ (hn ▸ hrank) (hi.reaches hreach)
          (fun j hj => (hu j hj).trans (hidle j hj)) rfl
        exact ⟨v, hreach.trans hv, hidle', htodo'.trans htodo⟩

/-- It can make the calls that come before another one. -/
theorem Inv.make_calls (hi : Inv prog s) (hidle : ∀ j, s.pc j = .idle) {pre rest : List (Call ο)}
    (htodo : s.todo i = pre ++ rest) :
    ∃ u, (lts prog obj).Reaches s u ∧ (∀ j, u.pc j = .idle) ∧
      u.todo = Function.update s.todo i rest := by
  induction pre generalizing s with
  | nil =>
      refine ⟨s, .refl _ s, hidle, ?_⟩
      rw [← List.nil_append rest, ← htodo, Function.update_eq_self]
  | cons c pre ih =>
      obtain ⟨u, p, hreach, hu, hrest, -⟩ := reaches_call prog obj (hidle i) htodo
      have hother : ∀ j, j ≠ i → u.pc j = .idle := by
        intro j hj
        rw [hu, Function.update_of_ne hj]
        exact hidle j
      have hiu := hi.reaches hreach
      obtain ⟨v, hv, hidle', htodo'⟩ := hiu.finish_call obj hother
      have hnext : v.todo i = pre ++ rest := by
        rw [htodo', hrest, Function.update_self]
        rfl
      obtain ⟨w, hw, hidle'', htodo''⟩ := ih (hiu.reaches hv) hidle' hnext
      refine ⟨w, hreach.trans (hv.trans hw), hidle'', ?_⟩
      rw [htodo'', htodo', hrest, Function.update_idem]

/-- Every thread of `S` can get to before the call that is chosen for it. -/
theorem reaches_chosen (S : Finset ι) {c : ι → Swap ο} (hc : ∀ i ∈ S, (c i).toCall ∈ prog i) :
    ∃ s, (lts prog obj).Reaches (.init prog obj) s ∧ (∀ j, s.pc j = .idle) ∧
      (∀ i ∈ S, ∃ rest, s.todo i = (c i).toCall :: rest) ∧ ∀ i, i ∉ S → s.todo i = prog i := by
  induction S using Finset.induction_on with
  | empty =>
      exact ⟨_, .refl _ _, fun _ => rfl, fun i hi => absurd hi (Finset.notMem_empty i),
        fun _ _ => rfl⟩
  | insert i S hiS ih =>
      obtain ⟨s, hreach, hidle, hchosen, hrest⟩ := ih fun j hj => hc j (Finset.mem_insert_of_mem hj)
      obtain ⟨pre, rest, hpre⟩ := List.append_of_mem (hc i (Finset.mem_insert_self i S))
      obtain ⟨u, hu, hidle', htodo⟩ := ((Inv.init prog obj).reaches hreach).make_calls obj
        hidle ((hrest i hiS).trans hpre)
      refine ⟨u, hreach.trans hu, hidle', fun j hj => ?_, fun j hj => ?_⟩
      · by_cases hji : j = i
        · rw [hji, htodo, Function.update_self]
          exact ⟨rest, rfl⟩
        · rw [htodo, Function.update_of_ne hji]
          exact hchosen j (Finset.mem_of_mem_insert_of_ne hj hji)
      · rw [Finset.mem_insert, not_or] at hj
        rw [htodo, Function.update_of_ne hj.1]
        exact hrest j hj.2

variable (prog) in
/-- `danger_swap` gets to `guard2` where the first mutex is free. -/
theorem reaches_lock2 {c : Swap ο} {rest : List (Call ο)} (hpc : s.pc i = .idle)
    (htodo : s.todo i = c.toCall :: rest) (hfunc : c.func = .danger_swap)
    (hfree : s.mtx c.objm1 = none) :
    ∃ u, (lts prog obj).Reaches s u ∧ u.pc = Function.update s.pc i (.lock2 c) ∧
      ∀ j, j ≠ i → u.todo j = s.todo j := by
  have hstart : (lts prog obj).step s (.run i) =
      some { s.goto i (.lock1 c) with todo := Function.update s.todo i rest } := by
    simp only [lts, Sys.step, Sys.run, Sys.call, hpc, htodo, dif_neg c.ne, Swap.start, hfunc]
    rfl
  refine ⟨{ s.goto i (.lock2 c) with
      mtx := Function.update s.mtx c.objm1 (some i)
      todo := Function.update s.todo i rest },
    (Lts.Reaches.of_step hstart).trans (.of_step (a := .run i) ?_), rfl,
    fun j hj => Function.update_of_ne hj _ _⟩
  simp only [lts, Sys.step, Sys.run, Sys.goto, Function.update_self, Sys.lock, if_pos hfree,
    Function.update_idem]

/-- The threads of a ring can all get to `guard2`, each with the mutex of its first object. -/
theorem reaches_ring (S : Finset ι) {c : ι → Swap ο} (hi : Inv prog s)
    (hidle : ∀ j, s.pc j = .idle) (htodo : ∀ i ∈ S, ∃ rest, s.todo i = (c i).toCall :: rest)
    (hfunc : ∀ i ∈ S, (c i).func = .danger_swap)
    (hinj : ∀ i ∈ S, ∀ j ∈ S, (c i).objm1 = (c j).objm1 → i = j) :
    ∃ u, (lts prog obj).Reaches s u ∧ (∀ i ∈ S, u.pc i = .lock2 (c i)) ∧
      ∀ i, i ∉ S → u.pc i = .idle ∧ u.todo i = s.todo i := by
  induction S using Finset.induction_on with
  | empty =>
      exact ⟨s, .refl _ s, fun i hi => absurd hi (Finset.notMem_empty i),
        fun i _ => ⟨hidle i, rfl⟩⟩
  | insert i S hiS ih =>
      have hsub : ∀ j ∈ S, j ∈ insert i S := fun j hj => Finset.mem_insert_of_mem hj
      have hself : i ∈ insert i S := Finset.mem_insert_self i S
      obtain ⟨u, hreach, hlock2, hrest⟩ := ih (fun j hj => htodo j (hsub j hj))
        (fun j hj => hfunc j (hsub j hj)) fun j hj k hk => hinj j (hsub j hj) k (hsub k hk)
      -- The first objects of the threads at `guard2` are others.
      have hfree : u.mtx (c i).objm1 = none := by
        refine (hi.reaches hreach).locked.free fun j hheld => ?_
        by_cases hj : j ∈ S
        · rw [hlock2 j hj] at hheld
          have heq := hinj i hself j (hsub j hj) (List.mem_singleton.mp hheld)
          exact hiS (heq ▸ hj)
        · rw [(hrest j hj).1] at hheld
          cases hheld
      obtain ⟨rest, hcall⟩ := htodo i hself
      obtain ⟨v, hv, hpc, htodo'⟩ := reaches_lock2 prog obj (hrest i hiS).1
        ((hrest i hiS).2.trans hcall) (hfunc i hself) hfree
      refine ⟨v, hreach.trans hv, fun j hj => ?_, fun j hj => ?_⟩
      · rw [hpc]
        by_cases hji : j = i
        · rw [hji, Function.update_self]
        · rw [Function.update_of_ne hji]
          exact hlock2 j (Finset.mem_of_mem_insert_of_ne hj hji)
      · rw [Finset.mem_insert, not_or] at hj
        rw [hpc, Function.update_of_ne hj.1, htodo' j hj.1]
        exact hrest j hj.2

/-- Threads at `guard2`, each of which waits for the first object of another, stay there. -/
theorem Moves.stays {S : Finset ι} {c : ι → Swap ο} (hl : s.Locked)
    (hlock2 : ∀ j ∈ S, s.pc j = .lock2 (c j))
    (hring : ∀ j ∈ S, ∃ k ∈ S, (c j).objm2 = (c k).objm1) (hm : Moves s i s') :
    ∀ j ∈ S, s'.pc j = .lock2 (c j) := by
  by_cases hiS : i ∈ S
  · -- The mutex it waits for is held in `S`, so a thread of `S` cannot have moved.
    exfalso
    have hpc := hlock2 i hiS
    obtain ⟨k, hk, heq⟩ := hring i hiS
    cases hm with
    | locks hlocks hfree =>
        rw [hpc] at hlocks
        cases hlocks with
        | lock2 _ =>
            have hheld : (c i).objm2 ∈ (s.pc k).held := by
              rw [hlock2 k hk, heq]
              exact List.mem_cons_self
            rw [hl.mem_held, hfree] at hheld
            cases hheld
    | unlocks hunlocks =>
        rw [hpc] at hunlocks
        cases hunlocks
    | returns h _ _ => cases hpc.symm.trans h
    | starts h _ => cases hpc.symm.trans h
    | fails h => cases hpc.symm.trans h
    | swap1 h => cases hpc.symm.trans h
    | swap2 h => cases hpc.symm.trans h
    | swap3 h => cases hpc.symm.trans h
  · intro j hj
    have hji : j ≠ i := by
      rintro rfl
      exact hiS hj
    rw [(hm.apart hji).1]
    exact hlock2 j hj

/-- With a ring it cannot always: let each thread of the ring take its first mutex. -/
theorem Ring.hangs (h : Ring prog) :
    ∃ as s, (lts prog obj).exec (lts prog obj).init as = some s ∧
      ∀ bs u, (lts prog obj).exec s bs = some u → ¬ u.Finished := by
  obtain ⟨S, c, ⟨i, hiS⟩, hcalls, hinj, hring⟩ := h
  obtain ⟨s, hs, hidle, hchosen, -⟩ := reaches_chosen obj S fun j hj => (hcalls j hj).2
  have hi := (Inv.init prog obj).reaches hs
  obtain ⟨u, hu, hlock2, -⟩ := reaches_ring obj S hi hidle hchosen
    (fun j hj => (hcalls j hj).1) hinj
  obtain ⟨as, has⟩ := hs.trans hu
  refine ⟨as, u, has, fun bs v hv hfin => ?_⟩
  have hstays := (lts prog obj).exec_inv
    (P := fun s => Inv prog s ∧ ∀ j ∈ S, s.pc j = .lock2 (c j)) ?_ ⟨hi.reaches hu, hlock2⟩ hv
  · cases (hstays.2 i hiS).symm.trans (hfin i).1
  · rintro s a t ⟨hi, hlock2⟩ hstep
    obtain ⟨k, hm⟩ := step_spec hstep
    exact ⟨hi.step hstep, hm.stays hi.locked hlock2 hring⟩

/-- **Deadlock.** The threads can get to where not all calls can return any more exactly where some
of the calls are a ring of `danger_swap`s. `danger_swap` locks the two objects one after the other,
with time between; the other two never wait for one of them with the other in hand. -/
theorem can_hang_iff [Fintype ι] (prog : ι → List (Call ο)) (obj : ο → Data) :
    (∃ as s, (lts prog obj).exec (lts prog obj).init as = some s ∧
      ∀ bs u, (lts prog obj).exec s bs = some u → ¬ u.Finished) ↔ Ring prog := by
  constructor
  · rintro ⟨as, s, has, hnever⟩
    -- Without a ring there is a run from every state that is reached to the end.
    by_contra hring
    obtain ⟨u, ⟨bs, hbs⟩, hfin⟩ := (inv_exec has).can_finish obj hring
    exact hnever bs u hbs hfin
  · exact Ring.hangs obj

end Advance

end Step

end BoostNet.BigObjectMgr
