/-
The two-lock queues of Concurrent: `threadsafe_queue` of day22-ThreadPool,
`threadsafe_queue_ht` of day14-ThreadSafeContainer and `ThreadSafeQue` of day20-Actor.

The head is under `head_mutex`, the tail under `tail_mutex`. A consumer waits with
`head_mutex` for `head.get() != get_tail()` or for the stop flag; `push` changes the tail
under `tail_mutex`, and `Exit` sets the flag under no mutex, and both notify. So a
notification can come after a consumer has found its predicate false and before it
blocks.

The three classes are one definition, and `Kind` says which it is: the order of the tests
in the predicate, whether there is a stop flag, and how many it notifies. A thread is
where it is in the source (`Pc`). Acquiring a mutex is one step, and what is done under
`tail_mutex` is one step with its release. `std::lock` takes both mutexes in one step. A
wait may end spuriously, and that of `wait_and_pop_timeout` by the clock. Nodes are
numbered in the order of the queue: the node behind `n` is `n + 1`.

* `no_lost_wakeup`: no consumer is blocked and forgotten in any run in which each
  notification, if it is the last one in progress, wakes every consumer that is asleep or
  on its way to sleep.
* `lost_wakeup`: a push between a consumer's test and its wait.
-/
import BoostNet.CondVar
import BoostNet.Lts

set_option autoImplicit false

namespace BoostNet.TwoLockQue

/-! ## The classes -/

/-- An operand of the predicate: `head.get() != get_tail()`, or the stop flag. -/
inductive Test where
  | tail
  | stop
  deriving DecidableEq

inductive Kind where
  | threadsafe_queue
  | threadsafe_queue_ht
  | ThreadSafeQue
  deriving DecidableEq

/-- The predicate of the wait, in the order of its evaluation. -/
def Kind.tests : Kind → List Test
  | .threadsafe_queue => [.tail, .stop]
  | .threadsafe_queue_ht => [.tail]
  | .ThreadSafeQue => [.stop, .tail]

/-- There is a stop flag, `bstop` or `_bstop`. -/
def Kind.has_stop : Kind → Bool
  | .threadsafe_queue | .ThreadSafeQue => true
  | .threadsafe_queue_ht => false

/-- `Exit` notifies all; `NotifyStop` notifies one. -/
def Kind.notifies_all : Kind → Bool
  | .threadsafe_queue => true
  | .threadsafe_queue_ht | .ThreadSafeQue => false

/-- What a consumer is doing. `timed_out` is `wait_and_pop_timeout` once its time is over:
`wait_for` evaluates the predicate once more. -/
inductive Reader where
  | wait_and_pop
  | wait_and_pop_timeout
  | timed_out
  | try_pop
  | empty
  deriving DecidableEq

/-- The consumer sleeps when its predicate is false. -/
def Reader.sleeps : Reader → Bool
  | .wait_and_pop | .wait_and_pop_timeout => true
  | .timed_out | .try_pop | .empty => false

/-- What the consumer tests. -/
def Kind.readerTests (k : Kind) : Reader → List Test
  | .wait_and_pop | .wait_and_pop_timeout | .timed_out => k.tests
  | .try_pop | .empty => [.tail]

/-- The calls that the class has. -/
def Kind.calls (k : Kind) : Reader → Bool
  | .wait_and_pop | .try_pop | .empty => true
  | .wait_and_pop_timeout => k == .threadsafe_queue
  | .timed_out => false

/-! ## The threads -/

/-- What a call returns: a value or none, or whether the queue is empty. -/
inductive Res (V : Type*) where
  | value (v : Option V)
  | flag (b : Bool)

/-- What a thread does next. `ts` are the tests that follow, if the one at hand is
false. -/
inductive Pc (V : Type*) where
  | idle
  | lock_head (c : Reader)
  | lock_tail (c : Reader) (ts : List Test)
  | read_tail (c : Reader) (ts : List Test)
  | load_stop (c : Reader) (ts : List Test)
  | block (c : Reader)
  | blocked (c : Reader)
  | woken (c : Reader)
  | check_stop (c : Reader)
  | pop (c : Reader)
  | unlock_head (res : Res V)
  | push_lock (v : V)
  | push_link (v : V)
  | push_notify
  | exit_store
  | exit_notify
  | steal_lock
  | steal
  | steal_unlock (res : Res V)

variable {ι V : Type*}

/-- The predicate is false. -/
def Reader.onFalse (c : Reader) : Pc V :=
  if c.sleeps then .block c else .unlock_head (if c = .empty then .flag true else .value none)

/-- The head is not the tail. -/
def Kind.onTail (k : Kind) : Reader → Pc V
  | .wait_and_pop => if k.has_stop then .check_stop .wait_and_pop else .pop .wait_and_pop
  | .wait_and_pop_timeout => .check_stop .wait_and_pop_timeout
  | .timed_out => .check_stop .timed_out
  | .try_pop => .pop .try_pop
  | .empty => .unlock_head (.flag false)

/-- The next test. -/
def Reader.next (c : Reader) : List Test → Pc V
  | [] => c.onFalse
  | .tail :: ts => .lock_tail c ts
  | .stop :: ts => .load_stop c ts

/-- A thread blocked on `data_cond` goes on by locking `head_mutex` again. -/
def Pc.wake : Pc V → Option (Pc V)
  | .blocked c => some (.woken c)
  | _ => none

/-! ## The queue -/

structure Que (ι V : Type*) where
  head : Nat := 0
  tail : Nat := 0
  data : Nat → Option V := fun _ => none
  bstop : Bool := false
  head_mutex : Option ι := none
  tail_mutex : Option ι := none
  pc : ι → Pc V := fun _ => .idle

inductive Action (ι V : Type*) where
  | call (i : ι) (c : Reader)
  | push (i : ι) (v : V)
  /-- `Exit` or `NotifyStop`. -/
  | exit (i : ι)
  | try_steal (i : ι)
  | step (i : ι)
  /-- `notify_one`, and whom it wakes. -/
  | notify (i : ι) (target : Option ι)
  | spurious (i : ι)
  | timeout (i : ι)

variable [DecidableEq ι]

def Que.goto (s : Que ι V) (i : ι) (p : Pc V) : Que ι V :=
  { s with pc := Function.update s.pc i p }

/-- The next step of a thread inside a call. -/
def Que.stepThread (k : Kind) (s : Que ι V) (i : ι) : Option (Que ι V) :=
  match s.pc i with
  | .idle | .blocked _ | .push_notify => none
  | .lock_head c | .woken c =>
      if s.head_mutex = none then
        some { s.goto i (c.next (k.readerTests c)) with head_mutex := some i }
      else none
  | .lock_tail c ts =>
      if s.tail_mutex = none then
        some { s.goto i (.read_tail c ts) with tail_mutex := some i }
      else none
  | .read_tail c ts =>
      some { s.goto i (if s.head = s.tail then c.next ts else k.onTail c) with
        tail_mutex := none }
  | .load_stop c ts => some (s.goto i (if s.bstop then .check_stop c else c.next ts))
  | .block c => some { s.goto i (.blocked c) with head_mutex := none }
  | .check_stop c => some (s.goto i (if s.bstop then .unlock_head (.value none) else .pop c))
  | .pop _ =>
      some { s.goto i (.unlock_head (.value (s.data s.head))) with head := s.head + 1 }
  | .unlock_head _ => some { s.goto i .idle with head_mutex := none }
  | .push_lock v =>
      if s.tail_mutex = none then some { s.goto i (.push_link v) with tail_mutex := some i }
      else none
  | .push_link v =>
      some { s.goto i .push_notify with
        data := Function.update s.data s.tail (some v)
        tail := s.tail + 1
        tail_mutex := none }
  | .exit_store => some { s.goto i .exit_notify with bstop := true }
  | .exit_notify =>
      if k.notifies_all then
        some { s with pc := Function.update (notifyAll Pc.wake s.pc) i .idle }
      else none
  | .steal_lock =>
      if s.head_mutex = none ∧ s.tail_mutex = none then
        some { s.goto i .steal with head_mutex := some i, tail_mutex := some i }
      else none
  | .steal =>
      if s.head = s.tail then some (s.goto i (.steal_unlock (.value none)))
      else
        some { s.goto i (.steal_unlock (.value (s.data (s.tail - 1)))) with tail := s.tail - 1 }
  | .steal_unlock _ => some { s.goto i .idle with head_mutex := none, tail_mutex := none }

/-- The thread is about to notify one. -/
def Kind.notifiesOne (k : Kind) : Pc V → Bool
  | .push_notify => true
  | .exit_notify => !k.notifies_all
  | _ => false

variable [Fintype ι]

def Que.step (k : Kind) (s : Que ι V) : Action ι V → Option (Que ι V)
  | .call i c =>
      match s.pc i with
      | .idle => if k.calls c then some (s.goto i (.lock_head c)) else none
      | _ => none
  | .push i v =>
      match s.pc i with
      | .idle => some (s.goto i (.push_lock v))
      | _ => none
  | .exit i =>
      match s.pc i with
      | .idle => if k.has_stop then some (s.goto i .exit_store) else none
      | _ => none
  | .try_steal i =>
      match s.pc i with
      | .idle => if k = .threadsafe_queue then some (s.goto i .steal_lock) else none
      | _ => none
  | .step i => s.stepThread k i
  | .notify i target =>
      if k.notifiesOne (s.pc i) then
        (notifyOne Pc.wake s.pc target).map fun pc =>
          { s with pc := Function.update pc i .idle }
      else none
  | .spurious i => (s.pc i).wake.map (s.goto i)
  | .timeout i =>
      match s.pc i with
      | .blocked .wait_and_pop_timeout | .woken .wait_and_pop_timeout =>
          some (s.goto i (.woken .timed_out))
      | _ => none

def system (k : Kind) (ι V : Type*) [DecidableEq ι] [Fintype ι] : Lts (Que ι V) (Action ι V) where
  init := {}
  step := Que.step k

/-! ## No lost wakeup, and the condition -/

/-- A `push` or an `Exit` is in progress. -/
def Pc.notifying : Pc V → Bool
  | .push_lock _ | .push_link _ | .push_notify | .exit_store | .exit_notify => true
  | _ => false

/-- The operand `x` is true. -/
def Que.operand (s : Que ι V) : Test → Bool
  | .tail => s.head != s.tail
  | .stop => s.bstop

omit [DecidableEq ι] [Fintype ι] in
/-- No consumer is blocked in `wait_for_data`, without a wakeup on its way, while its
predicate is true and no `push` or `Exit` is in progress. -/
def Que.NoLostWakeup (k : Kind) (s : Que ι V) : Prop :=
  ∀ j, s.pc j = .blocked .wait_and_pop → (∃ x ∈ k.tests, s.operand x = true) →
    ∃ i, (s.pc i).notifying = true

/-- A consumer in `wait_for_data` that does not look at the operand `x` again before it
sleeps. -/
def Pc.Late (x : Test) : Pc V → Bool
  | .lock_tail c ts | .read_tail c ts => x != .tail && c == .wait_and_pop && !ts.contains x
  | .load_stop c ts => x != .stop && c == .wait_and_pop && !ts.contains x
  | .block c | .blocked c => c == .wait_and_pop
  | _ => false

/-- The notification is next. -/
def Pc.notifies : Pc V → Bool
  | .push_notify | .exit_notify => true
  | _ => false

/-- When thread `i` notifies the threads in `reached` and is the last of the `push` and
`Exit` in progress, it reaches every consumer that does not see for itself that its
predicate is true. -/
def Que.InTime (k : Kind) (s : Que ι V) (i : ι) (reached : ι → Prop) : Prop :=
  (s.pc i).notifies = true → (∀ j, j ≠ i → (s.pc j).notifying = false) →
    ∀ x ∈ k.tests, s.operand x = true → ∀ j, (s.pc j).Late x = true →
      (s.pc j).wake.isSome = true ∧ reached j

/-- Every notification is in time. -/
def InTime (k : Kind) (s : Que ι V) : Action ι V → Prop
  | .step i => s.InTime k i fun _ => True
  | .notify i target => s.InTime k i fun j => target = some j
  | .call _ _ | .push _ _ | .exit _ | .try_steal _ | .spurious _ | .timeout _ => True

instance (k : Kind) (s : Que ι V) (i : ι) (reached : ι → Prop) [DecidablePred reached] :
    Decidable (s.InTime k i reached) := by
  unfold Que.InTime
  infer_instance

instance (k : Kind) (s : Que ι V) : ∀ a : Action ι V, Decidable (InTime k s a)
  | .step i => inferInstanceAs (Decidable (s.InTime k i fun _ => True))
  | .notify i target => inferInstanceAs (Decidable (s.InTime k i fun j => target = some j))
  | .call _ _ | .push _ _ | .exit _ | .try_steal _ | .spurious _ | .timeout _ =>
      inferInstanceAs (Decidable True)

/-! ## The invariant -/

/-- The thread holds `head_mutex`. -/
def Pc.holdsHead : Pc V → Bool
  | .lock_tail _ _ | .read_tail _ _ | .load_stop _ _ | .block _ | .check_stop _ | .pop _
  | .unlock_head _ | .steal | .steal_unlock _ => true
  | _ => false

/-- What a consumer that has seen its predicate true knows. -/
def Pc.Seen (s : Que ι V) : Pc V → Prop
  | .check_stop _ => s.head ≠ s.tail ∨ s.bstop = true
  | .pop _ => s.head ≠ s.tail
  | _ => True

structure Inv (k : Kind) (s : Que ι V) : Prop where
  order : s.head ≤ s.tail
  mutex : ∀ j, (s.pc j).holdsHead = true → s.head_mutex = some j
  seen : ∀ j, (s.pc j).Seen s
  covered : ∀ x ∈ k.tests, Covered (fun p : Pc V => p.Late x = true) (fun p => p.notifying = true)
    (s.operand x = true) s.pc

variable {k : Kind} {s t : Que ι V} {i : ι} {c : Reader} {p q : Pc V} {x : Test}

/-! ## Where a thread goes -/

section Next

omit [DecidableEq ι] [Fintype ι]

@[simp] theorem operand_tail : s.operand .tail = true ↔ s.head ≠ s.tail := bne_iff_ne

@[simp] theorem operand_stop : s.operand .stop = true ↔ s.bstop = true := Iff.rfl

/-- A blocked thread is in a wait. -/
theorem wake_eq_some : p.wake = some q ↔ ∃ c, p = .blocked c ∧ q = .woken c := by
  cases p <;> simp [Pc.wake, eq_comm]

theorem notifies_of_notifiesOne (h : k.notifiesOne p = true) : p.notifies = true := by
  cases p <;> simp_all [Kind.notifiesOne, Pc.notifies]

@[simp] theorem seen_next (ts : List Test) : (c.next ts).Seen s := by
  match ts with
  | [] => cases c <;> trivial
  | .tail :: ts => trivial
  | .stop :: ts => trivial

/-- A consumer that goes on to its next test is late for the operands it does not test
any more. -/
theorem late_next {ts : List Test} (h : (c.next ts : Pc V).Late x = true) :
    c = .wait_and_pop ∧ x ∉ ts := by
  match ts with
  | [] => cases c <;> simp_all [Reader.next, Reader.onFalse, Reader.sleeps, Pc.Late]
  | .tail :: ts | .stop :: ts => simp_all [Reader.next, Pc.Late]

/-- It was late for them before, or has just found the operand false. -/
theorem late_of_late_next_tail {ts : List Test} (h : (c.next ts : Pc V).Late x = true) :
    (Pc.read_tail c ts : Pc V).Late x = true ∨ x = .tail := by
  obtain ⟨rfl, hx⟩ := late_next h
  by_cases htail : x = .tail
  · exact Or.inr htail
  · exact Or.inl (by simp [Pc.Late, htail, hx])

theorem late_of_late_next_stop {ts : List Test} (h : (c.next ts : Pc V).Late x = true) :
    (Pc.load_stop c ts : Pc V).Late x = true ∨ x = .stop := by
  obtain ⟨rfl, hx⟩ := late_next h
  by_cases hstop : x = .stop
  · exact Or.inr hstop
  · exact Or.inl (by simp [Pc.Late, hstop, hx])

@[simp] theorem late_onTail : (k.onTail c : Pc V).Late x = false := by
  cases k <;> cases c <;> rfl

theorem seen_onTail (h : s.head ≠ s.tail) : (k.onTail c).Seen s := by
  cases k <;> cases c <;> simp [Kind.onTail, Kind.has_stop, Pc.Seen, h]

/-- A consumer begins with all the tests of its predicate. -/
theorem not_late_readerTests (hx : x ∈ k.tests) :
    (c.next (k.readerTests c) : Pc V).Late x = false := by
  rw [Bool.eq_false_iff]
  intro h
  obtain ⟨rfl, h⟩ := late_next h
  exact h hx

end Next

/-! ## One step keeps the invariant -/

omit [Fintype ι] in
/-- A thread moves, and takes or releases mutexes: what it keeps of the invariant. -/
theorem Inv.goto (h : Inv k s) {hm tm : Option ι}
    (hhm : hm = s.head_mutex ∨ s.head_mutex = none ∨ (s.pc i).holdsHead = true)
    (hmutex : p.holdsHead = true → hm = some i) (hseen : p.Seen s)
    (hlate : ∀ x ∈ k.tests, p.Late x = true → (s.pc i).Late x = true ∨ ¬ s.operand x = true)
    (hnotifying : (s.pc i).notifying = true → p.notifying = true) :
    Inv k { s.goto i p with head_mutex := hm, tail_mutex := tm } where
  order := h.order
  mutex := by
    intro j hj
    by_cases hji : j = i
    · subst hji
      simp only [Que.goto, Function.update_self] at hj
      exact hmutex hj
    · simp only [Que.goto, Function.update_of_ne hji] at hj
      have hjs := h.mutex j hj
      rcases hhm with hhm | hnone | hi
      · exact hhm.trans hjs
      · rw [hnone] at hjs
        exact absurd hjs nofun
      · rw [h.mutex i hi] at hjs
        exact absurd (Option.some.inj hjs).symm hji
  seen := by
    intro j
    by_cases hji : j = i
    · subst hji
      simp only [Que.goto, Function.update_self]
      exact hseen
    · simp only [Que.goto, Function.update_of_ne hji]
      exact h.seen j
  covered := fun x hx => (h.covered x hx).update (hlate x hx) Or.inl hnotifying

omit [DecidableEq ι] [Fintype ι] in
/-- Only one thread holds `head_mutex`. -/
theorem Inv.not_holdsHead (h : Inv k s) (hi : (s.pc i).holdsHead = true) {j : ι} (hji : j ≠ i) :
    (s.pc j).holdsHead = false := by
  rw [Bool.eq_false_iff]
  intro hj
  have hij := (h.mutex i hi).symm.trans (h.mutex j hj)
  exact hji (Option.some.inj hij).symm

omit [DecidableEq ι] [Fintype ι] in
/-- A thread without `head_mutex` has seen nothing that it relies on. -/
theorem seen_of_not_holdsHead (h : p.holdsHead = false) : p.Seen s := by
  cases p <;> simp_all [Pc.holdsHead, Pc.Seen]

omit [Fintype ι] in
/-- The thread that holds `head_mutex` takes a node from the head or from the tail. -/
theorem Inv.take (h : Inv k s) (hi : (s.pc i).holdsHead = true)
    (hseen : ∀ t : Que ι V, p.Seen t) (hlate : ∀ x, p.Late x = false)
    (hnotifying : (s.pc i).notifying = false) (hne : s.head ≠ s.tail) {head tail : Nat}
    (horder : head ≤ tail) :
    Inv k { s.goto i p with head := head, tail := tail } where
  order := horder
  mutex := by
    intro j hj
    by_cases hji : j = i
    · rw [hji]
      exact h.mutex i hi
    · simp only [Que.goto, Function.update_of_ne hji] at hj
      exact h.mutex j hj
  seen := by
    intro j
    by_cases hji : j = i
    · simp only [hji, Que.goto, Function.update_self]
      exact hseen _
    · simp only [Que.goto, Function.update_of_ne hji]
      exact seen_of_not_holdsHead (h.not_holdsHead hi hji)
  covered := by
    intro x hx
    refine (h.covered x hx).update (fun hl => absurd hl (by simp [hlate x])) ?_
      (fun hn => absurd hn (by simp [hnotifying]))
    intro hr
    left
    cases x with
    | tail => exact operand_tail.mpr hne
    | stop => exact hr

omit [Fintype ι] in
/-- A thread that changes what consumers wait for is notifying. -/
theorem Inv.produce (h : Inv k s) {tail : Nat} {bstop : Bool} {data : Nat → Option V}
    {tm : Option ι} (hp : p.holdsHead = false)
    (hlate : ∀ x, p.Late x = false) (hnotifying : p.notifying = true) (htail : s.tail ≤ tail)
    (hseen : s.head ≠ s.tail → s.head ≠ tail) (hstop : s.bstop = true → bstop = true) :
    Inv k { s.goto i p with tail := tail, bstop := bstop, data := data, tail_mutex := tm } where
  order := h.order.trans htail
  mutex := by
    intro j hj
    by_cases hji : j = i
    · simp [hji, Que.goto, hp] at hj
    · simp only [Que.goto, Function.update_of_ne hji] at hj
      exact h.mutex j hj
  seen := by
    intro j
    by_cases hji : j = i
    · simp only [hji, Que.goto, Function.update_self]
      exact seen_of_not_holdsHead hp
    · simp only [Que.goto, Function.update_of_ne hji]
      have hj := h.seen j
      cases hpc : s.pc j <;> rw [hpc] at hj <;> simp_all [Pc.Seen]
      exact hj.imp hseen hstop
  covered := by
    intro x hx
    exact (h.covered x hx).update (fun hl => absurd hl (by simp [hlate x]))
      (fun _ => Or.inr hnotifying) (fun _ => hnotifying)

omit [Fintype ι] in
/-- Thread `i` notifies, in time, and is done. -/
theorem Inv.notified (h : Inv k s) {pc : ι → Pc V} {reached : ι → Prop}
    (hpc : Notified Pc.wake reached s.pc pc) (hG : s.InTime k i reached)
    (hnotifies : (s.pc i).notifies = true) :
    Inv k { s with pc := Function.update pc i .idle } where
  order := h.order
  mutex := by
    intro j hj
    by_cases hji : j = i
    · simp [hji, Pc.holdsHead] at hj
    · simp only [Function.update_of_ne hji] at hj
      rcases hpc j with hwoken | ⟨hsame, -⟩
      · obtain ⟨c, -, hwoken⟩ := wake_eq_some.mp hwoken
        simp [hwoken, Pc.holdsHead] at hj
      · rw [hsame] at hj
        exact h.mutex j hj
  seen := by
    intro j
    by_cases hji : j = i
    · simp [hji, Pc.Seen]
    · simp only [Function.update_of_ne hji]
      rcases hpc j with hwoken | ⟨hsame, -⟩
      · obtain ⟨c, -, hwoken⟩ := wake_eq_some.mp hwoken
        simp [hwoken, Pc.Seen]
      · rw [hsame]
        exact h.seen j
  covered := by
    intro x hx
    apply Covered.notified hpc
    · intro p q hwoken
      obtain ⟨c, rfl, rfl⟩ := wake_eq_some.mp hwoken
      exact ⟨nofun, nofun⟩
    · exact nofun
    · intro hother hr
      exact hG hnotifies (fun j hji => Bool.eq_false_iff.mpr (hother j hji)) x hx hr

/-! ## The step lemma -/

theorem inv_init : Inv k (system k ι V).init where
  order := Nat.le_refl 0
  mutex := nofun
  seen := fun _ => trivial
  covered := fun _ _ => Covered.of_none nofun

omit [Fintype ι] in
/-- The next step of a thread keeps the invariant. -/
theorem inv_stepThread (h : Inv k s) (hG : s.InTime k i fun _ => True)
    (hstep : s.stepThread k i = some t) : Inv k t := by
  have hseen := h.seen i
  unfold Que.stepThread at hstep
  cases hpc : s.pc i <;>
    simp only [hpc, reduceCtorEq, Option.ite_none_right_eq_some, Option.some.injEq] at hstep hseen
  case lock_head c | woken c =>
    obtain ⟨hfree, rfl⟩ := hstep
    exact h.goto (Or.inr (Or.inl hfree)) (fun _ => rfl) (seen_next _)
      (fun x hx hl => absurd hl (by simp [not_late_readerTests hx])) (by simp [hpc, Pc.notifying])
  case lock_tail c ts =>
    obtain ⟨hfree, rfl⟩ := hstep
    exact h.goto (Or.inl rfl) (fun _ => h.mutex i (by rw [hpc]; rfl)) trivial
      (fun x hx hl => Or.inl (by rw [hpc]; exact hl)) (by simp [hpc, Pc.notifying])
  case read_tail c ts =>
    -- the thread has read `tail` under its mutex: from here on it may be late for a push
    subst hstep
    have hmutex := h.mutex i (by rw [hpc]; rfl)
    by_cases heq : s.head = s.tail
    · rw [if_pos heq]
      refine h.goto (Or.inl rfl) (fun _ => hmutex) (seen_next _) (fun x hx hl => ?_)
        (by simp [hpc, Pc.notifying])
      rw [hpc]
      exact (late_of_late_next_tail hl).imp_right (fun hx => by simp [hx, heq])
    · rw [if_neg heq]
      exact h.goto (Or.inl rfl) (fun _ => hmutex) (seen_onTail heq)
        (fun x hx hl => absurd hl (by simp)) (by simp [hpc, Pc.notifying])
  case load_stop c ts =>
    -- the second half of the predicate, `bstop`, which is set without any lock
    subst hstep
    have hmutex := h.mutex i (by rw [hpc]; rfl)
    by_cases hstop : s.bstop = true
    · rw [if_pos hstop]
      exact h.goto (Or.inl rfl) (fun _ => hmutex) (Or.inr hstop)
        (fun x hx hl => absurd hl nofun) (by simp [hpc, Pc.notifying])
    · rw [if_neg hstop]
      refine h.goto (Or.inl rfl) (fun _ => hmutex) (seen_next _) (fun x hx hl => ?_)
        (by simp [hpc, Pc.notifying])
      rw [hpc]
      exact (late_of_late_next_stop hl).imp_right (fun hx => by simp [hx, hstop])
  case block c =>
    -- it goes to sleep without the tail mutex, hence the condition `InTime` on the pushes
    subst hstep
    exact h.goto (Or.inr (Or.inr (by rw [hpc]; rfl))) nofun trivial
      (fun x hx hl => Or.inl (by rw [hpc]; exact hl)) (by simp [hpc, Pc.notifying])
  case check_stop c =>
    subst hstep
    have hmutex := h.mutex i (by rw [hpc]; rfl)
    by_cases hstop : s.bstop = true
    · rw [if_pos hstop]
      exact h.goto (Or.inl rfl) (fun _ => hmutex) trivial nofun (by simp [hpc, Pc.notifying])
    · rw [if_neg hstop]
      exact h.goto (Or.inl rfl) (fun _ => hmutex) (hseen.resolve_right hstop) nofun
        (by simp [hpc, Pc.notifying])
  case pop c =>
    -- the head is behind the tail, as was seen under the lock of the head
    subst hstep
    exact h.take (p := .unlock_head _) (by rw [hpc]; rfl) (fun _ => trivial) (fun _ => rfl)
      (by rw [hpc]; rfl) hseen (Nat.lt_of_le_of_ne h.order hseen)
  case unlock_head res | steal_unlock res =>
    subst hstep
    exact h.goto (Or.inr (Or.inr (by rw [hpc]; rfl))) nofun trivial nofun
      (by simp [hpc, Pc.notifying])
  case push_lock v =>
    obtain ⟨-, rfl⟩ := hstep
    exact h.goto (Or.inl rfl) nofun trivial nofun (fun _ => rfl)
  case push_link v =>
    -- the node is linked, and the notification is still to come
    subst hstep
    have horder := h.order
    exact h.produce rfl (fun _ => rfl) rfl (Nat.le_succ _) (fun _ => by omega) id
  case exit_store =>
    -- `bstop` is set like a value that is produced for everybody
    subst hstep
    exact h.produce rfl (fun _ => rfl) rfl (Nat.le_refl _) id (fun _ => rfl)
  case exit_notify =>
    -- all that are asleep are woken; those between the test and the sleep are not
    obtain ⟨-, rfl⟩ := hstep
    exact h.notified (notified_all _ _) hG (by rw [hpc]; rfl)
  case steal_lock =>
    obtain ⟨⟨hfree, -⟩, rfl⟩ := hstep
    exact h.goto (Or.inr (Or.inl hfree)) (fun _ => rfl) trivial nofun (by simp [hpc, Pc.notifying])
  case steal =>
    have hmutex := h.mutex i (by rw [hpc]; rfl)
    by_cases heq : s.head = s.tail
    · rw [if_pos heq, Option.some.injEq] at hstep
      subst hstep
      exact h.goto (Or.inl rfl) (fun _ => hmutex) trivial nofun (by simp [hpc, Pc.notifying])
    · rw [if_neg heq, Option.some.injEq] at hstep
      subst hstep
      have horder : s.head ≤ s.tail - 1 := Nat.le_pred_of_lt (Nat.lt_of_le_of_ne h.order heq)
      exact h.take (p := .steal_unlock _) (by rw [hpc]; rfl) (fun _ => trivial) (fun _ => rfl)
        (by rw [hpc]; rfl) heq horder

/-- **The step lemma.** Every step that meets `InTime` keeps the invariant. -/
theorem inv_step (s : Que ι V) (a : Action ι V) (t : Que ι V) (h : Inv k s) (hG : InTime k s a)
    (hstep : (system k ι V).step s a = some t) : Inv k t := by
  change s.step k a = some t at hstep
  cases a with
  | call i c | exit i | try_steal i =>
      unfold Que.step at hstep
      cases hpc : s.pc i <;>
        simp only [hpc, reduceCtorEq, Option.ite_none_right_eq_some, Option.some.injEq] at hstep
      obtain ⟨-, rfl⟩ := hstep
      exact h.goto (Or.inl rfl) nofun trivial nofun (by simp [hpc, Pc.notifying])
  | push i v =>
      unfold Que.step at hstep
      cases hpc : s.pc i <;> simp only [hpc, reduceCtorEq, Option.some.injEq] at hstep
      subst hstep
      exact h.goto (Or.inl rfl) nofun trivial nofun (fun _ => rfl)
  | step i => exact inv_stepThread h hG hstep
  | notify i target =>
      obtain ⟨hone, hstep⟩ := Option.ite_none_right_eq_some.mp hstep
      obtain ⟨pc, hpc, rfl⟩ := Option.map_eq_some_iff.mp hstep
      exact h.notified (notified_one hpc) hG (notifies_of_notifiesOne hone)
  | spurious i =>
      obtain ⟨q, hq, rfl⟩ := Option.map_eq_some_iff.mp hstep
      obtain ⟨c, hblocked, rfl⟩ := wake_eq_some.mp hq
      exact h.goto (Or.inl rfl) nofun trivial nofun (by simp [hblocked, Pc.notifying])
  | timeout i =>
      simp only [Que.step] at hstep
      split at hstep
      case h_3 => exact absurd hstep nofun
      all_goals
        rename_i hpc
        rw [Option.some.injEq] at hstep
        subst hstep
        exact h.goto (Or.inl rfl) nofun trivial nofun (by simp [hpc, Pc.notifying])

/-! ## No lost wakeup -/

/-- **No lost wakeup**, in all three classes, in every run in which each notification is in time.
The waiting side sleeps on the head mutex while the pushing side holds the tail mutex or none, so
nothing in the code keeps a notification out of the gap between the test and the sleep. -/
theorem no_lost_wakeup (k : Kind) (as : List (Action ι V))
    (hG : (system k ι V).Always (InTime k) (system k ι V).init as) :
    (system k ι V).Along (Que.NoLostWakeup k) (system k ι V).init as :=
  (system k ι V).along_of_always
    (fun _ h j hj hready => by
      obtain ⟨x, hx, hr⟩ := hready
      exact h.covered x hx j (by rw [hj]; rfl) hr)
    inv_step inv_init hG

/-- A consumer blocks, and a `push` wakes it. -/
theorem no_lost_wakeup_inTime :
    (system .threadsafe_queue Bool Nat).Along (Que.NoLostWakeup .threadsafe_queue)
      (system .threadsafe_queue Bool Nat).init
      [.call false .wait_and_pop, .step false, .step false, .step false, .step false,
        .step false, .push true 7, .step true, .step true, .notify true (some false)] :=
  no_lost_wakeup .threadsafe_queue _ (by decide)

/-- The consumer `false` finds both operands false; the `push` of `true` notifies nobody;
then the consumer blocks. -/
theorem lost_wakeup : ¬ (system .threadsafe_queue Bool Nat).Along
    (Que.NoLostWakeup .threadsafe_queue) (system .threadsafe_queue Bool Nat).init
    [.call false .wait_and_pop, .step false, .step false, .step false, .step false,
      .push true 7, .step true, .step true, .notify true none, .step false] := by
  intro h
  obtain ⟨i, hi⟩ := Lts.Along.last _ h rfl false rfl ⟨.tail, by decide, rfl⟩
  revert hi
  revert i
  decide

end BoostNet.TwoLockQue
