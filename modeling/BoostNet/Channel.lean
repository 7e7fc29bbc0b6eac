/-
`Channel` in Concurrent/day08-Actor/CppCSP: a queue with a capacity, under one mutex with
two condition variables.

Any number of threads send, receive and close, any number of times. `send` waits until
there is room, `receive` until there is a value, and each notifies one waiter of the other
side; `close` sets `closed_` and notifies everybody. All of that is done with `mtx_` held.
Capacity 0 is treated as 1. A notification wakes any one of those that are blocked, and a
wait may end spuriously; who has been woken competes with new calls for `mtx_`.

A call returns when it releases `mtx_`, and is in the log from then. Between its push or
pop and that nobody else can see the queue.

No waiter is forgotten because there are never more items a waiter could use than threads
that are coming to use them or to notify (`Counted`).

* `channel`: the queue, the log and the waiters, after any run.
-/
import Mathlib.Algebra.GroupWithZero.Nat
import BoostNet.CondVar
import BoostNet.History
import BoostNet.Lts
import BoostNet.Threads

set_option autoImplicit false

namespace BoostNet.Channel

inductive Op (T : Type*) where
  | send (value : T)
  | receive

/-- A call that has returned, and `close` when it has set `closed_`. -/
inductive Event (T : Type*) where
  | send (value : T) (ok : Bool)
  | receive (value : Option T)
  | close

/-- Where a thread is. -/
inductive Pc (T : Type*) where
  | idle
  | lock (op : Op T)
  /-- The predicate of the wait. -/
  | check (op : Op T)
  | block (op : Op T)
  | blocked (op : Op T)
  | woken (op : Op T)
  /-- After the wait. -/
  | body (op : Op T)
  | notify_one (e : Event T)
  | unlock (e : Event T)
  /-- `close`. -/
  | close_lock
  | close
  | notify_all_producer
  | notify_all_consumer
  | close_unlock

/-- Who waits on which condition variable. -/
inductive Side where
  | producer
  | consumer
  deriving DecidableEq

variable {ι T : Type*}

def Op.side : Op T → Side
  | .send _ => .producer
  | .receive => .consumer

/-- Whom a call notifies that returns with `e`. -/
def Event.notifies : Event T → Side
  | .send _ _ => .consumer
  | .receive _ | .close => .producer

/-- What waits on the condition variable of `side` and is woken. -/
def wake (side : Side) : Pc T → Option (Pc T)
  | .blocked op => if op.side = side then some (.woken op) else none
  | _ => none

structure Sys (ι T : Type*) where
  queue : List T := []
  mtx : Option ι := none
  closed : Bool := false
  pc : ι → Pc T := fun _ => .idle
  log : List (Event T) := []

/-- The predicates of the two waits. -/
def Sys.predicate (capacity : Nat) (s : Sys ι T) : Op T → Bool
  | .send _ => (capacity == 0 && s.queue.isEmpty) || decide (s.queue.length < capacity) || s.closed
  | .receive => !s.queue.isEmpty || s.closed

variable [DecidableEq ι]

def Sys.goto (s : Sys ι T) (i : ι) (p : Pc T) : Sys ι T := { s with pc := Function.update s.pc i p }

/-- `lock`, to go on at `p`. -/
def Sys.lock (s : Sys ι T) (i : ι) (p : Pc T) : Option (Sys ι T) :=
  match s.mtx with
  | none => some { s.goto i p with mtx := some i }
  | some _ => none

/-- What `send` and `receive` do after the wait. -/
def Sys.body (s : Sys ι T) (i : ι) : Op T → Option (Sys ι T)
  | .send value =>
      if s.closed then some (s.goto i (.unlock (.send value false)))
      else some { s.goto i (.notify_one (.send value true)) with queue := s.queue ++ [value] }
  | .receive =>
      if s.closed && s.queue.isEmpty then some (s.goto i (.unlock (.receive none)))
      else
        match s.queue with
        | [] => none
        | value :: rest =>
            some { s.goto i (.notify_one (.receive (some value))) with queue := rest }

/-- A step of a thread, but for `notify_one`. -/
def Sys.run (capacity : Nat) (s : Sys ι T) (i : ι) : Option (Sys ι T) :=
  match s.pc i with
  | .idle | .blocked _ | .notify_one _ => none
  | .lock op | .woken op => s.lock i (.check op)
  | .check op => some (s.goto i (if s.predicate capacity op then .body op else .block op))
  | .block op => some { s.goto i (.blocked op) with mtx := none }
  | .body op => s.body i op
  | .unlock e => some { s.goto i .idle with mtx := none, log := s.log ++ [e] }
  | .close_lock => s.lock i .close
  | .close =>
      some { s.goto i .notify_all_producer with closed := true, log := s.log ++ [.close] }
  | .notify_all_producer =>
      some { s with
        pc := Function.update (notifyAll (wake .producer) s.pc) i .notify_all_consumer }
  | .notify_all_consumer =>
      some { s with pc := Function.update (notifyAll (wake .consumer) s.pc) i .close_unlock }
  | .close_unlock => some { s.goto i .idle with mtx := none }

inductive Action (ι T : Type*) where
  | call (i : ι) (op : Op T)
  | close (i : ι)
  | run (i : ι)
  /-- `notify_one`, and whom it wakes. -/
  | notify_one (i : ι) (target : Option ι)
  | spurious (i : ι)

def Sys.step [Fintype ι] (capacity : Nat) (s : Sys ι T) : Action ι T → Option (Sys ι T)
  | .call i op =>
      match s.pc i with
      | .idle => some (s.goto i (.lock op))
      | _ => none
  | .close i =>
      match s.pc i with
      | .idle => some (s.goto i .close_lock)
      | _ => none
  | .run i => s.run capacity i
  | .notify_one i target =>
      match s.pc i with
      | .notify_one e =>
          (notifyOne (wake e.notifies) s.pc target).map fun pc =>
            { s with pc := Function.update pc i (.unlock e) }
      | _ => none
  | .spurious i =>
      match s.pc i with
      | .blocked op => some (s.goto i (.woken op))
      | _ => none

def system (capacity : Nat) (ι T : Type*) [Fintype ι] [DecidableEq ι] :
    Lts (Sys ι T) (Action ι T) where
  init := {}
  step := Sys.step capacity

/-! ## What should hold -/

/-- The values of the successful sends. -/
def sent (log : List (Event T)) : List T :=
  log.filterMap fun
    | .send value true => some value
    | _ => none

/-- The values of the successful receives. -/
def received (log : List (Event T)) : List T :=
  log.filterMap fun
    | .receive value => value
    | _ => none

/-- The result of a call is right, after the log. -/
def Event.Right (log : List (Event T)) : Event T → Prop
  | .send _ ok => ok = true ↔ Event.close ∉ log
  | .receive none => Event.close ∈ log ∧ received log = sent log
  | .receive (some _) | .close => True

/-- The thread is neither blocked nor outside the channel. -/
def Pc.Active (p : Pc T) : Prop := p ≠ .idle ∧ ∀ op, p ≠ .blocked op

structure Right (capacity : Nat) (s : Sys ι T) : Prop where
  /-- What has been received has been sent, in the same order, each once. -/
  fifo : received s.log <+: sent s.log
  /-- What has been sent and not received is queued. -/
  none_lost : s.mtx = none → received s.log ++ s.queue = sent s.log
  bounded : s.queue.length ≤ max capacity 1
  results : ∀ log e later, s.log = log ++ e :: later → e.Right log
  /-- Where a predicate is true, and a thread is blocked for it, somebody is active. -/
  no_lost_wakeup : ∀ i op, s.pc i = .blocked op → s.predicate capacity op = true →
    ∃ j, (s.pc j).Active

/-! ## The invariant -/

/-- How many threads of the side can go on. -/
def room (capacity : Nat) (queue : List T) : Side → Nat
  | .producer => max capacity 1 - queue.length
  | .consumer => queue.length

/-- The thread is going to use an item of the side, or to notify it. -/
def Pc.coming (side : Side) : Pc T → Nat
  | .lock op | .check op | .woken op | .body op => if op.side = side then 1 else 0
  | .notify_one e => if e.notifies = side then 1 else 0
  | .idle | .block _ | .blocked _ | .unlock _ | .close_lock | .close | .notify_all_producer
  | .notify_all_consumer | .close_unlock => 0

/-- The thread does not look at its predicate again before it sleeps. -/
def Pc.late (side : Side) : Pc T → Bool
  | .block op | .blocked op => op.side = side
  | .idle | .lock _ | .check _ | .woken _ | .body _ | .notify_one _ | .unlock _ | .close_lock
  | .close | .notify_all_producer | .notify_all_consumer | .close_unlock => false

/-- The thread is a `close` that has still to notify the side. -/
def Pc.wakes (side : Side) : Pc T → Bool
  | .notify_all_producer => true
  | .notify_all_consumer => side = .consumer
  | .idle | .lock _ | .check _ | .block _ | .blocked _ | .woken _ | .body _ | .notify_one _
  | .unlock _ | .close_lock | .close | .close_unlock => false

/-- The thread holds `mtx_`. -/
def Pc.inside : Pc T → Bool
  | .check _ | .block _ | .body _ | .notify_one _ | .unlock _ | .close | .notify_all_producer
  | .notify_all_consumer | .close_unlock => true
  | .idle | .lock _ | .blocked _ | .woken _ | .close_lock => false

/-- What the result of a call says of the channel. -/
def Event.Known (closed : Bool) (queue : List T) : Event T → Prop
  | .send _ ok => ok = true ↔ closed = false
  | .receive none => closed = true ∧ queue = []
  | .receive (some _) => True
  | .close => False

/-- What the holder of `mtx_` knows. -/
def Pc.Knows (capacity : Nat) (closed : Bool) (queue : List T) : Pc T → Prop
  | .block op => closed = false ∧ room capacity queue op.side = 0
  | .body op => closed = true ∨ 0 < room capacity queue op.side
  | .notify_one e | .unlock e => e.Known closed queue
  | .notify_all_producer | .notify_all_consumer => closed = true
  | .idle | .lock _ | .check _ | .blocked _ | .woken _ | .close_lock | .close
  | .close_unlock => True

/-- The queue before a call returns that has pushed or popped. -/
def Event.Settles (queue : List T) (log : List (Event T)) : Event T → Prop
  | .send value true => ∃ before, queue = before ++ [value] ∧ received log ++ before = sent log
  | .receive (some value) => received log ++ value :: queue = sent log
  | .send _ false | .receive none | .close => received log ++ queue = sent log

/-- The queue and the log, as the holder of `mtx_` has left them. -/
def Pc.Settled (queue : List T) (log : List (Event T)) : Pc T → Prop
  | .notify_one e | .unlock e => e.Settles queue log
  | .idle | .lock _ | .check _ | .block _ | .blocked _ | .woken _ | .body _ | .close_lock
  | .close | .notify_all_producer | .notify_all_consumer | .close_unlock =>
      received log ++ queue = sent log

omit [DecidableEq ι] in
/-- Where the holder of `mtx_` is. -/
def holder (mtx : Option ι) (pc : ι → Pc T) : Pc T := mtx.elim .idle pc

section Invariant

variable [Fintype ι]

omit [DecidableEq ι] in
/-- If somebody is late, there are no more items than threads that are coming. -/
def Counted (capacity : Nat) (queue : List T) (pc : ι → Pc T) (side : Side) : Prop :=
  (∃ j, (pc j).late side = true) → room capacity queue side ≤ ∑ j, (pc j).coming side

structure Inv (capacity : Nat) (s : Sys ι T) : Prop where
  mtx : Guarded Pc.inside s.mtx s.pc
  knows : (holder s.mtx s.pc).Knows capacity s.closed s.queue
  settled : (holder s.mtx s.pc).Settled s.queue s.log
  closed : s.closed = true ↔ Event.close ∈ s.log
  results : ∀ log e later, s.log = log ++ e :: later → e.Right log
  bounded : s.queue.length ≤ max capacity 1
  counted : s.closed = false → ∀ side, Counted capacity s.queue s.pc side
  woken : s.closed = true → ∀ side j, (s.pc j).late side = true →
    (holder s.mtx s.pc).wakes side = true

variable {capacity : Nat} {s t : Sys ι T} {i : ι} {p : Pc T}

omit [DecidableEq ι] [Fintype ι] in
/-- A predicate is true when the channel is closed or there is room. -/
theorem predicate_iff (capacity : Nat) (s : Sys ι T) (op : Op T) :
    s.predicate capacity op = true ↔ s.closed = true ∨ 0 < room capacity s.queue op.side := by
  cases op with
  | send value =>
      have hroom : (capacity = 0 ∧ s.queue.length = 0) ∨ s.queue.length < capacity ↔
          0 < max capacity 1 - s.queue.length := by omega
      simp only [Sys.predicate, room, Op.side, Bool.or_eq_true, Bool.and_eq_true, beq_iff_eq,
        List.isEmpty_iff, decide_eq_true_eq, ← List.length_eq_zero_iff, ← hroom]
      exact or_comm
  | receive =>
      simp only [Sys.predicate, room, Op.side, Bool.or_eq_true, Bool.not_eq_true',
        List.isEmpty_eq_false_iff, ← List.length_pos_iff]
      exact or_comm

omit [DecidableEq ι] [Fintype ι] in
theorem Event.Settles.fifo {queue : List T} {log : List (Event T)} {e : Event T}
    (h : e.Settles queue log) : received log <+: sent log := by
  match e, h with
  | .send value true, ⟨before, _, h⟩ => exact ⟨before, h⟩
  | .receive (some value), h => exact ⟨_, h⟩
  | .send _ false, h | .receive none, h | .close, h => exact ⟨queue, h⟩

omit [DecidableEq ι] [Fintype ι] in
/-- When the call has returned, the log and the queue agree. -/
theorem Event.Settles.log {queue : List T} {log : List (Event T)} {e : Event T}
    (h : e.Settles queue log) : received (log ++ [e]) ++ queue = sent (log ++ [e]) := by
  rw [received, sent, List.filterMap_append, List.filterMap_append]
  match e, h with
  | .send value true, ⟨before, hqueue, h⟩ =>
      rw [hqueue, ← List.append_assoc]
      exact congrArg (· ++ [value]) ((congrArg (· ++ before) (List.append_nil _)).trans h)
  | .receive (some value), h =>
      exact (List.append_assoc ..).trans (h.trans (List.append_nil _).symm)
  | .send _ false, h | .receive none, h | .close, h =>
      exact (congrArg (· ++ queue) (List.append_nil _)).trans (h.trans (List.append_nil _).symm)

omit [DecidableEq ι] [Fintype ι] in
theorem Event.Known.right {closed : Bool} {queue : List T} {log : List (Event T)} {e : Event T}
    (h : e.Known closed queue) (hclosed : closed = true ↔ Event.close ∈ log)
    (hsettles : e.Settles queue log) : e.Right log := by
  match e, h, hsettles with
  | .send _ ok, h, _ =>
      rw [Event.Right, ← hclosed, Bool.not_eq_true]
      exact h
  | .receive none, ⟨htrue, hqueue⟩, hsettles =>
      refine ⟨hclosed.mp htrue, ?_⟩
      rw [hqueue] at hsettles
      exact (List.append_nil _).symm.trans hsettles
  | .receive (some _), _, _ => trivial

omit [DecidableEq ι] in
theorem Inv.right (h : Inv capacity s) : Right capacity s where
  fifo := by
    have hsettled := h.settled
    cases hp : holder s.mtx s.pc <;> rw [hp] at hsettled <;>
      first | exact Event.Settles.fifo hsettled | exact ⟨_, hsettled⟩
  none_lost := by
    intro hmtx
    have hsettled := h.settled
    rw [hmtx] at hsettled
    exact hsettled
  bounded := h.bounded
  results := h.results
  no_lost_wakeup := by
    intro i op hpc hpredicate
    have hlate : (s.pc i).late op.side = true := by
      rw [hpc]
      exact decide_eq_true rfl
    cases hclosed : s.closed with
    | true =>
        -- a `close` holds the mutex and is going to notify
        have hwakes := h.woken hclosed op.side i hlate
        cases hmtx : s.mtx with
        | none =>
            rw [hmtx] at hwakes
            cases hwakes
        | some j =>
            rw [hmtx] at hwakes
            refine ⟨j, ?_, ?_⟩
            · intro hidle
              rw [show holder (some j) s.pc = s.pc j from rfl, hidle] at hwakes
              cases hwakes
            · intro op' hblocked
              rw [show holder (some j) s.pc = s.pc j from rfl, hblocked] at hwakes
              cases hwakes
    | false =>
        have hroom := ((predicate_iff capacity s op).mp hpredicate).resolve_left
          (by rw [hclosed]; exact Bool.false_ne_true)
        have hle := h.counted hclosed op.side ⟨i, hlate⟩
        obtain ⟨j, -, hj⟩ := Finset.exists_ne_zero_of_sum_ne_zero
          (Nat.ne_of_gt (Nat.lt_of_lt_of_le hroom hle))
        refine ⟨j, ?_, ?_⟩
        · intro hidle
          rw [hidle] at hj
          exact hj rfl
        · intro op' hblocked
          rw [hblocked] at hj
          exact hj rfl

/-! ## The steps -/

/-- A thread moves, and the queue may change with it. -/
theorem Counted.update {pc : ι → Pc T} {queue queue' : List T} {side : Side}
    (h : Counted capacity queue pc side)
    (hlate : p.late side = true → (pc i).late side = true ∨ room capacity queue' side = 0)
    (hroom : room capacity queue' side + (pc i).coming side ≤
      room capacity queue side + p.coming side ∨ room capacity queue' side = 0) :
    Counted capacity queue' (Function.update pc i p) side := by
  rintro ⟨j, hj⟩
  by_cases hzero : room capacity queue' side = 0
  · rw [hzero]
    exact Nat.zero_le _
  · have hbefore : ∃ j, (pc j).late side = true := by
      by_cases hji : j = i
      · rw [hji, Function.update_self] at hj
        exact ⟨i, (hlate hj).resolve_right hzero⟩
      · rw [Function.update_of_ne hji] at hj
        exact ⟨j, hj⟩
    have hle := h hbefore
    have hsum := sum_update (fun q : Pc T => q.coming side) pc p (Finset.mem_univ i)
    have hstep := hroom.resolve_right hzero
    omega

omit [Fintype ι] in
theorem holder_update (pc : ι → Pc T) (p : Pc T) :
    holder (some i) (Function.update pc i p) = p :=
  Function.update_self ..

omit [Fintype ι] in
/-- A step outside the mutex is not its holder's. -/
theorem holder_of_outside {mtx : Option ι} {pc : ι → Pc T} (h : Guarded Pc.inside mtx pc)
    (hi : (pc i).inside = false) : holder mtx (Function.update pc i p) = holder mtx pc := by
  cases mtx with
  | none => rfl
  | some j =>
      have hj : j ≠ i := by
        rintro rfl
        rw [(h j).mpr rfl] at hi
        cases hi
      exact Function.update_of_ne hj ..

omit [DecidableEq ι] in
theorem Inv.holder_eq (h : Inv capacity s) (hi : (s.pc i).inside = true) :
    holder s.mtx s.pc = s.pc i := by
  rw [(h.mtx i).mp hi]
  rfl

/-- A step that leaves the queue, `closed_` and the log alone. -/
theorem Inv.goto (h : Inv capacity s) {mtx : Option ι}
    (hmtx : Guarded Pc.inside mtx (Function.update s.pc i p))
    (hknows : (holder mtx (Function.update s.pc i p)).Knows capacity s.closed s.queue)
    (hsettled : (holder mtx (Function.update s.pc i p)).Settled s.queue s.log)
    (hwakes : ∀ side, (holder s.mtx s.pc).wakes side = true →
      (holder mtx (Function.update s.pc i p)).wakes side = true)
    (hlate : ∀ side, p.late side = true → (s.pc i).late side = true ∨
      s.closed = false ∧ room capacity s.queue side = 0)
    (hcoming : s.closed = false → ∀ side, (s.pc i).coming side ≤ p.coming side ∨
      room capacity s.queue side = 0) :
    Inv capacity { s.goto i p with mtx := mtx } where
  mtx := hmtx
  knows := hknows
  settled := hsettled
  closed := h.closed
  results := h.results
  bounded := h.bounded
  counted := by
    intro hclosed side
    refine (h.counted hclosed side).update (fun hp => (hlate side hp).imp_right And.right) ?_
    exact (hcoming hclosed side).imp_left fun hle => Nat.add_le_add_left hle _
  woken := by
    intro hclosed side j hj
    refine hwakes side ?_
    have hclosed : s.closed = true := hclosed
    change (Function.update s.pc i p j).late side = true at hj
    by_cases hji : j = i
    · rw [hji, Function.update_self] at hj
      rcases hlate side hj with hbefore | ⟨hopen, -⟩
      · exact h.woken hclosed side i hbefore
      · rw [hclosed] at hopen
        cases hopen
    · rw [Function.update_of_ne hji] at hj
      exact h.woken hclosed side j hj

/-- A step outside the mutex. -/
theorem Inv.outside (h : Inv capacity s) (hi : (s.pc i).inside = false) (hp : p.inside = false)
    (hlate : ∀ side, p.late side = true → (s.pc i).late side = true)
    (hcoming : ∀ side, (s.pc i).coming side ≤ p.coming side) : Inv capacity (s.goto i p) := by
  have hholder : holder s.mtx (Function.update s.pc i p) = holder s.mtx s.pc :=
    holder_of_outside h.mtx hi
  exact h.goto (h.mtx.move (hp.trans hi.symm)) (hholder ▸ h.knows) (hholder ▸ h.settled)
    (fun side hw => hholder ▸ hw) (fun side hl => Or.inl (hlate side hl))
    fun _ side => Or.inl (hcoming side)

/-- The mutex is acquired. -/
theorem Inv.acquire (h : Inv capacity s) (hstep : s.lock i p = some t) (hp : p.inside = true)
    (hknows : p.Knows capacity s.closed s.queue)
    (hsettled : received s.log ++ s.queue = sent s.log → p.Settled s.queue s.log)
    (hlate : ∀ side, p.late side = false)
    (hcoming : ∀ side, (s.pc i).coming side ≤ p.coming side) : Inv capacity t := by
  cases hmtx : s.mtx <;> simp only [Sys.lock, hmtx, reduceCtorEq, Option.some.injEq] at hstep
  subst hstep
  have hguard := h.mtx
  have hbefore := h.settled
  rw [hmtx] at hguard hbefore
  refine h.goto (hguard.lock hp) ?_ ?_ ?_ ?_ fun _ side => Or.inl (hcoming side)
  · rw [holder_update]
    exact hknows
  · rw [holder_update]
    exact hsettled hbefore
  · intro side hwakes
    rw [hmtx] at hwakes
    cases hwakes
  · intro side hl
    rw [hlate side] at hl
    cases hl

/-- The mutex is released. -/
theorem Inv.release (h : Inv capacity s) (hi : (s.pc i).inside = true) (hp : p.inside = false)
    (hsettled : (s.pc i).Settled s.queue s.log → received s.log ++ s.queue = sent s.log)
    (hwakes : ∀ side, (s.pc i).wakes side = false)
    (hlate : ∀ side, p.late side = true → (s.pc i).late side = true)
    (hcoming : ∀ side, (s.pc i).coming side ≤ p.coming side) :
    Inv capacity { s.goto i p with mtx := none } := by
  have hholder := h.holder_eq hi
  refine h.goto (h.mtx.unlock hi hp) trivial (hsettled (hholder ▸ h.settled)) ?_
    (fun side hl => Or.inl (hlate side hl)) fun _ side => Or.inl (hcoming side)
  intro side hw
  rw [hholder, hwakes] at hw
  cases hw

/-- A step inside the mutex, that notifies nobody and changes nothing. -/
theorem Inv.inside (h : Inv capacity s) (hi : (s.pc i).inside = true) (hp : p.inside = true)
    (hknows : p.Knows capacity s.closed s.queue)
    (hsettled : (s.pc i).Settled s.queue s.log → p.Settled s.queue s.log)
    (hwakes : ∀ side, (s.pc i).wakes side = false)
    (hlate : ∀ side, p.late side = true →
      s.closed = false ∧ room capacity s.queue side = 0)
    (hcoming : s.closed = false → ∀ side, (s.pc i).coming side ≤ p.coming side ∨
      room capacity s.queue side = 0) : Inv capacity (s.goto i p) := by
  have hholder := h.holder_eq hi
  have hmtx := (h.mtx i).mp hi
  have hafter : holder s.mtx (Function.update s.pc i p) = p := by
    rw [hmtx]
    exact holder_update s.pc p
  refine h.goto (h.mtx.move (hp.trans hi.symm)) (by rw [hafter]; exact hknows)
    (by rw [hafter]; exact hsettled (hholder ▸ h.settled)) ?_
    (fun side hl => Or.inr (hlate side hl)) hcoming
  intro side hw
  rw [hholder, hwakes] at hw
  cases hw

omit [DecidableEq ι] in
/-- Once the channel is closed nobody is late for whom the holder of the mutex is not going
to notify. -/
theorem Inv.not_late (h : Inv capacity s) (hclosed : s.closed = true)
    (hi : (s.pc i).inside = true) {side : Side} (hwakes : (s.pc i).wakes side = false) (j : ι) :
    (s.pc j).late side = false := by
  by_contra hlate
  have hw := h.woken hclosed side j (by simpa using hlate)
  rw [h.holder_eq hi, hwakes] at hw
  cases hw

omit [DecidableEq ι] in
/-- Who is late is blocked, if another thread holds the mutex. -/
theorem Inv.blocked_of_late (h : Inv capacity s) (hi : (s.pc i).inside = true) {side : Side}
    (hside : (s.pc i).late side = false) {j : ι} (hj : (s.pc j).late side = true) :
    (wake side (s.pc j)).isSome = true := by
  cases hpc : s.pc j <;> rw [hpc] at hj <;> try cases hj
  · -- at `block` it would hold the mutex
    have heq := h.mtx.eq hi (by rw [hpc]; rfl)
    rw [heq, hpc] at hside
    exact absurd hj (Bool.eq_false_iff.mp hside)
  · rw [wake, if_pos (of_decide_eq_true hj)]
    rfl

/-- A value is pushed or popped. -/
theorem Inv.item (h : Inv capacity s) {queue : List T} (hi : (s.pc i).inside = true)
    (hp : p.inside = true) (hknows : p.Knows capacity s.closed queue)
    (hsettled : p.Settled queue s.log) (hbounded : queue.length ≤ max capacity 1)
    (hwakes : ∀ side, (s.pc i).wakes side = false) (hlate : ∀ side, p.late side = false)
    (hroom : ∀ side, room capacity queue side + (s.pc i).coming side ≤
      room capacity s.queue side + p.coming side) :
    Inv capacity { s.goto i p with queue := queue } := by
  have hmtx := (h.mtx i).mp hi
  have hafter : holder s.mtx (Function.update s.pc i p) = p := by
    rw [hmtx]
    exact holder_update s.pc p
  refine ⟨h.mtx.move (hp.trans hi.symm), ?_, ?_, h.closed, h.results, hbounded, ?_, ?_⟩
  · show (holder s.mtx (Function.update s.pc i p)).Knows capacity s.closed queue
    rw [hafter]
    exact hknows
  · show (holder s.mtx (Function.update s.pc i p)).Settled queue s.log
    rw [hafter]
    exact hsettled
  · intro hclosed side
    refine (h.counted hclosed side).update (fun hl => ?_) (Or.inl (hroom side))
    rw [hlate side] at hl
    cases hl
  · intro hclosed side j hj
    change (Function.update s.pc i p j).late side = true at hj
    by_cases hji : j = i
    · rw [hji, Function.update_self, hlate side] at hj
      cases hj
    · rw [Function.update_of_ne hji, h.not_late hclosed hi (hwakes side)] at hj
      cases hj

/-- A call returns. -/
theorem Inv.unlock (h : Inv capacity s) {e : Event T} (hpc : s.pc i = .unlock e) :
    Inv capacity { s.goto i .idle with mtx := none, log := s.log ++ [e] } := by
  have hi : (s.pc i).inside = true := by rw [hpc]; rfl
  have hknown : e.Known s.closed s.queue := by
    have hknows := h.knows
    rw [h.holder_eq hi, hpc] at hknows
    exact hknows
  have hsettles : e.Settles s.queue s.log := by
    have hsettled := h.settled
    rw [h.holder_eq hi, hpc] at hsettled
    exact hsettled
  refine ⟨h.mtx.unlock hi rfl, trivial, ?_, ?_, forall_split_append h.results ?_, h.bounded, ?_, ?_⟩
  · exact hsettles.log
  · show s.closed = true ↔ Event.close ∈ s.log ++ [e]
    rw [h.closed, List.mem_append, List.mem_singleton, or_iff_left]
    rintro rfl
    exact hknown
  · exact hknown.right h.closed hsettles
  · intro hclosed side
    refine (h.counted hclosed side).update (by rintro ⟨⟩) (Or.inl ?_)
    rw [hpc]
    exact Nat.le_refl _
  · intro hclosed side j hj
    change (Function.update s.pc i .idle j).late side = true at hj
    by_cases hji : j = i
    · rw [hji, Function.update_self] at hj
      cases hj
    · rw [Function.update_of_ne hji, h.not_late hclosed hi (by rw [hpc]; rfl)] at hj
      cases hj

/-- `closed_` is set. -/
theorem Inv.close (h : Inv capacity s) (hpc : s.pc i = .close) :
    Inv capacity { s.goto i .notify_all_producer with
      closed := true
      log := s.log ++ [.close] } := by
  have hi : (s.pc i).inside = true := by rw [hpc]; rfl
  have hmtx := (h.mtx i).mp hi
  have hsettled := h.settled
  rw [h.holder_eq hi, hpc] at hsettled
  have hafter : holder s.mtx (Function.update s.pc i .notify_all_producer) =
      .notify_all_producer := by
    rw [hmtx]
    exact holder_update s.pc _
  refine ⟨h.mtx.move (by rw [hpc]; rfl), ?_, ?_, ?_, forall_split_append h.results trivial,
    h.bounded, by rintro ⟨⟩, ?_⟩
  · show (holder s.mtx (Function.update s.pc i .notify_all_producer)).Knows ..
    rw [hafter]
    rfl
  · show (holder s.mtx (Function.update s.pc i .notify_all_producer)).Settled ..
    rw [hafter]
    exact Event.Settles.log (e := .close) hsettled
  · exact iff_of_true rfl (List.mem_append_right _ List.mem_cons_self)
  · intro _ side j _
    show (holder s.mtx (Function.update s.pc i .notify_all_producer)).wakes side = true
    rw [hafter]
    rfl

omit [Fintype ι] [DecidableEq ι] in
theorem wake_eq_some {side : Side} {q q' : Pc T} (h : wake side q = some q') :
    ∃ op, q = .blocked op ∧ op.side = side ∧ q' = .woken op := by
  cases q <;> simp only [wake, reduceCtorEq] at h
  next op =>
    obtain ⟨hside, hq⟩ := Option.ite_none_right_eq_some.mp h
    exact ⟨op, rfl, hside, (Option.some.inj hq).symm⟩

omit [Fintype ι] [DecidableEq ι] in
/-- A notification concerns nobody inside the mutex. -/
theorem guarded_notified {mtx : Option ι} {pc pc' : ι → Pc T} {side : Side}
    {reached : ι → Prop} (h : Guarded Pc.inside mtx pc)
    (hnotified : Notified (wake side) reached pc pc') : Guarded Pc.inside mtx pc' := by
  intro j
  rw [← h j]
  rcases hnotified j with hwoken | ⟨hsame, -⟩
  · obtain ⟨op, hpc, -, hpc'⟩ := wake_eq_some hwoken
    rw [hpc, hpc']
    exact Iff.rfl
  · rw [hsame]

omit [Fintype ι] [DecidableEq ι] in
/-- Nobody becomes late by a notification. -/
theorem late_of_notified {pc pc' : ι → Pc T} {side side' : Side} {reached : ι → Prop}
    (hnotified : Notified (wake side) reached pc pc') {j : ι}
    (hj : (pc' j).late side' = true) :
    (pc j).late side' = true ∧ (reached j → wake side (pc j) = none) := by
  rcases hnotified j with hwoken | ⟨hsame, hreached⟩
  · obtain ⟨op, -, -, hpc'⟩ := wake_eq_some hwoken
    rw [hpc'] at hj
    cases hj
  · rw [hsame] at hj
    exact ⟨hj, hreached⟩

/-- `close` notifies one of the sides. -/
theorem Inv.notify_all (h : Inv capacity s) {side : Side} (hclosed : s.closed = true)
    (hi : (s.pc i).inside = true) (hlate : ∀ side', (s.pc i).late side' = false)
    (hp : p = .notify_all_consumer ∨ p = .close_unlock)
    (hsettled : (s.pc i).Settled s.queue s.log → received s.log ++ s.queue = sent s.log)
    (hwakes : ∀ side', side' ≠ side → (s.pc i).wakes side' = true → p.wakes side' = true) :
    Inv capacity { s with
      pc := Function.update (notifyAll (wake side) s.pc) i p } := by
  have hnotified := notified_all (wake side) s.pc
  have hmtx := (h.mtx i).mp hi
  have hguard := guarded_notified h.mtx hnotified
  have hinside : ((notifyAll (wake side) s.pc) i).inside = true := (hguard i).mpr hmtx
  have hafter : holder s.mtx (Function.update (notifyAll (wake side) s.pc) i p) = p := by
    rw [hmtx]
    exact holder_update _ p
  have hsettled' := hsettled (h.holder_eq hi ▸ h.settled)
  refine ⟨hguard.move ?_, ?_, ?_, h.closed, h.results, h.bounded, ?_, ?_⟩
  · rw [hinside]
    rcases hp with rfl | rfl <;> rfl
  · show (holder s.mtx (Function.update (notifyAll (wake side) s.pc) i p)).Knows ..
    rw [hafter]
    rcases hp with rfl | rfl
    · exact hclosed
    · trivial
  · show (holder s.mtx (Function.update (notifyAll (wake side) s.pc) i p)).Settled ..
    rw [hafter]
    rcases hp with rfl | rfl <;> exact hsettled'
  · intro hopen
    have hopen : s.closed = false := hopen
    rw [hclosed] at hopen
    cases hopen
  · intro _ side' j hj
    show (holder s.mtx (Function.update (notifyAll (wake side) s.pc) i p)).wakes side' = true
    rw [hafter]
    change (Function.update (notifyAll (wake side) s.pc) i p j).late side' = true at hj
    by_cases hji : j = i
    · rw [hji, Function.update_self] at hj
      rcases hp with rfl | rfl <;> cases hj
    · rw [Function.update_of_ne hji] at hj
      obtain ⟨hbefore, hreached⟩ := late_of_notified hnotified hj
      by_cases hside : side' = side
      · -- all of this side have been woken
        subst hside
        have hwake := h.blocked_of_late hi (hlate side') hbefore
        rw [hreached trivial] at hwake
        cases hwake
      · refine hwakes side' hside ?_
        rw [← h.holder_eq hi]
        exact h.woken hclosed side' j hbefore

/-- The sum when one thread is woken, or nobody could be. -/
theorem sum_notified {pc pc' : ι → Pc T} {side : Side} {target : Option ι}
    (hnotify : notifyOne (wake side) pc target = some pc') (side' : Side) :
    ∑ j, (pc' j).coming side' =
      ∑ j, (pc j).coming side' + if target.isSome = true ∧ side = side' then 1 else 0 := by
  cases target with
  | none =>
      obtain ⟨-, hpc⟩ := Option.ite_none_right_eq_some.mp hnotify
      cases hpc
      rfl
  | some j =>
      obtain ⟨q, hq, rfl⟩ := Option.map_eq_some_iff.mp hnotify
      obtain ⟨op, hpc, hside, rfl⟩ := wake_eq_some hq
      have hsum := sum_update (fun q : Pc T => q.coming side') pc (.woken op) (Finset.mem_univ j)
      have hbefore : (pc j).coming side' = 0 := by rw [hpc]; rfl
      have hafter : (Pc.woken op).coming side' = if side = side' then 1 else 0 := by
        rw [← hside]
        rfl
      simp only [Option.isSome_some, true_and]
      omega

/-- A call notifies one of the other side. -/
theorem Inv.notify_one (h : Inv capacity s) {e : Event T} (hpc : s.pc i = .notify_one e)
    {target : Option ι} {pc : ι → Pc T}
    (hnotify : notifyOne (wake e.notifies) s.pc target = some pc) :
    Inv capacity { s with pc := Function.update pc i (.unlock e) } := by
  have hnotified := notified_one hnotify
  have hi : (s.pc i).inside = true := by rw [hpc]; rfl
  have hmtx := (h.mtx i).mp hi
  have hguard := guarded_notified h.mtx hnotified
  have hinside : (pc i).inside = true := (hguard i).mpr hmtx
  have hafter : holder s.mtx (Function.update pc i (.unlock e)) = .unlock e := by
    rw [hmtx]
    exact holder_update pc _
  have hlate : ∀ side j, (Function.update pc i (.unlock e) j).late side = true →
      (s.pc j).late side = true ∧ (target = some j → wake e.notifies (s.pc j) = none) := by
    intro side j hj
    by_cases hji : j = i
    · rw [hji, Function.update_self] at hj
      cases hj
    · rw [Function.update_of_ne hji] at hj
      exact late_of_notified hnotified hj
  refine ⟨hguard.move ?_, ?_, ?_, h.closed, h.results, h.bounded, ?_, ?_⟩
  · rw [hinside]
    rfl
  · show (holder s.mtx (Function.update pc i (.unlock e))).Knows ..
    have hknows := h.knows
    rw [h.holder_eq hi, hpc] at hknows
    rw [hafter]
    exact hknows
  · show (holder s.mtx (Function.update pc i (.unlock e))).Settled ..
    have hsettled := h.settled
    rw [h.holder_eq hi, hpc] at hsettled
    rw [hafter]
    exact hsettled
  · rintro hclosed side ⟨j, hj⟩
    obtain ⟨hbefore, -⟩ := hlate side j hj
    have hle := h.counted hclosed side ⟨j, hbefore⟩
    have hsum := sum_update (fun q : Pc T => q.coming side) pc (.unlock e) (Finset.mem_univ i)
    have hwoken := sum_notified hnotify side
    have hself : (pc i).coming side = if e.notifies = side then 1 else 0 := by
      rcases hnotified i with hwake | ⟨hsame, -⟩
      · rw [hpc] at hwake
        cases hwake
      · rw [hsame, hpc]
        rfl
    have hunlock : (Pc.unlock e).coming side = 0 := rfl
    show room capacity s.queue side ≤ ∑ k, (Function.update pc i (.unlock e) k).coming side
    by_cases hside : e.notifies = side
    · -- as somebody is late, there was somebody to wake
      have htarget : target.isSome = true := by
        cases target with
        | some _ => rfl
        | none =>
            obtain ⟨hnone, -⟩ := Option.ite_none_right_eq_some.mp hnotify
            have hwake := h.blocked_of_late hi (by rw [hpc]; rfl) hbefore
            rw [← hside, Option.isNone_iff_eq_none.mp (hnone j)] at hwake
            cases hwake
      rw [if_pos hside] at hself
      rw [if_pos ⟨htarget, hside⟩] at hwoken
      omega
    · rw [if_neg hside] at hself
      rw [if_neg fun hand => hside hand.2] at hwoken
      omega
  · intro hclosed side j hj
    obtain ⟨hbefore, -⟩ := hlate side j hj
    rw [h.not_late hclosed hi (by rw [hpc]; rfl)] at hbefore
    cases hbefore

theorem Inv.body (h : Inv capacity s) {op : Op T} (hpc : s.pc i = .body op)
    (hstep : s.body i op = some t) : Inv capacity t := by
  have hi : (s.pc i).inside = true := by rw [hpc]; rfl
  have hknows := h.knows
  have hsettled := h.settled
  rw [h.holder_eq hi, hpc] at hknows hsettled
  have hcoming : ∀ side, (s.pc i).coming side = if op.side = side then 1 else 0 := by
    rw [hpc]
    exact fun _ => rfl
  cases op with
  | send value =>
      -- closed: nothing is queued; open: there is room, which the predicate has seen under the lock
      cases hclosed : s.closed with
      | true =>
          simp only [Sys.body, hclosed, if_true, Option.some.injEq] at hstep
          subst hstep
          refine h.inside hi rfl ?_ (fun _ => hsettled) (by rw [hpc]; exact fun _ => rfl)
            (by rintro _ ⟨⟩) ?_
          · show false = true ↔ s.closed = false
            rw [hclosed]
            exact iff_of_false Bool.false_ne_true (by rintro ⟨⟩)
          · intro hopen
            rw [hclosed] at hopen
            cases hopen
      | false =>
          simp only [Sys.body, hclosed, Bool.false_eq_true, if_false, Option.some.injEq] at hstep
          subst hstep
          have hroom : 0 < max capacity 1 - s.queue.length :=
            hknows.resolve_left (by rw [hclosed]; exact Bool.false_ne_true)
          refine h.item hi rfl (iff_of_true rfl hclosed) ⟨s.queue, rfl, hsettled⟩ ?_
            (by rw [hpc]; exact fun _ => rfl) (fun _ => rfl) ?_
          · rw [List.length_append, List.length_singleton]
            omega
          · intro side
            rw [hcoming side]
            cases side
            · show max capacity 1 - (s.queue ++ [value]).length + 1 ≤
                max capacity 1 - s.queue.length + 0
              rw [List.length_append, List.length_singleton]
              omega
            · show (s.queue ++ [value]).length + 0 ≤ s.queue.length + 1
              rw [List.length_append, List.length_singleton]
  | receive =>
      -- the queue is empty only when the channel is closed; otherwise its front is taken
      cases hqueue : s.queue with
      | nil =>
          simp only [Sys.body, hqueue, List.isEmpty_nil, Bool.and_true] at hstep
          split at hstep <;> cases hstep
          next hclosed =>
            refine h.inside hi rfl ⟨hclosed, hqueue⟩ (fun _ => hsettled)
              (by rw [hpc]; exact fun _ => rfl) (by rintro _ ⟨⟩) ?_
            intro hopen
            rw [hclosed] at hopen
            cases hopen
      | cons value rest =>
          simp only [Sys.body, hqueue, List.isEmpty_cons, Bool.and_false, Bool.false_eq_true,
            if_false, Option.some.injEq] at hstep
          subst hstep
          have hbounded := h.bounded
          rw [hqueue] at hsettled hbounded
          refine h.item hi rfl trivial hsettled (Nat.le_of_succ_le hbounded)
            (by rw [hpc]; exact fun _ => rfl) (fun _ => rfl) ?_
          intro side
          rw [hcoming side, hqueue]
          cases side
          · show max capacity 1 - rest.length + 0 ≤ max capacity 1 - (rest.length + 1) + 1
            omega
          · exact Nat.le_refl _

theorem inv_run (h : Inv capacity s) (hstep : s.run capacity i = some t) : Inv capacity t := by
  unfold Sys.run at hstep
  cases hpc : s.pc i with
  | idle | blocked | notify_one => simp only [hpc, reduceCtorEq] at hstep
  | lock op | woken op =>
      simp only [hpc] at hstep
      exact h.acquire hstep rfl trivial id (fun _ => rfl)
        (by rw [hpc]; exact fun _ => Nat.le_refl _)
  | check op =>
      -- the predicate of the wait, which is evaluated under the lock
      simp only [hpc, Option.some.injEq] at hstep
      subst hstep
      by_cases hpredicate : s.predicate capacity op = true
      · rw [if_pos hpredicate]
        refine h.inside (by rw [hpc]; rfl) rfl ((predicate_iff capacity s op).mp hpredicate)
          (by rw [hpc]; exact id) (by rw [hpc]; exact fun _ => rfl) (by rintro _ ⟨⟩) ?_
        rw [hpc]
        exact fun _ _ => Or.inl (Nat.le_refl _)
      · rw [if_neg hpredicate]
        rw [predicate_iff, not_or, Bool.not_eq_true, Nat.pos_iff_ne_zero, not_not] at hpredicate
        refine h.inside (by rw [hpc]; rfl) rfl hpredicate (by rw [hpc]; exact id)
          (by rw [hpc]; exact fun _ => rfl) ?_ ?_
        · intro side hlate
          rw [← of_decide_eq_true hlate]
          exact hpredicate
        · intro _ side
          rw [hpc]
          by_cases hside : op.side = side
          · rw [← hside]
            exact Or.inr hpredicate.2
          · exact Or.inl (by rw [Pc.coming, if_neg hside]; exact Nat.zero_le _)
  | block op =>
      -- it sleeps and gives the lock back in one step, so that no notification falls between
      simp only [hpc, Option.some.injEq] at hstep
      subst hstep
      exact h.release (by rw [hpc]; rfl) rfl (by rw [hpc]; exact id)
        (by rw [hpc]; exact fun _ => rfl) (by rw [hpc]; exact fun _ => id)
        (by rw [hpc]; exact fun _ => Nat.le_refl _)
  | body op =>
      simp only [hpc] at hstep
      exact h.body hpc hstep
  | unlock e =>
      -- the notification comes after the unlock; until then the thread counts as coming
      simp only [hpc, Option.some.injEq] at hstep
      subst hstep
      exact h.unlock hpc
  | close_lock =>
      simp only [hpc] at hstep
      exact h.acquire hstep rfl trivial id (fun _ => rfl)
        (by rw [hpc]; exact fun _ => Nat.le_refl _)
  | close =>
      simp only [hpc, Option.some.injEq] at hstep
      subst hstep
      exact h.close hpc
  | notify_all_producer =>
      -- `Close` wakes both sides; those of the other side are still to be woken here
      simp only [hpc, Option.some.injEq] at hstep
      subst hstep
      have hi : (s.pc i).inside = true := by rw [hpc]; rfl
      have hclosed := h.knows
      rw [h.holder_eq hi, hpc] at hclosed
      refine h.notify_all hclosed hi (by rw [hpc]; exact fun _ => rfl) (Or.inl rfl)
        (by rw [hpc]; exact id) ?_
      intro side hside _
      cases side
      · exact absurd rfl hside
      · rfl
  | notify_all_consumer =>
      -- and then the other side
      simp only [hpc, Option.some.injEq] at hstep
      subst hstep
      have hi : (s.pc i).inside = true := by rw [hpc]; rfl
      have hclosed := h.knows
      rw [h.holder_eq hi, hpc] at hclosed
      refine h.notify_all hclosed hi (by rw [hpc]; exact fun _ => rfl) (Or.inr rfl)
        (by rw [hpc]; exact id) ?_
      intro side hside hwakes
      rw [hpc] at hwakes
      exact absurd (of_decide_eq_true hwakes) hside
  | close_unlock =>
      simp only [hpc, Option.some.injEq] at hstep
      subst hstep
      exact h.release (by rw [hpc]; rfl) rfl (by rw [hpc]; exact id)
        (by rw [hpc]; exact fun _ => rfl) (by rintro _ ⟨⟩)
        (by rw [hpc]; exact fun _ => Nat.le_refl _)

theorem inv_step {a : Action ι T} (h : Inv capacity s)
    (hstep : (system capacity ι T).step s a = some t) : Inv capacity t := by
  change Sys.step capacity s a = some t at hstep
  cases a with
  | call i op =>
      cases hpc : s.pc i <;> simp only [Sys.step, hpc, reduceCtorEq, Option.some.injEq] at hstep
      subst hstep
      refine h.outside (by rw [hpc]; rfl) rfl (by rintro _ ⟨⟩) ?_
      rw [hpc]
      exact fun _ => Nat.zero_le _
  | close i =>
      cases hpc : s.pc i <;> simp only [Sys.step, hpc, reduceCtorEq, Option.some.injEq] at hstep
      subst hstep
      refine h.outside (by rw [hpc]; rfl) rfl (by rintro _ ⟨⟩) ?_
      rw [hpc]
      exact fun _ => Nat.zero_le _
  | run i => exact inv_run h hstep
  | notify_one i target =>
      cases hpc : s.pc i <;> simp only [Sys.step, hpc, reduceCtorEq] at hstep
      obtain ⟨pc, hnotify, rfl⟩ := Option.map_eq_some_iff.mp hstep
      exact h.notify_one hpc hnotify
  | spurious i =>
      cases hpc : s.pc i <;> simp only [Sys.step, hpc, reduceCtorEq, Option.some.injEq] at hstep
      subst hstep
      refine h.outside (by rw [hpc]; rfl) rfl (by rintro _ ⟨⟩) ?_
      rw [hpc]
      exact fun _ => Nat.zero_le _

omit [DecidableEq ι] in
theorem inv_init (capacity : Nat) : Inv capacity ({} : Sys ι T) where
  mtx _ := iff_of_false (by rintro ⟨⟩) (by rintro ⟨⟩)
  knows := trivial
  settled := rfl
  closed := iff_of_false (by rintro ⟨⟩) List.not_mem_nil
  results := forall_split_nil
  bounded := Nat.zero_le _
  counted := by
    rintro _ _ ⟨_, ⟨⟩⟩
  woken := by rintro ⟨⟩

end Invariant

/-- **The channel**, for every capacity, after any run of any finite number of threads that
send, receive and close. -/
theorem channel [Fintype ι] (capacity : Nat) (as : List (Action ι T)) :
    (system capacity ι T).Along (Right capacity) (system capacity ι T).init as :=
  (system capacity ι T).along_of_inv (fun _ => Inv.right) (fun _ _ _ h hstep => inv_step h hstep)
    (inv_init capacity)

end BoostNet.Channel
