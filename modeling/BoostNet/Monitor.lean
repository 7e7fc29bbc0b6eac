/-
Monitors: a value that is only touched with a mutex held, by operations that may wait on a
condition variable until their predicate is true. Nothing here names a component; the
value, the operations, their results and the condition variables are arbitrary types.

Any number of threads call any operations. A call takes the mutex, evaluates its predicate,
and where that is false it blocks, which releases the mutex; once it is woken it takes the
mutex and looks again. Where the predicate is true the body changes the value, and the call
notifies and releases the mutex, in one order or the other. A body may end in several ways
(`X`: it may throw, say). A wait may end spuriously, a notification wakes any one of those
blocked, and who has been woken competes with new calls for the mutex. Code outside the
monitor may notify too, and may change what the predicates read without taking the mutex,
as long as this makes no predicate false.

* `replays`: the value is what the calls in the log make of it one after another, each with
  its predicate true. So what is proved of the operations one after another holds of them
  in any interleaving.
* `Balanced`: `ready cv` is how many of those that wait on `cv` could go on. An operation
  that uses up what it waited for, and notifies of what it provides, keeps the books: there
  are never more to go on than threads that come to go on or to notify.
* `Quiet.settled`, `lossless`: then no wakeup is lost. When nothing moves any more the mutex is
  free, and whoever is still blocked has a false predicate.
* `swallowed`: an operation that waits, and does not use up what it waited for, loses one.
-/
import Mathlib.Algebra.BigOperators.Group.Finset.Basic
import Mathlib.Algebra.Order.BigOperators.Group.Finset
import Mathlib.Tactic.FinCases
import BoostNet.CondVar
import BoostNet.Lts
import BoostNet.Threads

set_option autoImplicit false

namespace BoostNet

/-- `notify_one` or `notify_all`. -/
inductive Notification (Cv : Type*) where
  | one (cv : Cv)
  | all (cv : Cv)
  deriving DecidableEq

/-- What a body does. -/
structure Effect (σ Res Cv : Type*) where
  value : σ
  result : Res
  notify : Option (Notification Cv)

structure Monitor (σ Op X Res Cv E : Type*) where
  init : σ
  /-- The condition variable an operation waits on, if it waits. -/
  waits : Op → Option Cv
  predicate : Op → σ → Bool
  /-- What is done with the mutex held, after the wait; `none` where this is undefined. -/
  body : Op → X → σ → Option (Effect σ Res Cv)
  /-- The mutex is released before the notification. -/
  unlocks_first : Op → Bool
  /-- What other code does without the mutex. -/
  outer : E → σ → σ
  predicate_outer : ∀ op e s, predicate op s = true → predicate op (outer e s) = true

namespace Monitor

/-- Where a thread is. -/
inductive Pc (Op Cv : Type*) where
  | idle
  | lock (op : Op)
  /-- The predicate of the wait. -/
  | check (op : Op)
  | block (op : Op)
  | blocked (op : Op)
  | woken (op : Op)
  /-- After the wait. -/
  | body (op : Op)
  /-- About to notify, with the mutex held or not. -/
  | notify (held : Bool) (n : Notification Cv)
  /-- About to release the mutex, and to notify then. -/
  | unlock (n : Option (Notification Cv))

/-- The body of a call, and what other code did. -/
inductive Entry (ι Op Res E : Type*) where
  | call (i : ι) (op : Op) (result : Res)
  | outer (e : E)

structure Sys (ι σ Op Res Cv E : Type*) where
  value : σ
  mutex : Option ι := none
  pc : ι → Pc Op Cv := fun _ => .idle
  log : List (Entry ι Op Res E) := []

inductive Action (ι Op X Cv E : Type*) where
  | call (i : ι) (op : Op)
  | run (i : ι)
  /-- The body, and how it ends. -/
  | body (i : ι) (x : X)
  /-- `notify_one`, and whom it wakes. -/
  | notify_one (i : ι) (target : Option ι)
  | spurious (i : ι)
  | outer (e : E)
  /-- `notify_one` by other code. -/
  | notify (cv : Cv) (target : Option ι)

variable {ι σ Op X Res Cv E : Type*} (m : Monitor σ Op X Res Cv E)

/-- The call need not wait. -/
def passes (op : Op) (s : σ) : Bool := (m.waits op).isNone || m.predicate op s

def Pc.after_unlock : Option (Notification Cv) → Pc Op Cv
  | none => .idle
  | some n => .notify false n

def Pc.after_notify (held : Bool) : Pc Op Cv := if held then .unlock none else .idle

/-- Where a body goes on. -/
def leave (op : Op) : Option (Notification Cv) → Pc Op Cv
  | none => .unlock none
  | some n => if m.unlocks_first op then .unlock (some n) else .notify true n

section Step

variable [DecidableEq ι] [DecidableEq Cv]

/-- What waits on `cv` and is woken. -/
def wake (cv : Cv) : Pc Op Cv → Option (Pc Op Cv)
  | .blocked op => if m.waits op = some cv then some (.woken op) else none
  | _ => none

omit [DecidableEq Cv] in
def Sys.goto (s : Sys ι σ Op Res Cv E) (i : ι) (p : Pc Op Cv) : Sys ι σ Op Res Cv E :=
  { s with pc := Function.update s.pc i p }

/-- A step of a thread, but for its body and `notify_one`. -/
def run (s : Sys ι σ Op Res Cv E) (i : ι) : Option (Sys ι σ Op Res Cv E) :=
  match s.pc i with
  | .idle | .blocked _ | .body _ | .notify _ (.one _) => none
  | .lock op | .woken op =>
      match s.mutex with
      | none => some { s.goto i (.check op) with mutex := some i }
      | some _ => none
  | .check op => some (s.goto i (if m.passes op s.value then .body op else .block op))
  | .block op => some { s.goto i (.blocked op) with mutex := none }
  | .notify held (.all cv) =>
      some { s with pc := Function.update (notifyAll (m.wake cv) s.pc) i (.after_notify held) }
  | .unlock n => some { s.goto i (.after_unlock n) with mutex := none }

def step [Fintype ι] (s : Sys ι σ Op Res Cv E) : Action ι Op X Cv E → Option (Sys ι σ Op Res Cv E)
  | .call i op =>
      match s.pc i with
      | .idle => some (s.goto i (.lock op))
      | _ => none
  | .run i => m.run s i
  | .body i x =>
      match s.pc i with
      | .body op =>
          (m.body op x s.value).map fun r =>
            { s.goto i (m.leave op r.notify) with
              value := r.value, log := s.log ++ [.call i op r.result] }
      | _ => none
  | .notify_one i target =>
      match s.pc i with
      | .notify held (.one cv) =>
          (notifyOne (m.wake cv) s.pc target).map fun pc =>
            { s with pc := Function.update pc i (.after_notify held) }
      | _ => none
  | .spurious i =>
      match s.pc i with
      | .blocked op => some (s.goto i (.woken op))
      | _ => none
  | .outer e => some { s with value := m.outer e s.value, log := s.log ++ [.outer e] }
  | .notify cv target =>
      (notifyOne (m.wake cv) s.pc target).map fun pc => { s with pc := pc }

end Step

/-- The threads `ι` and the monitor. -/
def system (ι : Type*) [Fintype ι] [DecidableEq ι] [DecidableEq Cv] :
    Lts (Sys ι σ Op Res Cv E) (Action ι Op X Cv E) where
  init := { value := m.init }
  step := m.step

/-! ## What should hold -/

/-- The value after the calls of the log, one after another, each with its predicate true. -/
inductive Replays : List (Entry ι Op Res E) → σ → Prop
  | start : Replays [] m.init
  | call {log : List (Entry ι Op Res E)} {s : σ} (i : ι) {op : Op} (x : X)
      {r : Effect σ Res Cv} (before : Replays log s) (passes : m.passes op s = true)
      (body : m.body op x s = some r) : Replays (log ++ [.call i op r.result]) r.value
  | outer {log : List (Entry ι Op Res E)} {s : σ} (e : E) (before : Replays log s) :
      Replays (log ++ [.outer e]) (m.outer e s)

/-- A thread of the monitor moves: not a new call, a spurious wakeup or other code. -/
def Action.Moves : Action ι Op X Cv E → Prop
  | .run _ | .body _ _ | .notify_one _ _ => True
  | .call _ _ | .spurious _ | .outer _ | .notify _ _ => False

/-- Nothing moves any more, unless somebody calls. -/
def Quiet [Fintype ι] [DecidableEq ι] [DecidableEq Cv] (s : Sys ι σ Op Res Cv E) : Prop :=
  ∀ a : Action ι Op X Cv E, a.Moves → m.step s a = none

/-- The mutex is free, and nobody waits for what is there. -/
structure Settled (s : Sys ι σ Op Res Cv E) : Prop where
  mutex : s.mutex = none
  threads : ∀ i, s.pc i = .idle ∨ ∃ op, s.pc i = .blocked op ∧ m.passes op s.value = false

/-! ## One call at a time -/

/-- Other code makes no predicate false. -/
theorem passes_outer {op : Op} {s : σ} (e : E) (h : m.passes op s = true) :
    m.passes op (m.outer e s) = true := by
  rw [passes, Bool.or_eq_true] at h ⊢
  exact h.imp_right (m.predicate_outer op e s)

/-- The thread holds the mutex. -/
def Pc.inside : Pc Op Cv → Bool
  | .check _ | .block _ | .body _ | .unlock _ => true
  | .notify held _ => held
  | .idle | .lock _ | .blocked _ | .woken _ => false

@[simp] theorem Pc.inside_after_unlock (n : Option (Notification Cv)) :
    (Pc.after_unlock n : Pc Op Cv).inside = false := by cases n <;> rfl

@[simp] theorem Pc.inside_after_notify (held : Bool) :
    (Pc.after_notify held : Pc Op Cv).inside = held := by cases held <;> rfl

/-- Behind its body a call still holds the mutex. -/
@[simp] theorem inside_leave (op : Op) (n : Option (Notification Cv)) :
    (m.leave op n).inside = true := by
  cases n with
  | none => rfl
  | some n =>
      rw [leave]
      split <;> rfl

/-- What a thread knows of the value: a body runs where its predicate is true, and only who
waits blocks. -/
def Knows (s : σ) : Pc Op Cv → Prop
  | .body op => m.passes op s = true
  | .block op | .blocked op => m.waits op ≠ none
  | .idle | .lock _ | .check _ | .woken _ | .notify _ _ | .unlock _ => True

theorem knows_after_unlock (s : σ) (n : Option (Notification Cv)) :
    m.Knows s (.after_unlock n) := by cases n <;> trivial

theorem knows_after_notify (s : σ) (held : Bool) : m.Knows s (.after_notify held) := by
  cases held <;> trivial

theorem knows_leave (s : σ) (op : Op) (n : Option (Notification Cv)) :
    m.Knows s (m.leave op n) := by
  cases n with
  | none => trivial
  | some n =>
      rw [leave]
      split <;> trivial

theorem knows_check (s : σ) (op : Op) :
    m.Knows s (if m.passes op s then .body op else .block op) := by
  split
  next h => exact h
  next h =>
    intro hwaits
    rw [passes, hwaits] at h
    exact h rfl

/-- What is known without the mutex stays known. -/
theorem Knows.of_outside {s t : σ} {p : Pc Op Cv} (h : m.Knows s p) (hp : p.inside = false) :
    m.Knows t p := by
  cases p with
  | body op => cases hp
  | idle | lock op | check op | block op | blocked op | woken op | notify held n | unlock n =>
      exact h

structure Inv (s : Sys ι σ Op Res Cv E) : Prop where
  mutex : Guarded Pc.inside s.mutex s.pc
  replays : m.Replays s.log s.value
  knows : ∀ j, m.Knows s.value (s.pc j)

variable {m} {s t : Sys ι σ Op Res Cv E} {i : ι} {p : Pc Op Cv}

section Steps

variable [DecidableEq ι]

/-- A step that leaves the value alone. -/
theorem Inv.goto (h : m.Inv s) {mutex : Option ι}
    (hmutex : Guarded Pc.inside mutex (Function.update s.pc i p)) (hp : m.Knows s.value p) :
    m.Inv { s.goto i p with mutex := mutex } where
  mutex := hmutex
  replays := h.replays
  knows := forall_update hp fun j _ => h.knows j

/-- A body runs with the mutex held and its predicate true, so the log stays a sequential history.
-/
theorem Inv.body (h : m.Inv s) {op : Op} (hpc : s.pc i = .body op) {x : X}
    {r : Effect σ Res Cv} (hr : m.body op x s.value = some r) :
    m.Inv { s.goto i (m.leave op r.notify) with
      value := r.value, log := s.log ++ [.call i op r.result] } where
  mutex := h.mutex.move ((m.inside_leave op r.notify).trans (by rw [hpc]; rfl))
  replays := by
    have hpasses : m.Knows s.value (s.pc i) := h.knows i
    rw [hpc] at hpasses
    exact h.replays.call i x hpasses hr
  knows := by
    apply forall_update (m.knows_leave r.value op r.notify)
    intro j hj
    -- the others are outside, so none of them is at its body
    exact (h.knows j).of_outside m (h.mutex.outside (by rw [hpc]; rfl) hj)

variable [DecidableEq Cv]

/-- Only a call that is blocked on the condition variable is woken. -/
theorem wake_eq {cv : Cv} {p q : Pc Op Cv} (h : m.wake cv p = some q) :
    ∃ op, p = .blocked op ∧ q = .woken op ∧ m.waits op = some cv := by
  cases p with
  | blocked op =>
      obtain ⟨hwaits, hq⟩ := Option.ite_none_right_eq_some.mp h
      exact ⟨op, rfl, (Option.some.inj hq).symm, hwaits⟩
  | idle | lock op | check op | block op | woken op | body op | notify held n | unlock n => cases h

omit [DecidableEq ι] in
/-- Being woken changes nothing but for who is woken. -/
theorem Inv.notified (h : m.Inv s) {cv : Cv} {reached : ι → Prop} {pc : ι → Pc Op Cv}
    (hpc : Notified (m.wake cv) reached s.pc pc) : m.Inv { s with pc := pc } where
  mutex := by
    intro j
    dsimp only
    rcases hpc j with hwoken | ⟨hsame, -⟩
    · obtain ⟨op, hblocked, hq, -⟩ := wake_eq hwoken
      have hj := h.mutex j
      rw [hblocked] at hj
      rw [hq]
      exact hj
    · rw [hsame]
      exact h.mutex j
  replays := h.replays
  knows := by
    intro j
    dsimp only
    rcases hpc j with hwoken | ⟨hsame, -⟩
    · obtain ⟨op, -, hq, -⟩ := wake_eq hwoken
      rw [hq]
      trivial
    · rw [hsame]
      exact h.knows j

/-- A notification moves the woken to the door. They do not own the mutex yet. -/
theorem Inv.notify (h : m.Inv s) {cv : Cv} {held : Bool} {n : Notification Cv}
    (hi : s.pc i = .notify held n) {reached : ι → Prop} {pc : ι → Pc Op Cv}
    (hpc : Notified (m.wake cv) reached s.pc pc) :
    m.Inv { s with pc := Function.update pc i (.after_notify held) } := by
  have hsame : pc i = .notify held n := by
    rcases hpc i with hwoken | ⟨hsame, -⟩
    · obtain ⟨op, hblocked, -⟩ := wake_eq hwoken
      rw [hi] at hblocked
      cases hblocked
    · exact hsame.trans hi
  apply Inv.goto (h.notified hpc)
  · apply (h.notified hpc).mutex.move
    rw [Pc.inside_after_notify]
    exact (congrArg Pc.inside hsame).symm
  · exact m.knows_after_notify s.value held

/-- A step of a thread that is not its body leaves the value and the log as they are. -/
theorem Inv.run (h : m.Inv s) (hstep : m.run s i = some t) : m.Inv t := by
  rw [Monitor.run] at hstep
  split at hstep
  case h_5 op hpc | h_6 op hpc =>
    cases hmutex : s.mutex <;> simp only [hmutex, reduceCtorEq, Option.some.injEq] at hstep
    subst hstep
    have hguard := h.mutex
    rw [hmutex] at hguard
    exact h.goto (hguard.lock rfl) trivial
  case h_7 op hpc =>
    obtain rfl := Option.some.inj hstep
    apply h.goto (h.mutex.move _) (m.knows_check s.value op)
    rw [hpc]
    split <;> rfl
  case h_8 op hpc =>
    obtain rfl := Option.some.inj hstep
    have hknows : m.Knows s.value (s.pc i) := h.knows i
    rw [hpc] at hknows
    exact h.goto (h.mutex.unlock (by rw [hpc]; rfl) rfl) hknows
  case h_9 held cv hpc =>
    obtain rfl := Option.some.inj hstep
    exact h.notify hpc (notified_all _ _)
  case h_10 n hpc =>
    obtain rfl := Option.some.inj hstep
    exact h.goto (h.mutex.unlock (by rw [hpc]; rfl) (Pc.inside_after_unlock n))
      (m.knows_after_unlock s.value n)
  all_goals cases hstep

/-- Every step keeps the invariant, and with it the sequential history. -/
theorem Inv.step [Fintype ι] (h : m.Inv s) (a : Action ι Op X Cv E)
    (hstep : m.step s a = some t) : m.Inv t := by
  cases a with
  | call i op =>
      rw [Monitor.step] at hstep
      split at hstep
      case h_1 hpc =>
        obtain rfl := Option.some.inj hstep
        exact h.goto (h.mutex.move (by rw [hpc]; rfl)) trivial
      case h_2 => cases hstep
  | run i => exact h.run hstep
  | body i x =>
      rw [Monitor.step] at hstep
      split at hstep
      case h_1 op hpc =>
        obtain ⟨r, hr, rfl⟩ := Option.map_eq_some_iff.mp hstep
        exact h.body hpc hr
      case h_2 => cases hstep
  | notify_one i target =>
      rw [Monitor.step] at hstep
      split at hstep
      case h_1 held cv hpc =>
        obtain ⟨pc, hpc', rfl⟩ := Option.map_eq_some_iff.mp hstep
        exact h.notify hpc (notified_one hpc')
      case h_2 => cases hstep
  | spurious i =>
      rw [Monitor.step] at hstep
      split at hstep
      case h_1 op hpc =>
        obtain rfl := Option.some.inj hstep
        exact h.goto (h.mutex.move (by rw [hpc]; rfl)) trivial
      case h_2 => cases hstep
  | outer e =>
      obtain rfl := Option.some.inj hstep
      refine ⟨h.mutex, h.replays.outer e, fun j => ?_⟩
      have hknows := h.knows j
      dsimp only
      cases hpc : s.pc j <;> rw [hpc] at hknows <;>
        first | exact m.passes_outer e hknows | exact hknows
  | notify cv target =>
      obtain ⟨pc, hpc, rfl⟩ := Option.map_eq_some_iff.mp hstep
      exact h.notified (notified_one hpc)

/-- **The calls take place one after another.** -/
theorem Inv.init [Fintype ι] : m.Inv (m.system ι).init := by
  refine ⟨fun j => ?_, Replays.start, fun _ => trivial⟩
  exact iff_of_false Bool.false_ne_true (by intro hnone; cases hnone)

/-- In every run the value is what the logged calls make of it one after another. What holds of the
operations in sequence therefore holds of them in every interleaving. -/
theorem replays [Fintype ι] {as : List (Action ι Op X Cv E)}
    (h : (m.system ι).exec (m.system ι).init as = some s) : m.Inv s :=
  (m.system ι).exec_inv (fun _ a _ hs ht => hs.step a ht) Inv.init h

end Steps

/-! ## No lost wakeups -/

/-- `ready cv s` is how many of those that wait on `cv` can go on, and the operations keep the
books: the `good` bodies and the `calm` steps of other code, where `valid` holds. -/
structure Balanced [DecidableEq Cv] (m : Monitor σ Op X Res Cv E) (ready : Cv → σ → Nat)
    (valid : σ → Prop) (good : Op → X → Prop) (calm : E → Prop) : Prop where
  init : valid m.init
  predicate_iff : ∀ op cv s, valid s → m.waits op = some cv →
    (m.predicate op s = true ↔ 0 < ready cv s)
  valid_body : ∀ op x s r, valid s → good op x → m.body op x s = some r → valid r.value
  /-- A body that has waited on `cv` uses one up, and what it provides it notifies of. -/
  ready_body : ∀ op x s r cv, valid s → good op x → m.passes op s = true →
    m.body op x s = some r →
    ready cv r.value = 0 ∨ r.notify = some (.all cv) ∨
      ready cv r.value + (if m.waits op = some cv then 1 else 0) ≤
        ready cv s + (if r.notify = some (.one cv) then 1 else 0)
  valid_outer : ∀ e s, valid s → calm e → valid (m.outer e s)
  ready_outer : ∀ e s cv, valid s → calm e → ready cv (m.outer e s) = ready cv s

section Counting

variable [DecidableEq Cv]

/-- The thread comes to go on where it waits on `cv`, or to notify one that does. -/
def Pc.coming (m : Monitor σ Op X Res Cv E) (cv : Cv) : Pc Op Cv → Nat
  | .lock op | .check op | .woken op | .body op => if m.waits op = some cv then 1 else 0
  | .notify _ n => if n = .one cv then 1 else 0
  | .unlock n => if n = some (.one cv) then 1 else 0
  | .idle | .block _ | .blocked _ => 0

/-- The thread does not look at its predicate again before it sleeps. -/
def Pc.late (m : Monitor σ Op X Res Cv E) (cv : Cv) : Pc Op Cv → Bool
  | .block op | .blocked op => m.waits op = some cv
  | .idle | .lock _ | .check _ | .woken _ | .body _ | .notify _ _ | .unlock _ => false

/-- The thread is going to notify all. -/
def Pc.wakes_all (cv : Cv) : Pc Op Cv → Bool
  | .notify _ n => n = .all cv
  | .unlock n => n = some (.all cv)
  | .idle | .lock _ | .check _ | .block _ | .blocked _ | .woken _ | .body _ => false

/-- A body that notifies one brings one. -/
@[simp] theorem coming_leave (m : Monitor σ Op X Res Cv E) (cv : Cv) (op : Op)
    (n : Option (Notification Cv)) :
    (m.leave op n).coming m cv = if n = some (.one cv) then 1 else 0 := by
  cases n with
  | none => rfl
  | some n =>
      rw [leave]
      split
      · rfl
      · simp only [Pc.coming, Option.some.injEq]

@[simp] theorem late_leave (m : Monitor σ Op X Res Cv E) (cv : Cv) (op : Op)
    (n : Option (Notification Cv)) : (m.leave op n).late m cv = false := by
  cases n with
  | none => rfl
  | some n =>
      rw [leave]
      split <;> rfl

@[simp] theorem wakes_all_leave (m : Monitor σ Op X Res Cv E) (cv : Cv) (op : Op)
    (n : Option (Notification Cv)) :
    (m.leave op n).wakes_all cv = decide (n = some (.all cv)) := by
  cases n with
  | none => rfl
  | some n =>
      rw [leave]
      split
      · rfl
      · rw [Pc.wakes_all]
        exact decide_eq_decide.mpr Option.some_inj.symm

@[simp] theorem coming_after_unlock (m : Monitor σ Op X Res Cv E) (cv : Cv)
    (n : Option (Notification Cv)) :
    (Pc.after_unlock n).coming m cv = if n = some (.one cv) then 1 else 0 := by
  cases n with
  | none => rfl
  | some n => simp only [Pc.after_unlock, Pc.coming, Option.some.injEq]

@[simp] theorem late_after_unlock (m : Monitor σ Op X Res Cv E) (cv : Cv)
    (n : Option (Notification Cv)) : (Pc.after_unlock n).late m cv = false := by
  cases n <;> rfl

@[simp] theorem wakes_all_after_unlock (cv : Cv) (n : Option (Notification Cv)) :
    (Pc.after_unlock n : Pc Op Cv).wakes_all cv = decide (n = some (.all cv)) := by
  cases n with
  | none => rfl
  | some n => simp only [Pc.after_unlock, Pc.wakes_all, Option.some.injEq]

@[simp] theorem coming_after_notify (m : Monitor σ Op X Res Cv E) (cv : Cv) (held : Bool) :
    (Pc.after_notify held).coming m cv = 0 := by
  cases held <;> rfl

@[simp] theorem late_after_notify (m : Monitor σ Op X Res Cv E) (cv : Cv) (held : Bool) :
    (Pc.after_notify held).late m cv = false := by
  cases held <;> rfl

@[simp] theorem wakes_all_after_notify (cv : Cv) (held : Bool) :
    (Pc.after_notify held : Pc Op Cv).wakes_all cv = false := by
  cases held <;> rfl

/-- Who is late on `cv` waits on it. -/
theorem late_eq {m : Monitor σ Op X Res Cv E} {cv : Cv} {p : Pc Op Cv}
    (h : p.late m cv = true) :
    ∃ op, m.waits op = some cv ∧ (p = .block op ∨ p = .blocked op) := by
  cases p with
  | block op => exact ⟨op, of_decide_eq_true h, Or.inl rfl⟩
  | blocked op => exact ⟨op, of_decide_eq_true h, Or.inr rfl⟩
  | idle | lock op | check op | woken op | body op | notify held n | unlock n => cases h

end Counting

section Balance

variable [Fintype ι] [DecidableEq Cv]

/-- If somebody is late, there are no more to go on than threads that are coming. -/
def Counted (m : Monitor σ Op X Res Cv E) (cv : Cv) (ready : Nat) (pc : ι → Pc Op Cv) : Prop :=
  (∃ j, (pc j).late m cv = true) →
    ready ≤ ∑ j, (pc j).coming m cv ∨ ∃ j, (pc j).wakes_all cv = true

omit [Fintype ι] [DecidableEq Cv] in
/-- Who is about to block has a false predicate. -/
def Refused (m : Monitor σ Op X Res Cv E) (s : σ) : Pc Op Cv → Prop
  | .block op => m.passes op s = false
  | .idle | .lock _ | .check _ | .blocked _ | .woken _ | .body _ | .notify _ _ | .unlock _ => True

structure Books (m : Monitor σ Op X Res Cv E) (ready : Cv → σ → Nat) (valid : σ → Prop)
    (s : Sys ι σ Op Res Cv E) : Prop where
  valid : valid s.value
  refused : ∀ j, m.Refused s.value (s.pc j)
  counted : ∀ cv, m.Counted cv (ready cv s.value) s.pc

variable {ready : Cv → σ → Nat} {valid : σ → Prop} {good : Op → X → Prop} {calm : E → Prop}
  {cv : Cv} {n n' : Nat} {pc pc' : ι → Pc Op Cv}

/-- The same threads count, and no more are late. -/
theorem Counted.congr (h : m.Counted cv n pc)
    (hlate : ∀ j, (pc' j).late m cv = true → (pc j).late m cv = true)
    (hcoming : ∀ j, (pc' j).coming m cv = (pc j).coming m cv)
    (hall : ∀ j, (pc j).wakes_all cv = true → (pc' j).wakes_all cv = true) :
    m.Counted cv n pc' := by
  rintro ⟨j, hj⟩
  rw [Finset.sum_congr rfl fun j _ => hcoming j]
  exact (h ⟨j, hlate j hj⟩).imp_right fun ⟨k, hk⟩ => ⟨k, hall k hk⟩

variable [DecidableEq ι]

/-- A thread moves, and the value may change with it. -/
theorem Counted.update (h : m.Counted cv n pc)
    (hlate : p.late m cv = true → (pc i).late m cv = true ∨ n' = 0)
    (hall : (pc i).wakes_all cv = true → p.wakes_all cv = true)
    (hready : n' = 0 ∨ p.wakes_all cv = true ∨
      n' + (pc i).coming m cv ≤ n + p.coming m cv) :
    m.Counted cv n' (Function.update pc i p) := by
  rintro ⟨j, hj⟩
  rcases hready with hzero | hwakes | hle
  · exact Or.inl (hzero ▸ Nat.zero_le _)
  · exact Or.inr ⟨i, by rw [Function.update_self]; exact hwakes⟩
  · by_cases hzero : n' = 0
    · exact Or.inl (hzero ▸ Nat.zero_le _)
    · have hbefore : ∃ j, (pc j).late m cv = true := by
        by_cases hji : j = i
        · rw [hji, Function.update_self] at hj
          exact ⟨i, (hlate hj).resolve_right hzero⟩
        · rw [Function.update_of_ne hji] at hj
          exact ⟨j, hj⟩
      rcases h hbefore with hcount | hwakes
      · left
        have hsum := sum_update (fun q => q.coming m cv) pc p (Finset.mem_univ i)
        omega
      · exact Or.inr (exists_update (P := fun q : Pc Op Cv => q.wakes_all cv = true) hwakes hall)

/-- `notify_one` hands its turn to the thread it wakes. If there is none, who is late is not
blocked yet, and has a false predicate. -/
theorem Counted.notify_one (h : m.Counted cv n pc) {held : Bool} {cv' : Cv}
    (hi : pc i = .notify held (.one cv')) {target : Option ι}
    (hpc : notifyOne (m.wake cv') pc target = some pc')
    (hrefused : ∀ j op, pc j = .block op → m.waits op = some cv → n = 0) :
    m.Counted cv n (Function.update pc' i (.after_notify held)) := by
  have hcoming : (pc i).coming m cv = if cv' = cv then 1 else 0 := by
    rw [hi]
    simp only [Pc.coming, Notification.one.injEq]
  have hall : (pc i).wakes_all cv = false := by rw [hi]; rfl
  cases target with
  | some j =>
      obtain ⟨q, hq, rfl⟩ := Option.map_eq_some_iff.mp hpc
      obtain ⟨op, hj, rfl, hwaits⟩ := wake_eq hq
      have hne : i ≠ j := by
        rintro rfl
        rw [hi] at hj
        cases hj
      have hwoken : m.Counted cv (n + if cv' = cv then 1 else 0)
          (Function.update pc j (.woken op)) := by
        apply h.update
        · intro hlate
          cases hlate
        · rw [hj]
          intro hwakes
          cases hwakes
        · right; right
          simp only [hj, Pc.coming, hwaits, Option.some.injEq]
          omega
      apply hwoken.update
      · rw [late_after_notify]
        intro hlate
        cases hlate
      · rw [Function.update_of_ne hne, hall]
        intro hwakes
        cases hwakes
      · right; right
        rw [Function.update_of_ne hne, hcoming, coming_after_notify]
        omega
  | none =>
      obtain ⟨hnone, hpc⟩ := Option.ite_none_right_eq_some.mp hpc
      obtain rfl := Option.some.inj hpc
      rintro ⟨j, hj⟩
      have hji : j ≠ i := by
        rintro rfl
        rw [Function.update_self, late_after_notify] at hj
        cases hj
      rw [Function.update_of_ne hji] at hj
      obtain ⟨op, hwaits, hblock | hblocked⟩ := late_eq hj
      · exact Or.inl (hrefused j op hblock hwaits ▸ Nat.zero_le _)
      · have hcv : cv' ≠ cv := by
          rintro rfl
          have hj' := hnone j
          rw [hblocked, wake, if_pos hwaits] at hj'
          cases hj'
        refine h.update (by simp) (by rw [hall]; simp) ?_ ⟨j, ?_⟩
        · right; right
          rw [hcoming, if_neg hcv, coming_after_notify]
        · rw [Function.update_of_ne hji]
          exact hj

/-- `notify_all` wakes all that are blocked; who is late still has a false predicate. -/
theorem Counted.notify_all (h : m.Counted cv n pc) {held : Bool} {cv' : Cv}
    (hi : pc i = .notify held (.all cv'))
    (hrefused : ∀ j op, pc j = .block op → m.waits op = some cv → n = 0) :
    m.Counted cv n (Function.update (notifyAll (m.wake cv') pc) i (.after_notify held)) := by
  by_cases hcv : cv' = cv
  · rintro ⟨j, hj⟩
    have hji : j ≠ i := by
      rintro rfl
      rw [Function.update_self, late_after_notify] at hj
      cases hj
    rw [Function.update_of_ne hji] at hj
    rcases notified_all (m.wake cv') pc j with hwoken | ⟨hsame, hnone⟩
    · obtain ⟨op, -, hq, -⟩ := wake_eq hwoken
      rw [hq] at hj
      cases hj
    · rw [hsame] at hj
      obtain ⟨op, hwaits, hblock | hblocked⟩ := late_eq hj
      · exact Or.inl (hrefused j op hblock hwaits ▸ Nat.zero_le _)
      · have hj' := hnone trivial
        rw [hblocked, wake, if_pos (hcv ▸ hwaits)] at hj'
        cases hj'
  · have hwoken : m.Counted cv n (notifyAll (m.wake cv') pc) := by
      apply h.congr
      · intro j hj
        rcases notified_all (m.wake cv') pc j with hwoken | ⟨hsame, -⟩
        · obtain ⟨op, -, hq, -⟩ := wake_eq hwoken
          rw [hq] at hj
          cases hj
        · exact hsame ▸ hj
      · intro j
        rcases notified_all (m.wake cv') pc j with hwoken | ⟨hsame, -⟩
        · obtain ⟨op, hblocked, hq, hwaits⟩ := wake_eq hwoken
          simp only [hq, hblocked, Pc.coming, hwaits, Option.some.injEq, if_neg hcv]
        · rw [hsame]
      · intro j hj
        rcases notified_all (m.wake cv') pc j with hwoken | ⟨hsame, -⟩
        · obtain ⟨op, hblocked, -, -⟩ := wake_eq hwoken
          rw [hblocked] at hj
          cases hj
        · exact hsame.symm ▸ hj
    have hsame : notifyAll (m.wake cv') pc i = pc i := by
      rw [notifyAll, hi]
      rfl
    apply hwoken.update
    · rw [late_after_notify]
      intro hlate
      cases hlate
    · rw [hsame, hi, wakes_all_after_notify]
      intro hwakes
      exact absurd (Notification.all.inj (of_decide_eq_true hwakes)) hcv
    · right; right
      rw [hsame, hi, coming_after_notify]
      simp only [Pc.coming, reduceCtorEq, if_false, Nat.le_refl]

/-- The step is not one that loses count. -/
def Keeps (good : Op → X → Prop) (calm : E → Prop) (s : Sys ι σ Op Res Cv E) :
    Action ι Op X Cv E → Prop
  | .body i x => ∀ op, s.pc i = .body op → good op x
  | .outer e => calm e
  | .call _ _ | .run _ | .notify_one _ _ | .spurious _ | .notify _ _ => True

omit [Fintype ι] [DecidableEq ι] [DecidableEq Cv] in
/-- Where every body is good, and so is other code, only such steps are taken. -/
theorem keeps_of_forall (hgood : ∀ op x, good op x) {a : Action ι Op X Cv E}
    (hcalm : ∀ e, a = .outer e → calm e) : Keeps good calm s a := by
  cases a with
  | body i x => exact fun op _ => hgood op x
  | outer e => exact hcalm e rfl
  | call i op | run i | notify_one i target | spurious i | notify cv target => trivial

omit [Fintype ι] [DecidableEq ι] in
/-- Who waits on a condition variable may go on exactly where something is ready there. -/
theorem Balanced.passes_iff (hm : Balanced m ready valid good calm) {op : Op} {v : σ}
    (hv : valid v) (hwaits : m.waits op = some cv) :
    m.passes op v = true ↔ 0 < ready cv v := by
  rw [passes, hwaits]
  exact hm.predicate_iff op cv v hv hwaits

omit [Fintype ι] [DecidableEq ι] in
/-- Where the predicate is false nothing is ready. -/
theorem Balanced.ready_eq_zero (hm : Balanced m ready valid good calm) {op : Op} {v : σ}
    (hv : valid v) (hwaits : m.waits op = some cv) (h : m.passes op v = false) :
    ready cv v = 0 := by
  by_contra hne
  rw [(hm.passes_iff hv hwaits).mpr (Nat.pos_of_ne_zero hne)] at h
  cases h

omit [Fintype ι] [DecidableEq ι] in
/-- Calm code makes no predicate true. -/
theorem Balanced.refused_outer (hm : Balanced m ready valid good calm) {op : Op} {v : σ} {e : E}
    (hv : valid v) (he : calm e) (h : m.passes op v = false) :
    m.passes op (m.outer e v) = false := by
  cases hwaits : m.waits op with
  | none =>
      rw [passes, hwaits] at h
      cases h
  | some cv =>
      by_contra hne
      have hpos := (hm.passes_iff (hm.valid_outer e v hv he) hwaits).mp (by simpa using hne)
      rw [hm.ready_outer e v cv hv he, hm.ready_eq_zero hv hwaits h] at hpos
      exact absurd hpos (Nat.lt_irrefl 0)

omit [Fintype ι] [DecidableEq ι] [DecidableEq Cv] in
/-- A thread outside the mutex has not been refused. -/
theorem refused_of_outside {v : σ} (hp : p.inside = false) : m.Refused v p := by
  cases p with
  | block op => cases hp
  | idle | lock op | check op | blocked op | woken op | body op | notify held n
  | unlock n => trivial

omit [Fintype ι] [DecidableEq ι] [DecidableEq Cv] in
theorem refused_leave (m : Monitor σ Op X Res Cv E) (v : σ) (op : Op)
    (n : Option (Notification Cv)) : m.Refused v (m.leave op n) := by
  cases n with
  | none => trivial
  | some n =>
      rw [leave]
      split <;> trivial

omit [DecidableEq ι] in
/-- Who is about to block finds nothing ready: the predicate was false, and the mutex has been held
since. -/
theorem Books.zero (hm : Balanced m ready valid good calm) (h : Books m ready valid s) (cv : Cv)
    (j : ι) (op : Op) (hj : s.pc j = .block op) (hwaits : m.waits op = some cv) :
    ready cv s.value = 0 := by
  have hrefused := h.refused j
  rw [hj] at hrefused
  exact hm.ready_eq_zero h.valid hwaits hrefused

/-- A step that leaves the value alone. -/
theorem Books.goto (h : Books m ready valid s) {mutex : Option ι}
    (hp : m.Refused s.value p)
    (hlate : ∀ cv, p.late m cv = true → (s.pc i).late m cv = true ∨ ready cv s.value = 0)
    (hall : ∀ cv, (s.pc i).wakes_all cv = true → p.wakes_all cv = true)
    (hcoming : ∀ cv, (s.pc i).coming m cv ≤ p.coming m cv ∨ ready cv s.value = 0) :
    Books m ready valid { s.goto i p with mutex := mutex } where
  valid := h.valid
  refused := forall_update hp fun j _ => h.refused j
  counted := fun cv => (h.counted cv).update (hlate cv) (hall cv)
    ((hcoming cv).symm.imp_right fun hle => Or.inr (Nat.add_le_add_left hle _))

/-- A body keeps the books: what it uses up it had waited for, and what it provides it announces. -/
theorem Books.body (hm : Balanced m ready valid good calm) (hinv : m.Inv s)
    (h : Books m ready valid s) {op : Op} (hpc : s.pc i = .body op) {x : X} (hgood : good op x)
    {r : Effect σ Res Cv} (hr : m.body op x s.value = some r) :
    Books m ready valid { s.goto i (m.leave op r.notify) with
      value := r.value, log := s.log ++ [.call i op r.result] } where
  valid := hm.valid_body op x s.value r h.valid hgood hr
  refused := by
    apply forall_update (m.refused_leave r.value op r.notify)
    intro j hj
    exact refused_of_outside (hinv.mutex.outside (by rw [hpc]; rfl) hj)
  counted := by
    intro cv
    have hpasses : m.Knows s.value (s.pc i) := hinv.knows i
    rw [hpc] at hpasses
    apply (h.counted cv).update
    · rw [late_leave]
      intro hlate
      cases hlate
    · rw [hpc]
      intro hwakes
      cases hwakes
    · rw [wakes_all_leave, coming_leave, hpc, decide_eq_true_eq]
      exact hm.ready_body op x s.value r cv h.valid hgood hpasses hr

/-- A predicate that is false lets a thread be late: nobody could go on. -/
theorem Books.check (hm : Balanced m ready valid good calm) (h : Books m ready valid s) {op : Op}
    (hpc : s.pc i = .check op) :
    Books m ready valid (s.goto i (if m.passes op s.value then .body op else .block op)) := by
  cases hpasses : m.passes op s.value with
  | true =>
      rw [if_pos rfl]
      apply h.goto (p := .body op) trivial <;> simp [hpc, Pc.late, Pc.wakes_all, Pc.coming]
  | false =>
      rw [if_neg Bool.false_ne_true]
      have hzero : ∀ cv, m.waits op = some cv → ready cv s.value = 0 :=
        fun cv hwaits => hm.ready_eq_zero h.valid hwaits hpasses
      apply h.goto (p := .block op) hpasses
      · intro cv hlate
        exact Or.inr (hzero cv (of_decide_eq_true hlate))
      · intro cv hwakes
        rw [hpc] at hwakes
        cases hwakes
      · intro cv
        rw [hpc]
        by_cases hwaits : m.waits op = some cv
        · exact Or.inr (hzero cv hwaits)
        · left
          rw [Pc.coming, if_neg hwaits]
          exact Nat.zero_le _

omit [DecidableEq ι] in
/-- The woken look at the predicate again. -/
theorem Books.woken_refused (h : Books m ready valid s) {reached : ι → Prop} {cv : Cv}
    (hpc : Notified (m.wake cv) reached s.pc pc) (j : ι) : m.Refused s.value (pc j) := by
  rcases hpc j with hwoken | ⟨hsame, -⟩
  · obtain ⟨op, -, hq, -⟩ := wake_eq hwoken
    rw [hq]
    trivial
  · rw [hsame]
    exact h.refused j

omit [DecidableEq Cv] in
theorem refused_after_notify (v : σ) (held : Bool) : m.Refused v (.after_notify held) := by
  cases held <;> trivial

/-- The other steps of a thread keep the books, a notification of all included. -/
theorem Books.run (hm : Balanced m ready valid good calm) (h : Books m ready valid s)
    (hstep : m.run s i = some t) : Books m ready valid t := by
  rw [Monitor.run] at hstep
  split at hstep
  case h_5 op hpc | h_6 op hpc =>
    cases hmutex : s.mutex <;> simp only [hmutex, reduceCtorEq, Option.some.injEq] at hstep
    subst hstep
    apply h.goto (p := .check op) trivial <;> simp [hpc, Pc.late, Pc.wakes_all, Pc.coming]
  case h_7 op hpc =>
    obtain rfl := Option.some.inj hstep
    exact h.check hm hpc
  case h_8 op hpc =>
    obtain rfl := Option.some.inj hstep
    apply h.goto (p := .blocked op) trivial
    · intro cv hlate
      rw [hpc]
      exact Or.inl hlate
    · simp [hpc, Pc.wakes_all]
    · simp [hpc, Pc.coming]
  case h_9 held cv hpc =>
    obtain rfl := Option.some.inj hstep
    refine ⟨h.valid, ?_, fun cv' => ?_⟩
    · exact forall_update (refused_after_notify s.value held)
        fun j _ => h.woken_refused (notified_all _ _) j
    · exact (h.counted cv').notify_all hpc fun j op hj => h.zero hm cv' j op hj
  case h_10 n hpc =>
    obtain rfl := Option.some.inj hstep
    apply h.goto (p := .after_unlock n)
    · cases n <;> trivial
    · simp
    · intro cv hwakes
      rw [hpc] at hwakes
      rw [wakes_all_after_unlock]
      exact hwakes
    · intro cv
      rw [hpc, coming_after_unlock]
      exact Or.inl (Nat.le_refl _)
  all_goals cases hstep

/-- Every step keeps the books, as long as the bodies and the other code do what `Balanced` asks. -/
theorem Books.step (hm : Balanced m ready valid good calm) (hinv : m.Inv s)
    (h : Books m ready valid s) {a : Action ι Op X Cv E} (ha : Keeps good calm s a)
    (hstep : m.step s a = some t) : Books m ready valid t := by
  cases a with
  | call i op =>
      rw [Monitor.step] at hstep
      split at hstep
      case h_1 hpc =>
        obtain rfl := Option.some.inj hstep
        apply h.goto (p := .lock op) trivial <;> simp [hpc, Pc.late, Pc.wakes_all, Pc.coming]
      case h_2 => cases hstep
  | run i => exact h.run hm hstep
  | body i x =>
      rw [Monitor.step] at hstep
      split at hstep
      case h_1 op hpc =>
        obtain ⟨r, hr, rfl⟩ := Option.map_eq_some_iff.mp hstep
        exact h.body hm hinv hpc (ha op hpc) hr
      case h_2 => cases hstep
  | notify_one i target =>
      rw [Monitor.step] at hstep
      split at hstep
      case h_1 held cv hpc =>
        obtain ⟨pc, hpc', rfl⟩ := Option.map_eq_some_iff.mp hstep
        refine ⟨h.valid, ?_, fun cv' => ?_⟩
        · exact forall_update (refused_after_notify s.value held)
            fun j _ => h.woken_refused (notified_one hpc') j
        · exact (h.counted cv').notify_one hpc hpc' fun j op hj => h.zero hm cv' j op hj
      case h_2 => cases hstep
  | spurious i =>
      rw [Monitor.step] at hstep
      split at hstep
      case h_1 op hpc =>
        obtain rfl := Option.some.inj hstep
        apply h.goto (p := .woken op) trivial <;> simp [hpc, Pc.late, Pc.wakes_all, Pc.coming]
      case h_2 => cases hstep
  | outer e =>
      obtain rfl := Option.some.inj hstep
      refine ⟨hm.valid_outer e s.value h.valid ha, fun j => ?_, fun cv => ?_⟩
      · have hrefused := h.refused j
        dsimp only
        cases hpc : s.pc j with
        | block op =>
            rw [hpc] at hrefused
            exact hm.refused_outer h.valid ha hrefused
        | idle | lock op | check op | blocked op | woken op | body op | notify held n
        | unlock n => trivial
      · rw [hm.ready_outer e s.value cv h.valid ha]
        exact h.counted cv
  | notify cv target =>
      obtain ⟨pc, hpc, rfl⟩ := Option.map_eq_some_iff.mp hstep
      refine ⟨h.valid, fun j => h.woken_refused (notified_one hpc) j, fun cv' => ?_⟩
      cases target with
      | none =>
          obtain ⟨-, hpc⟩ := Option.ite_none_right_eq_some.mp hpc
          exact Option.some.inj hpc ▸ h.counted cv'
      | some j =>
          obtain ⟨q, hq, rfl⟩ := Option.map_eq_some_iff.mp hpc
          obtain ⟨op, hj, rfl, -⟩ := wake_eq hq
          apply (h.counted cv').update <;> simp [hj, Pc.late, Pc.wakes_all, Pc.coming]

/-- At the start nobody waits. -/
theorem Books.init (hm : Balanced m ready valid good calm) :
    Books m ready valid (m.system ι).init := by
  refine ⟨hm.init, fun _ => trivial, fun cv => ?_⟩
  rintro ⟨j, hj⟩
  cases hj

/-- Where nobody loses count, the books are right after any run. -/
theorem books (hm : Balanced m ready valid good calm) {as : List (Action ι Op X Cv E)}
    (hgood : (m.system ι).Always (Keeps good calm) (m.system ι).init as)
    (h : (m.system ι).exec (m.system ι).init as = some s) : m.Inv s ∧ Books m ready valid s := by
  apply (m.system ι).exec_inv_of_always (P := fun s => m.Inv s ∧ Books m ready valid s) _ _ hgood h
  · intro s a t hs ha ht
    exact ⟨hs.1.step a ht, hs.2.step hm hs.1 ha ht⟩
  · exact ⟨Inv.init, Books.init hm⟩

omit [DecidableEq Cv] in
/-- A notification can always take place. -/
theorem exists_notifyOne {κ : Type*} (wake : κ → Option κ) (pc : ι → κ) :
    ∃ target, notifyOne wake pc target ≠ none := by
  by_cases hnone : ∀ j, (wake (pc j)).isNone = true
  · refine ⟨none, ?_⟩
    rw [notifyOne, if_pos hnone]
    exact Option.some_ne_none pc
  · push Not at hnone
    obtain ⟨j, hj⟩ := hnone
    refine ⟨some j, fun hmap => hj ?_⟩
    rw [Option.map_eq_none_iff.mp hmap]
    rfl

/-- Where nothing can move nobody is about to notify, since a notification never waits. -/
theorem Quiet.not_notify (hquiet : m.Quiet s) (i : ι) (held : Bool) (n : Notification Cv) :
    s.pc i ≠ .notify held n := by
  intro hpc
  cases n with
  | one cv =>
      obtain ⟨target, htarget⟩ := exists_notifyOne (m.wake cv) s.pc
      have hnotify := hquiet (.notify_one i target) trivial
      rw [Monitor.step, hpc] at hnotify
      exact htarget (Option.map_eq_none_iff.mp hnotify)
  | all cv =>
      have hrun := hquiet (.run i) trivial
      rw [Monitor.step, Monitor.run, hpc] at hrun
      cases hrun

/-- Who holds the mutex, or is about to take it, can go on. -/
theorem Quiet.threads (hquiet : m.Quiet s) (hinv : m.Inv s)
    (htotal : ∀ op, m.passes op s.value = true → ∃ x, (m.body op x s.value).isSome = true) :
    s.mutex = none ∧ ∀ i, s.pc i = .idle ∨ ∃ op, s.pc i = .blocked op := by
  have houtside : ∀ i, (s.pc i).inside = false := by
    intro i
    by_contra hne
    have hrun := hquiet (.run i) trivial
    rw [Monitor.step, Monitor.run] at hrun
    cases hpc : s.pc i with
    | idle | lock op | blocked op | woken op => rw [hpc] at hne; exact hne rfl
    | check op | block op | unlock n => rw [hpc] at hrun; cases hrun
    | body op =>
        have hpasses := hinv.knows i
        rw [hpc] at hpasses
        obtain ⟨x, hx⟩ := htotal op hpasses
        have hbody := hquiet (.body i x) trivial
        rw [Monitor.step, hpc] at hbody
        rw [Option.map_eq_none_iff.mp hbody] at hx
        cases hx
    | notify held n => exact hquiet.not_notify i held n hpc
  have hmutex : s.mutex = none := by
    by_contra hne
    obtain ⟨j, hj⟩ := Option.ne_none_iff_exists'.mp hne
    have hinside := (hinv.mutex j).mpr hj
    rw [houtside j] at hinside
    cases hinside
  refine ⟨hmutex, fun i => ?_⟩
  have hrun := hquiet (.run i) trivial
  rw [Monitor.step, Monitor.run] at hrun
  have hout := houtside i
  cases hpc : s.pc i with
  | idle => exact Or.inl rfl
  | blocked op => exact Or.inr ⟨op, rfl⟩
  | lock op | woken op =>
      rw [hpc, hmutex] at hrun
      cases hrun
  | notify held n => exact absurd hpc (hquiet.not_notify i held n)
  | check op | block op | body op | unlock n =>
      rw [hpc] at hout
      cases hout

/-- **No wakeup is lost.** When nothing moves any more the mutex is free, and whoever is still
blocked has a false predicate. -/
theorem Quiet.settled (hquiet : m.Quiet s) (hm : Balanced m ready valid good calm)
    (hinv : m.Inv s) (hbooks : Books m ready valid s)
    (htotal : ∀ op, m.passes op s.value = true → ∃ x, (m.body op x s.value).isSome = true) :
    m.Settled s := by
  obtain ⟨hmutex, hthreads⟩ := hquiet.threads hinv htotal
  refine ⟨hmutex, fun i => (hthreads i).imp_right fun ⟨op, hblocked⟩ => ⟨op, hblocked, ?_⟩⟩
  by_contra hpasses
  rw [Bool.not_eq_false] at hpasses
  have hknows := hinv.knows i
  rw [hblocked] at hknows
  obtain ⟨cv, hwaits⟩ := Option.ne_none_iff_exists'.mp hknows
  have hlate : (s.pc i).late m cv = true := by
    rw [hblocked]
    exact decide_eq_true hwaits
  have hpos : 0 < ready cv s.value := (hm.passes_iff hbooks.valid hwaits).mp hpasses
  rcases hbooks.counted cv ⟨i, hlate⟩ with hcount | ⟨j, hj⟩
  · -- somebody is coming, and so can move
    obtain ⟨j, -, hj⟩ := Finset.exists_ne_zero_of_sum_ne_zero
      (Nat.ne_of_gt (Nat.lt_of_lt_of_le hpos hcount))
    rcases hthreads j with hidle | ⟨op', hblocked'⟩
    · rw [hidle] at hj
      exact hj rfl
    · rw [hblocked'] at hj
      exact hj rfl
  · rcases hthreads j with hidle | ⟨op', hblocked'⟩
    · rw [hidle] at hj
      cases hj
    · rw [hblocked'] at hj
      cases hj

end Balance

/-- In whatever way the calls interleave, no wakeup is lost. -/
def Lossless (m : Monitor σ Op X Res Cv E) [DecidableEq Cv] : Prop :=
  ∀ n, ∀ s, (m.system (Fin n)).Reaches (m.system (Fin n)).init s → m.Quiet s → m.Settled s

/-- No wakeup is lost in a balanced monitor, for any number of threads. -/
theorem lossless [DecidableEq Cv] {ready : Cv → σ → Nat} {valid : σ → Prop}
    (hm : Balanced m ready valid (fun _ _ => True) (fun _ => True))
    (htotal : ∀ op v, m.passes op v = true → ∃ x, (m.body op x v).isSome = true) :
    m.Lossless := by
  intro n s hreaches hquiet
  obtain ⟨as, h⟩ := hreaches
  have hkeeps : (m.system (Fin n)).Always (Keeps (fun _ _ => True) fun _ => True)
      (m.system (Fin n)).init as := by
    apply (m.system (Fin n)).always_of_forall
    exact fun a _ s => keeps_of_forall (fun _ _ => trivial) fun _ _ => trivial
  obtain ⟨hinv, hbooks⟩ := books hm hkeeps h
  exact hquiet.settled hm hinv hbooks fun op => htotal op s.value

/-! ## What a step does to a thread -/

/-- The moves of a thread, but for its call, where the monitor holds `v`. -/
inductive Move (m : Monitor σ Op X Res Cv E) (v : σ) : Pc Op Cv → Pc Op Cv → Prop
  | lock (op : Op) : Move m v (.lock op) (.check op)
  | relock (op : Op) : Move m v (.woken op) (.check op)
  | pass (op : Op) (h : m.passes op v = true) : Move m v (.check op) (.body op)
  | refuse (op : Op) (h : m.passes op v = false) : Move m v (.check op) (.block op)
  | block (op : Op) : Move m v (.block op) (.blocked op)
  | wake (op : Op) : Move m v (.blocked op) (.woken op)
  | leave (op : Op) (n : Option (Notification Cv)) : Move m v (.body op) (m.leave op n)
  | notify (held : Bool) (n : Notification Cv) : Move m v (.notify held n) (.after_notify held)
  | unlock (n : Option (Notification Cv)) : Move m v (.unlock n) (.after_unlock n)

section Moves

variable [DecidableEq ι] [DecidableEq Cv]

omit [DecidableEq ι] in
/-- A notification moves a thread by waking it, or not at all. -/
theorem Notified.move {cv : Cv} {reached : ι → Prop} {pc pc' : ι → Pc Op Cv}
    (h : Notified (m.wake cv) reached pc pc') (v : σ) (j : ι) :
    pc' j = pc j ∨ m.Move v (pc j) (pc' j) := by
  rcases h j with hwoken | ⟨hsame, -⟩
  · obtain ⟨op, hblocked, hq, -⟩ := wake_eq hwoken
    rw [hblocked, hq]
    exact Or.inr (.wake op)
  · exact Or.inl hsame

/-- A step moves each thread along, or leaves it where it is. -/
theorem step_pc [Fintype ι] {a : Action ι Op X Cv E} (hstep : m.step s a = some t) (j : ι) :
    t.pc j = s.pc j ∨ m.Move s.value (s.pc j) (t.pc j) ∨
      ∃ op, a = .call j op ∧ s.pc j = .idle ∧ t.pc j = .lock op := by
  have hgoto : ∀ i p, m.Move s.value (s.pc i) p → Function.update s.pc i p j = s.pc j ∨
      m.Move s.value (s.pc j) (Function.update s.pc i p j) ∨
        ∃ op, a = .call j op ∧ s.pc j = .idle ∧ Function.update s.pc i p j = .lock op := by
    intro i p hp
    by_cases hj : j = i
    · rw [hj, Function.update_self]
      exact Or.inr (Or.inl hp)
    · exact Or.inl (Function.update_of_ne hj ..)
  have hnotify : ∀ i held n cv reached pc, s.pc i = .notify held n →
      Notified (m.wake cv) reached s.pc pc →
      Function.update pc i (.after_notify held) j = s.pc j ∨
        m.Move s.value (s.pc j) (Function.update pc i (.after_notify held) j) := by
    intro i held n cv reached pc hi hpc
    by_cases hj : j = i
    · rw [hj, Function.update_self, hi]
      exact Or.inr (.notify held n)
    · rw [Function.update_of_ne hj]
      exact Notified.move hpc s.value j
  cases a with
  | call i op =>
      rw [Monitor.step] at hstep
      split at hstep
      case h_1 hpc =>
        obtain rfl := Option.some.inj hstep
        by_cases hj : j = i
        · subst hj
          exact Or.inr (Or.inr ⟨op, rfl, hpc, Function.update_self ..⟩)
        · exact Or.inl (Function.update_of_ne hj ..)
      case h_2 => cases hstep
  | run i =>
      rw [Monitor.step, run] at hstep
      split at hstep
      case h_5 op hpc =>
        cases hmutex : s.mutex <;> simp only [hmutex, reduceCtorEq, Option.some.injEq] at hstep
        subst hstep
        exact hgoto i _ (hpc ▸ .lock op)
      case h_6 op hpc =>
        cases hmutex : s.mutex <;> simp only [hmutex, reduceCtorEq, Option.some.injEq] at hstep
        subst hstep
        exact hgoto i _ (hpc ▸ .relock op)
      case h_7 op hpc =>
        obtain rfl := Option.some.inj hstep
        apply hgoto i
        rw [hpc]
        split
        next hpasses => exact .pass op hpasses
        next hpasses => exact .refuse op (by simpa using hpasses)
      case h_8 op hpc =>
        obtain rfl := Option.some.inj hstep
        exact hgoto i _ (hpc ▸ .block op)
      case h_9 held cv hpc =>
        obtain rfl := Option.some.inj hstep
        exact (hnotify i held _ cv _ _ hpc (notified_all _ _)).imp_right Or.inl
      case h_10 n hpc =>
        obtain rfl := Option.some.inj hstep
        exact hgoto i _ (hpc ▸ .unlock n)
      all_goals cases hstep
  | body i x =>
      rw [Monitor.step] at hstep
      split at hstep
      case h_1 op hpc =>
        obtain ⟨r, -, rfl⟩ := Option.map_eq_some_iff.mp hstep
        exact hgoto i _ (hpc ▸ .leave op r.notify)
      case h_2 => cases hstep
  | notify_one i target =>
      rw [Monitor.step] at hstep
      split at hstep
      case h_1 held cv hpc =>
        obtain ⟨pc, hpc', rfl⟩ := Option.map_eq_some_iff.mp hstep
        exact (hnotify i held _ cv _ _ hpc (notified_one hpc')).imp_right Or.inl
      case h_2 => cases hstep
  | spurious i =>
      rw [Monitor.step] at hstep
      split at hstep
      case h_1 op hpc =>
        obtain rfl := Option.some.inj hstep
        exact hgoto i _ (hpc ▸ .wake op)
      case h_2 => cases hstep
  | outer e =>
      obtain rfl := Option.some.inj hstep
      exact Or.inl rfl
  | notify cv target =>
      obtain ⟨pc, hpc, rfl⟩ := Option.map_eq_some_iff.mp hstep
      exact (Notified.move (notified_one hpc) s.value j).imp_right Or.inl

/-- A step changes the value where it is other code's, or a body. -/
theorem step_value [Fintype ι] {a : Action ι Op X Cv E} (hstep : m.step s a = some t) :
    (∃ e, a = .outer e ∧ t.value = m.outer e s.value) ∨ (∀ e, a ≠ .outer e) ∧
      (t.value = s.value ∨ ∃ op x r, m.body op x s.value = some r ∧ t.value = r.value) := by
  cases a with
  | outer e =>
      obtain rfl := Option.some.inj hstep
      exact Or.inl ⟨e, rfl, rfl⟩
  | body i x =>
      refine Or.inr ⟨(by intro e he; cases he), Or.inr ?_⟩
      rw [Monitor.step] at hstep
      split at hstep
      case h_1 op hpc =>
        obtain ⟨r, hr, rfl⟩ := Option.map_eq_some_iff.mp hstep
        exact ⟨op, x, r, hr, rfl⟩
      case h_2 => cases hstep
  | run i =>
      refine Or.inr ⟨(by intro e he; cases he), Or.inl ?_⟩
      rw [Monitor.step, run] at hstep
      split at hstep
      case h_5 | h_6 =>
        cases hmutex : s.mutex <;> simp only [hmutex, reduceCtorEq, Option.some.injEq] at hstep
        subst hstep
        rfl
      case h_7 | h_8 | h_9 | h_10 =>
        obtain rfl := Option.some.inj hstep
        rfl
      all_goals cases hstep
  | call i op | spurious i =>
      refine Or.inr ⟨(by intro e he; cases he), Or.inl ?_⟩
      rw [Monitor.step] at hstep
      split at hstep
      case h_1 =>
        obtain rfl := Option.some.inj hstep
        rfl
      case h_2 => cases hstep
  | notify_one i target =>
      refine Or.inr ⟨(by intro e he; cases he), Or.inl ?_⟩
      rw [Monitor.step] at hstep
      split at hstep
      case h_1 =>
        obtain ⟨pc, -, rfl⟩ := Option.map_eq_some_iff.mp hstep
        rfl
      case h_2 => cases hstep
  | notify cv target =>
      refine Or.inr ⟨(by intro e he; cases he), Or.inl ?_⟩
      obtain ⟨pc, -, rfl⟩ := Option.map_eq_some_iff.mp hstep
      rfl

/-- A thread falls asleep only where its predicate was false. -/
theorem step_late [Fintype ι] {a : Action ι Op X Cv E} (hstep : m.step s a = some t) {cv : Cv}
    {j : ι} (hj : (t.pc j).late m cv = true) :
    (s.pc j).late m cv = true ∨
      ∃ op, s.pc j = .check op ∧ m.waits op = some cv ∧ m.passes op s.value = false := by
  rcases step_pc hstep j with hsame | hmove | ⟨op, -, -, hlock⟩
  · exact Or.inl (hsame ▸ hj)
  · generalize t.pc j = q at hmove hj
    generalize s.pc j = p at hmove ⊢
    cases hmove with
    | refuse op hpasses => exact Or.inr ⟨op, rfl, of_decide_eq_true hj, hpasses⟩
    | block op => exact Or.inl hj
    | leave op n =>
        rw [late_leave] at hj
        cases hj
    | notify held n =>
        rw [late_after_notify] at hj
        cases hj
    | unlock n =>
        rw [late_after_unlock] at hj
        cases hj
    | lock op | relock op | pass op _ | wake op => cases hj
  · rw [hlock] at hj
    cases hj

/-- A notification reaches the one thread that waits on `cv`, if it is asleep. -/
theorem late_notify [Fintype ι] {cv : Cv} {target : Option ι}
    (hstep : m.step s (.notify cv target) = some t) {j : ι}
    (honly : ∀ k op, s.pc k = .blocked op → m.waits op = some cv → k = j)
    (hblock : ∀ op, s.pc j ≠ .block op) : (t.pc j).late m cv = false := by
  obtain ⟨pc, hpc, rfl⟩ := Option.map_eq_some_iff.mp hstep
  by_contra hlate
  rw [Bool.not_eq_false] at hlate
  dsimp only at hlate
  obtain ⟨op, hwaits, hop⟩ := late_eq hlate
  rcases notified_one hpc j with hwoken | ⟨hsame, hnone⟩
  · obtain ⟨op', -, hq, -⟩ := wake_eq hwoken
    rw [hq] at hlate
    cases hlate
  · rw [hsame] at hop
    have hblocked := hop.resolve_left (hblock op)
    cases target with
    | none =>
        obtain ⟨hall, -⟩ := Option.ite_none_right_eq_some.mp hpc
        have hj := hall j
        rw [hblocked, wake, if_pos hwaits] at hj
        cases hj
    | some k =>
        obtain ⟨q, hq, -⟩ := Option.map_eq_some_iff.mp hpc
        obtain ⟨op', hk, -, hwaits'⟩ := wake_eq hq
        obtain rfl := honly k op' hk hwaits'
        have hj := hnone rfl
        rw [hblocked, wake, if_pos hwaits] at hj
        cases hj

/-- The thread is in a call of `op`, if it is in one. -/
def Pc.Of (op : Op) : Pc Op Cv → Prop
  | .lock op' | .check op' | .block op' | .blocked op' | .woken op' | .body op' => op' = op
  | .idle | .notify _ _ | .unlock _ => True

/-- Threads that call one operation each are in calls of it only. -/
theorem step_of [Fintype ι] (role : ι → Op) (h : ∀ j, (s.pc j).Of (role j))
    {a : Action ι Op X Cv E} (ha : ∀ i op, a = .call i op → op = role i)
    (hstep : m.step s a = some t) (j : ι) : (t.pc j).Of (role j) := by
  have hj := h j
  rcases step_pc hstep j with hsame | hmove | ⟨op, hcall, -, hlock⟩
  · exact hsame ▸ hj
  · generalize t.pc j = q at hmove ⊢
    generalize s.pc j = p at hmove hj
    cases hmove with
    | lock op | relock op | pass op _ | refuse op _ | block op | wake op => exact hj
    | leave op n =>
        cases n with
        | none => trivial
        | some n =>
            rw [leave]
            split <;> trivial
    | notify held n => cases held <;> trivial
    | unlock n => cases n <;> trivial
  · rw [hlock]
    exact ha j op hcall

end Moves

/-! ## Lost wakeups -/

section Runs
variable [DecidableEq ι] [DecidableEq Cv] [Fintype ι]

/-- A call whose predicate is false. -/
theorem exec_block (s : Sys ι σ Op Res Cv E) (i : ι) (op : Op) (hmutex : s.mutex = none)
    (hpc : s.pc i = .idle) (hpasses : m.passes op s.value = false) :
    (m.system ι).exec s [.call i op, .run i, .run i, .run i] = some (s.goto i (.blocked op)) := by
  cases s
  simp only at hmutex hpc hpasses
  subst hmutex
  simp [system, step, run, Sys.goto, hpc, hpasses, Function.update_idem]

/-- A call, or a wait that has been woken, whose predicate is true. -/
theorem exec_body (s : Sys ι σ Op Res Cv E) (i : ι) (op : Op) (hmutex : s.mutex = none)
    (hpc : s.pc i = .lock op ∨ s.pc i = .woken op)
    (hpasses : m.passes op s.value = true) {x : X} {r : Effect σ Res Cv}
    (hr : m.body op x s.value = some r) :
    (m.system ι).exec s [.run i, .run i, .body i x] =
      some ⟨r.value, some i, Function.update s.pc i (m.leave op r.notify),
        s.log ++ [.call i op r.result]⟩ := by
  cases s
  simp only at hmutex hpc hpasses hr
  subst hmutex
  rcases hpc with hpc | hpc <;>
    simp [system, step, run, Sys.goto, hpc, hpasses, Function.update_idem, hr]

/-- Where everybody is idle or blocked nothing can move. -/
theorem quiet_of_threads (h : ∀ i, s.pc i = .idle ∨ ∃ op, s.pc i = .blocked op) :
    m.Quiet s := by
  intro a ha
  cases a with
  | run i =>
      rw [step, run]
      rcases h i with hpc | ⟨op, hpc⟩ <;> rw [hpc]
  | body i x =>
      rw [step]
      rcases h i with hpc | ⟨op, hpc⟩ <;> rw [hpc]
  | notify_one i target =>
      rw [step]
      rcases h i with hpc | ⟨op, hpc⟩ <;> rw [hpc]
  | call i op | spurious i | outer e | notify cv target => exact ha.elim

end Runs

/-- Three threads. -/
def three {κ : Type*} (p q r : κ) : Fin 3 → κ
  | 0 => p
  | 1 => q
  | 2 => r

section Three

variable {κ : Type*} (p q r t : κ)

@[simp] theorem update_three_zero : Function.update (three p q r) 0 t = three t q r := by
  funext j
  fin_cases j <;> rfl

@[simp] theorem update_three_one : Function.update (three p q r) 1 t = three p t r := by
  funext j
  fin_cases j <;> rfl

@[simp] theorem update_three_two : Function.update (three p q r) 2 t = three p q t := by
  funext j
  fin_cases j <;> rfl

end Three

/-- **The converse.** Where an operation can go on once it has been notified, and leaves what it
waited for without notifying in turn, the next one that waits for it is not woken. -/
theorem swallowed [DecidableEq Cv] (push wait : Op) (x : X) (cv : Cv) {y : X}
    {r r' : Effect σ Res Cv}
    (hwaits : m.waits wait = some cv) (hempty : m.passes wait m.init = false)
    (hpush : m.passes push m.init = true) (hr : m.body push x m.init = some r)
    (hnotify : r.notify = some (.one cv)) (hheld : m.unlocks_first push = false)
    (hwoken : m.passes wait r.value = true) (hr' : m.body wait y r.value = some r')
    (hsilent : r'.notify = none) (hleft : m.passes wait r'.value = true) :
    ¬ m.Lossless := by
  intro hlossless
  -- threads 0 and 1 wait, thread 2 notifies thread 0, and thread 1 sleeps on
  have hinit : (m.system (Fin 3)).init = ⟨m.init, none, three .idle .idle .idle, []⟩ := by
    have hidle : (fun _ => .idle : Fin 3 → Pc Op Cv) = three .idle .idle .idle := by
      funext j
      fin_cases j <;> rfl
    rw [← hidle]
    rfl
  have h0 := exec_block
    ⟨m.init, none, three .idle .idle .idle, ([] : List (Entry (Fin 3) Op Res E))⟩
    0 wait rfl rfl hempty
  have h1 := exec_block
    ⟨m.init, none, three (.blocked wait) .idle .idle, ([] : List (Entry (Fin 3) Op Res E))⟩
    1 wait rfl rfl hempty
  have h2 := exec_body ⟨m.init, none, three (.blocked wait) (.blocked wait) (.lock push),
    ([] : List (Entry (Fin 3) Op Res E))⟩ 2 push rfl (Or.inl rfl) hpush hr
  have h3 := exec_body ⟨r.value, none, three (.woken wait) (.blocked wait) .idle,
    [.call (2 : Fin 3) push r.result]⟩ 0 wait rfl (Or.inr rfl) hwoken hr'
  simp only [Sys.goto, update_three_zero, update_three_one, update_three_two, hnotify, leave, hheld,
    hsilent, Bool.false_eq_true, if_false] at h0 h1 h2 h3
  have hcall : (m.system (Fin 3)).exec
      ⟨m.init, none, three (.blocked wait) (.blocked wait) .idle, []⟩ [.call 2 push] =
      some ⟨m.init, none, three (.blocked wait) (.blocked wait) (.lock push), []⟩ := by
    simp [system, step, Sys.goto, three]
  have hwake : (m.system (Fin 3)).exec ⟨r.value, some 2,
        three (.blocked wait) (.blocked wait) (.notify true (.one cv)), [.call 2 push r.result]⟩
        [.notify_one 2 (some 0), .run 2] =
      some ⟨r.value, none, three (.woken wait) (.blocked wait) .idle, [.call 2 push r.result]⟩ := by
    simp [system, step, run, Sys.goto, three, notifyOne, wake, hwaits, Pc.after_notify,
      Pc.after_unlock]
  have hunlock : (m.system (Fin 3)).exec ⟨r'.value, some 0,
        three (.unlock none) (.blocked wait) .idle,
        [.call 2 push r.result, .call 0 wait r'.result]⟩ [.run 0] =
      some ⟨r'.value, none, three .idle (.blocked wait) .idle,
        [.call 2 push r.result, .call 0 wait r'.result]⟩ := by
    simp [system, step, run, Sys.goto, three, Pc.after_unlock]
  have hsettled := hlossless 3 ⟨r'.value, none, three .idle (.blocked wait) .idle,
    [.call 2 push r.result, .call 0 wait r'.result]⟩ ?_ ?_
  · rcases hsettled.threads 1 with hidle | ⟨op, hblocked, hpasses⟩
    · cases hidle
    · obtain rfl : wait = op := Pc.blocked.inj hblocked
      rw [hleft] at hpasses
      cases hpasses
  · rw [hinit]
    have hrun := ((Lts.Reaches.trans ⟨_, h0⟩ ⟨_, h1⟩).trans ⟨_, hcall⟩).trans ⟨_, h2⟩
    exact ((hrun.trans ⟨_, hwake⟩).trans ⟨_, h3⟩).trans ⟨_, hunlock⟩
  · apply quiet_of_threads
    intro j
    fin_cases j
    · exact Or.inl rfl
    · exact Or.inr ⟨wait, rfl⟩
    · exact Or.inl rfl

end Monitor

end BoostNet
