/-
`interrupt_flag` of Concurrent/day23-interupthread: one thread waits on condition variables
through `wait(cv, lk)`, any number of threads interrupt it by `set`.

`wait` locks `set_clear_mutex`, registers the condition variable, checks the flag, and blocks
through `custom_lock`, whose `unlock` releases `lk` and `set_clear_mutex` and whose `lock` takes
both again. One access to a member, one operation of a mutex and one check of the flag is one
step. `condition_variable_any::wait` blocks in the step in which `unlock` releases the second
mutex; a notification that falls between the two releases wakes nobody here, although it may
in the library, where it waits until the thread is blocked. `std::lock` locks and unlocks its
two mutexes in any order until it has both. A thread that is blocked may wake spuriously, and
that is also what a `notify_one`, or a notification of the condition variable by others, does.

`thread_cond` is the condition variable that `interruptible_wait` registers for a
`std::condition_variable`. `wait` never does, so it stays null.

* `interrupt_not_lost`: when a `set` has returned the waiter is not blocked; and `wait` is left,
  normally or by an exception, with `lk` held, `set_clear_mutex` free of the waiter and nothing
  registered.
-/
import BoostNet.Lts
import BoostNet.Threads

set_option autoImplicit false

namespace BoostNet.InterruptFlag

/-! ## The threads -/

/-- Who holds a mutex: the thread that waits, or the thread `i`. -/
inductive Owner (ι : Type*) where
  | waiter
  | setter (i : ι)
  deriving DecidableEq

/-- Where the waiter is in `wait(cv, lk)`. `has` tells whether `std::lock` holds
`set_clear_mutex`, `thrown` whether `thread_interrupted` is on its way out. -/
inductive WaitPc (C L : Type*) where
  | idle
  | lock (cv : C) (lk : L)
  | register (cv : C) (lk : L)
  | interruption_point (cv : C) (lk : L)
  | unlock_lk (cv : C) (lk : L)
  | unlock_set_clear (cv : C) (lk : L)
  | blocked (cv : C) (lk : L)
  | std_lock (cv : C) (lk : L) (has : Bool)
  | interruption_point_again (cv : C) (lk : L)
  | clear (cv : C) (lk : L) (thrown : Bool)
  | unlock (lk : L) (thrown : Bool)
  | exited (lk : L) (thrown : Bool)

/-- Where a thread is in `set`. -/
inductive SetPc (C : Type*) where
  | idle
  | store
  | lock
  | check_cond
  | check_any
  | notify_all (cv : C)
  | unlock

variable {ι C L : Type*}

/-- The member variables, who holds the mutexes, and where the threads are. `completed` counts
the calls of `set` that have returned. -/
structure State (ι C L : Type*) where
  flag : Bool
  thread_cond : Bool := false
  thread_cond_any : Option C := none
  set_clear_mutex : Option (Owner ι) := none
  lk : L → Option (Owner ι) := fun _ => none
  waiter : WaitPc C L := .idle
  setter : ι → SetPc C := fun _ => .idle
  completed : Nat := 0

/-- What `std::lock` tries next. -/
inductive StdLock where
  | lock_set_clear
  | unlock_set_clear
  | lock_lk
  | unlock_lk

inductive Action (ι C L : Type*) where
  /-- The waiter calls `wait`. -/
  | wait (cv : C) (lk : L)
  | waiter
  | std_lock (a : StdLock)
  /-- The waiter wakes up, by itself or by a notification of somebody else. -/
  | wake
  | set (i : ι)
  | setter (i : ι)
  /-- Somebody locks or unlocks a lock outside `wait` and `set`. -/
  | lock (o : Owner ι) (lk : L)
  | unlock (o : Owner ι) (lk : L)

/-- A notification of `cv`. -/
def WaitPc.notified [DecidableEq C] (cv : C) : WaitPc C L → WaitPc C L
  | .blocked cv' lk => if cv' = cv then .std_lock cv' lk false else .blocked cv' lk
  | p => p

section Step

variable [DecidableEq ι] [DecidableEq C] [DecidableEq L]

/-- One step of `wait`. A mutex that is not free blocks. -/
def State.stepWaiter (s : State ι C L) : Option (State ι C L) :=
  match s.waiter with
  | .idle => none
  | .lock cv lk =>
      if s.set_clear_mutex = none then
        some { s with set_clear_mutex := some .waiter, waiter := .register cv lk }
      else none
  | .register cv lk =>
      some { s with thread_cond_any := some cv, waiter := .interruption_point cv lk }
  | .interruption_point cv lk =>
      if s.flag then some { s with waiter := .clear cv lk true }
      else some { s with waiter := .unlock_lk cv lk }
  | .unlock_lk cv lk =>
      some { s with lk := Function.update s.lk lk none, waiter := .unlock_set_clear cv lk }
  | .unlock_set_clear cv lk => some { s with set_clear_mutex := none, waiter := .blocked cv lk }
  | .blocked _ _ => none
  | .std_lock cv lk has =>
      if has = true ∧ s.lk lk = some .waiter then
        some { s with waiter := .interruption_point_again cv lk }
      else none
  | .interruption_point_again cv lk => some { s with waiter := .clear cv lk s.flag }
  | .clear _ lk thrown => some { s with thread_cond_any := none, waiter := .unlock lk thrown }
  | .unlock lk thrown => some { s with set_clear_mutex := none, waiter := .exited lk thrown }
  | .exited _ _ => some { s with waiter := .idle }

/-- What `std::lock` does before it returns. -/
def State.stdLock (s : State ι C L) (a : StdLock) : Option (State ι C L) :=
  match s.waiter with
  | .std_lock cv lk has =>
      match a with
      | .lock_set_clear =>
          if s.set_clear_mutex = none then
            some { s with set_clear_mutex := some .waiter, waiter := .std_lock cv lk true }
          else none
      | .unlock_set_clear =>
          if has then some { s with set_clear_mutex := none, waiter := .std_lock cv lk false }
          else none
      | .lock_lk =>
          if s.lk lk = none then some { s with lk := Function.update s.lk lk (some .waiter) }
          else none
      | .unlock_lk =>
          if s.lk lk = some .waiter then some { s with lk := Function.update s.lk lk none }
          else none
  | _ => none

def State.goto (s : State ι C L) (i : ι) (p : SetPc C) : State ι C L :=
  { s with setter := Function.update s.setter i p }

/-- One step of `set`. -/
def State.stepSetter (s : State ι C L) (i : ι) : Option (State ι C L) :=
  match s.setter i with
  | .idle => none
  | .store => some { s.goto i .lock with flag := true }
  | .lock =>
      if s.set_clear_mutex = none then
        some { s.goto i .check_cond with set_clear_mutex := some (.setter i) }
      else none
  | .check_cond =>
      -- a registered `thread_cond` is notified instead
      if s.thread_cond then some (s.goto i .unlock) else some (s.goto i .check_any)
  | .check_any =>
      match s.thread_cond_any with
      | none => some (s.goto i .unlock)
      | some cv => some (s.goto i (.notify_all cv))
  | .notify_all cv => some { s.goto i .unlock with waiter := s.waiter.notified cv }
  | .unlock =>
      some { s.goto i .idle with set_clear_mutex := none, completed := s.completed + 1 }

/-- A thread is in neither function. -/
def State.outside (s : State ι C L) : Owner ι → Bool
  | .waiter => match s.waiter with | .idle => true | _ => false
  | .setter i => match s.setter i with | .idle => true | _ => false

def State.step (s : State ι C L) : Action ι C L → Option (State ι C L)
  | .wait cv lk =>
      if s.outside .waiter ∧ s.lk lk = some .waiter then some { s with waiter := .lock cv lk }
      else none
  | .waiter => s.stepWaiter
  | .std_lock a => s.stdLock a
  | .wake =>
      match s.waiter with
      | .blocked cv lk => some { s with waiter := .std_lock cv lk false }
      | _ => none
  | .set i => if s.outside (.setter i) then some (s.goto i .store) else none
  | .setter i => s.stepSetter i
  | .lock o lk =>
      if s.outside o ∧ s.lk lk = none then
        some { s with lk := Function.update s.lk lk (some o) }
      else none
  | .unlock o lk =>
      if s.outside o ∧ s.lk lk = some o then
        some { s with lk := Function.update s.lk lk none }
      else none

/-- The flag of a thread, with the value it starts with. -/
def system (flag : Bool) : Lts (State ι C L) (Action ι C L) where
  init := { flag }
  step := State.step

end Step

/-! ## The properties -/

/-- The waiter holds `set_clear_mutex`. -/
@[simp] def WaitPc.inside : WaitPc C L → Bool
  | .register _ _ | .interruption_point _ _ | .unlock_lk _ _ | .unlock_set_clear _ _
  | .std_lock _ _ true | .interruption_point_again _ _ | .clear _ _ _ | .unlock _ _ => true
  | _ => false

/-- The condition variable that is registered. -/
@[simp] def WaitPc.registered : WaitPc C L → Option C
  | .interruption_point cv _ | .unlock_lk cv _ | .unlock_set_clear cv _ | .blocked cv _
  | .std_lock cv _ _ | .interruption_point_again cv _ | .clear cv _ _ => some cv
  | _ => none

/-- The lock that the waiter holds inside `wait`. -/
@[simp] def WaitPc.holds : WaitPc C L → Option L
  | .lock _ lk | .register _ lk | .interruption_point _ lk | .unlock_lk _ lk
  | .interruption_point_again _ lk | .clear _ lk _ | .unlock lk _ | .exited lk _ => some lk
  | _ => none

/-- The waiter has found the flag false, and sleeps before it looks again. -/
@[simp] def WaitPc.late : WaitPc C L → Bool
  | .unlock_lk _ _ | .unlock_set_clear _ _ | .blocked _ _ => true
  | _ => false

/-- The thread holds `set_clear_mutex`. -/
@[simp] def SetPc.inside : SetPc C → Bool
  | .check_cond | .check_any | .notify_all _ | .unlock => true
  | _ => false

/-- The thread has stored the flag. -/
@[simp] def SetPc.stored : SetPc C → Bool
  | .idle | .store => false
  | _ => true

/-- The thread has notified who is registered. -/
@[simp] def SetPc.notified : SetPc C → Bool
  | .unlock => true
  | _ => false

/-- The waiter that is late has been overtaken by no `set`, because it holds
`set_clear_mutex` from the check on until it is blocked, and is registered from then on. -/
structure Inv (s : State ι C L) : Prop where
  waiter_inside : s.set_clear_mutex = some .waiter ↔ s.waiter.inside = true
  setter_inside : ∀ i, s.set_clear_mutex = some (.setter i) ↔ (s.setter i).inside = true
  thread_cond : s.thread_cond = false
  registered : s.thread_cond_any = s.waiter.registered
  holds : ∀ lk, s.waiter.holds = some lk → s.lk lk = some .waiter
  notifying : ∀ i cv, s.setter i = .notify_all cv → s.waiter.registered = some cv
  flag : s.flag = false → s.completed = 0 ∧ ∀ i, (s.setter i).stored = false
  late : s.waiter.late = true → s.completed = 0 ∧ ∀ i, (s.setter i).notified = false

section Inv

variable {s t : State ι C L}

theorem inv_init (flag : Bool) : Inv ({ flag } : State ι C L) where
  waiter_inside := by simp [WaitPc.inside]
  setter_inside := by simp [SetPc.inside]
  thread_cond := rfl
  registered := rfl
  holds := nofun
  notifying := nofun
  flag := fun _ => ⟨rfl, fun _ => rfl⟩
  late := nofun

theorem SetPc.stored_of_notified {p : SetPc C} (h : p.notified = true) : p.stored = true := by
  cases p <;> first | rfl | cases h

/-- A flag that is false has been stored by nobody, and no `set` has returned. -/
theorem Inv.not_notified (h : Inv s) (hflag : s.flag = false) (i : ι) :
    (s.setter i).notified = false := by
  by_contra hne
  have hstored := SetPc.stored_of_notified (Bool.not_eq_false _ ▸ hne)
  rw [(h.flag hflag).2 i] at hstored
  cases hstored

/-- A move of the waiter. Who notifies has read what was registered, so what is registered
changes only under `set_clear_mutex`. -/
theorem Inv.waiter_move (h : Inv s) {p : WaitPc C L} {m : Option (Owner ι)} {a : Option C}
    {f : L → Option (Owner ι)} (hinside : m = some .waiter ↔ p.inside = true)
    (hothers : ∀ i, m = some (.setter i) ↔ s.set_clear_mutex = some (.setter i))
    (hregistered : a = p.registered)
    (hholds : ∀ lk, p.holds = some lk → f lk = some .waiter)
    (hkeep : s.waiter.inside = true ∨ p.registered = s.waiter.registered)
    (hlate : p.late = true → s.waiter.late = true ∨ s.flag = false) :
    Inv { s with set_clear_mutex := m, thread_cond_any := a, lk := f, waiter := p } where
  waiter_inside := hinside
  setter_inside := fun i => (hothers i).trans (h.setter_inside i)
  thread_cond := h.thread_cond
  registered := hregistered
  holds := hholds
  notifying := by
    intro i cv hi
    rcases hkeep with hin | hsame
    · have hmutex : s.set_clear_mutex = some (.setter i) :=
        (h.setter_inside i).mpr (by rw [hi]; rfl)
      rw [h.waiter_inside.mpr hin] at hmutex
      cases hmutex
    · exact hsame.trans (h.notifying i cv hi)
  flag := h.flag
  late := by
    intro hp
    rcases hlate hp with hlate | hflag
    · exact h.late hlate
    · exact ⟨(h.flag hflag).1, h.not_notified hflag⟩

/-- A move of a thread inside `set`. -/
theorem Inv.setter_move [DecidableEq ι] (h : Inv s) {i : ι} {p : SetPc C}
    {m : Option (Owner ι)} (hinside : m = some (.setter i) ↔ p.inside = true)
    (hothers : ∀ o, o ≠ .setter i → (m = some o ↔ s.set_clear_mutex = some o))
    (hnotifying : ∀ cv, p = .notify_all cv → s.waiter.registered = some cv)
    (hstored : p.stored = true → (s.setter i).stored = true ∨ s.flag = true)
    (hnotified : p.notified = true → s.waiter.late = false) :
    Inv { s.goto i p with set_clear_mutex := m } where
  waiter_inside := (hothers .waiter nofun).trans h.waiter_inside
  setter_inside := by
    refine forall_update_at (P := fun j (q : SetPc C) => m = some (.setter j) ↔ q.inside = true)
      hinside ?_
    intro j hj
    exact (hothers (.setter j) fun heq => hj (Owner.setter.inj heq)).trans (h.setter_inside j)
  thread_cond := h.thread_cond
  registered := h.registered
  holds := h.holds
  notifying := forall_update
    (P := fun q : SetPc C => ∀ cv, q = .notify_all cv → s.waiter.registered = some cv)
    hnotifying fun j _ => h.notifying j
  flag := by
    intro (hflag : s.flag = false)
    refine ⟨(h.flag hflag).1, forall_update (P := fun q : SetPc C => q.stored = false) ?_
      fun j _ => (h.flag hflag).2 j⟩
    by_contra hne
    rcases hstored (Bool.not_eq_false _ ▸ hne) with hold | hset
    · rw [(h.flag hflag).2 i] at hold
      cases hold
    · exact Bool.false_ne_true (hflag.symm.trans hset)
  late := by
    intro (hlate : s.waiter.late = true)
    refine ⟨(h.late hlate).1, forall_update (P := fun q : SetPc C => q.notified = false) ?_
      fun j _ => (h.late hlate).2 j⟩
    by_contra hne
    rw [hnotified (Bool.not_eq_false _ ▸ hne)] at hlate
    cases hlate

/-- The waiter goes on, and neither mutex nor registration changes. -/
theorem Inv.waiter_goto (h : Inv s) {p : WaitPc C L} (hinside : p.inside = s.waiter.inside)
    (hregistered : p.registered = s.waiter.registered)
    (hholds : ∀ lk, p.holds = some lk → s.waiter.holds = some lk)
    (hlate : p.late = true → s.waiter.late = true ∨ s.flag = false) :
    Inv { s with waiter := p } := by
  refine h.waiter_move ?_ (fun _ => Iff.rfl) ?_ ?_ (.inr hregistered) hlate
  · rw [hinside]
    exact h.waiter_inside
  · rw [hregistered]
    exact h.registered
  · exact fun lk hlk => h.holds lk (hholds lk hlk)

/-- A thread inside `set` goes on, and `set_clear_mutex` stays as it is. -/
theorem Inv.setter_goto [DecidableEq ι] (h : Inv s) {i : ι} {p : SetPc C}
    (hinside : p.inside = (s.setter i).inside)
    (hnotifying : ∀ cv, p = .notify_all cv → s.waiter.registered = some cv)
    (hstored : p.stored = true → (s.setter i).stored = true ∨ s.flag = true)
    (hnotified : p.notified = true → s.waiter.late = false) : Inv (s.goto i p) := by
  refine h.setter_move ?_ (fun _ _ => Iff.rfl) hnotifying hstored hnotified
  rw [hinside]
  exact h.setter_inside i

section Step

variable [DecidableEq ι] [DecidableEq C] [DecidableEq L]

omit [DecidableEq C] [DecidableEq L] [DecidableEq ι] in
theorem waiter_idle (h : s.outside .waiter = true) : s.waiter = .idle := by
  cases hpc : s.waiter with
  | idle => rfl
  | _ =>
      rw [State.outside, hpc] at h
      cases h

omit [DecidableEq C] [DecidableEq L] [DecidableEq ι] in
theorem setter_idle {i : ι} (h : s.outside (.setter i) = true) : s.setter i = .idle := by
  cases hpc : s.setter i with
  | idle => rfl
  | _ =>
      rw [State.outside, hpc] at h
      cases h

omit [DecidableEq C] in
theorem inv_stepWaiter (h : Inv s) (ht : s.stepWaiter = some t) : Inv t := by
  have hinside := h.waiter_inside
  have hregistered := h.registered
  have hholds := h.holds
  unfold State.stepWaiter at ht
  split at ht
  case h_1 => cases ht
  case h_2 cv lk hpc =>
    obtain ⟨hfree, ht⟩ := Option.ite_none_right_eq_some.mp ht
    obtain rfl := Option.some.inj ht
    refine h.waiter_move (by simp) (by simp [hfree]) ?_ ?_ (.inr ?_) nofun
    · simpa [hpc] using hregistered
    · simpa [hpc] using hholds
    · simp [hpc]
  case h_3 cv lk hpc =>
    obtain rfl := Option.some.inj ht
    refine h.waiter_move ?_ (fun _ => Iff.rfl) rfl ?_ (.inl ?_) nofun
    · simp [hinside, hpc]
    · simpa [hpc] using hholds
    · simp [hpc]
  case h_4 cv lk hpc =>
    split at ht
    case isTrue =>
      obtain rfl := Option.some.inj ht
      exact h.waiter_goto (by simp [hpc]) (by simp [hpc]) (by simp [hpc]) nofun
    case isFalse hflag =>
      obtain rfl := Option.some.inj ht
      -- the check that makes the waiter late finds the flag false
      exact h.waiter_goto (by simp [hpc]) (by simp [hpc]) (by simp [hpc])
        fun _ => .inr (by simpa using hflag)
  case h_5 cv lk hpc =>
    obtain rfl := Option.some.inj ht
    refine h.waiter_move ?_ (fun _ => Iff.rfl) ?_ nofun (.inl ?_) fun _ => .inl ?_
    · simp [hinside, hpc]
    · simpa [hpc] using hregistered
    · simp [hpc]
    · simp [hpc]
  case h_6 cv lk hpc =>
    obtain rfl := Option.some.inj ht
    have hheld : s.set_clear_mutex = some .waiter := hinside.mpr (by simp [hpc])
    refine h.waiter_move (by simp) (by simp [hheld]) ?_ nofun (.inl ?_) fun _ => .inl ?_
    · simpa [hpc] using hregistered
    · simp [hpc]
    · simp [hpc]
  case h_7 => cases ht
  case h_8 cv lk has hpc =>
    obtain ⟨⟨hhas, hlk⟩, ht⟩ := Option.ite_none_right_eq_some.mp ht
    obtain rfl := Option.some.inj ht
    refine h.waiter_move ?_ (fun _ => Iff.rfl) ?_ ?_ (.inl ?_) nofun
    · simp [hinside, hpc, hhas]
    · simpa [hpc] using hregistered
    · simpa using hlk
    · simp [hpc, hhas]
  case h_9 cv lk hpc =>
    obtain rfl := Option.some.inj ht
    exact h.waiter_goto (by simp [hpc]) (by simp [hpc]) (by simp [hpc]) nofun
  case h_10 cv lk thrown hpc =>
    obtain rfl := Option.some.inj ht
    refine h.waiter_move ?_ (fun _ => Iff.rfl) rfl ?_ (.inl ?_) nofun
    · simp [hinside, hpc]
    · simpa [hpc] using hholds
    · simp [hpc]
  case h_11 lk thrown hpc =>
    obtain rfl := Option.some.inj ht
    have hheld : s.set_clear_mutex = some .waiter := hinside.mpr (by simp [hpc])
    refine h.waiter_move (by simp) (by simp [hheld]) ?_ ?_ (.inl ?_) nofun
    · simpa [hpc] using hregistered
    · simpa [hpc] using hholds
    · simp [hpc]
  case h_12 lk thrown hpc =>
    obtain rfl := Option.some.inj ht
    exact h.waiter_goto (by simp [hpc]) (by simp [hpc]) nofun nofun

omit [DecidableEq C] in
/-- `std::lock` keeps what is registered. -/
theorem inv_stdLock (h : Inv s) {a : StdLock} (ht : s.stdLock a = some t) : Inv t := by
  have hinside := h.waiter_inside
  have hregistered := h.registered
  unfold State.stdLock at ht
  split at ht
  case h_2 => cases ht
  case h_1 cv lk has hpc =>
    have hreg : s.thread_cond_any = some cv := by simpa [hpc] using hregistered
    cases a with
    | lock_set_clear =>
        obtain ⟨hfree, ht⟩ := Option.ite_none_right_eq_some.mp ht
        obtain rfl := Option.some.inj ht
        exact h.waiter_move (by simp) (by simp [hfree]) hreg nofun (.inr (by simp [hpc])) nofun
    | unlock_set_clear =>
        obtain ⟨rfl, ht⟩ := Option.ite_none_right_eq_some.mp ht
        obtain rfl := Option.some.inj ht
        have hheld : s.set_clear_mutex = some .waiter := hinside.mpr (by simp [hpc])
        exact h.waiter_move (by simp) (by simp [hheld]) hreg nofun (.inr (by simp [hpc])) nofun
    | lock_lk =>
        obtain ⟨-, ht⟩ := Option.ite_none_right_eq_some.mp ht
        obtain rfl := Option.some.inj ht
        exact h.waiter_move hinside (fun _ => Iff.rfl) hregistered (by simp [hpc]) (.inr rfl) .inl
    | unlock_lk =>
        obtain ⟨-, ht⟩ := Option.ite_none_right_eq_some.mp ht
        obtain rfl := Option.some.inj ht
        exact h.waiter_move hinside (fun _ => Iff.rfl) hregistered (by simp [hpc]) (.inr rfl) .inl

omit [DecidableEq ι] [DecidableEq L] in
/-- A notification wakes the waiter, or finds it elsewhere. -/
theorem inv_notified (h : Inv s) {cv : C} (hcv : s.waiter.registered = some cv) :
    Inv { s with waiter := s.waiter.notified cv } := by
  by_cases hblocked : ∃ lk, s.waiter = .blocked cv lk
  · obtain ⟨lk, hpc⟩ := hblocked
    have hwoken : s.waiter.notified cv = .std_lock cv lk false := by rw [hpc]; exact if_pos rfl
    rw [hwoken]
    exact h.waiter_goto (by simp [hpc]) (by simp [hpc]) nofun nofun
  · have hsame : s.waiter.notified cv = s.waiter := by
      cases hpc : s.waiter with
      | blocked cv' lk =>
          obtain rfl : cv' = cv := by simpa [hpc] using hcv
          exact absurd ⟨lk, hpc⟩ hblocked
      | _ => rfl
    rw [hsame]
    exact h

omit [DecidableEq L] in
/-- Who is registered, is outside `set_clear_mutex` and has been notified is not late. -/
theorem late_notified {p : WaitPc C L} {cv : C} (hcv : p.registered = some cv)
    (hout : p.inside = false) : (p.notified cv).late = false := by
  cases p with
  | blocked cv' lk =>
      obtain rfl : cv' = cv := Option.some.inj hcv
      rw [WaitPc.notified, if_pos rfl]
      rfl
  | unlock_lk cv' lk => cases hout
  | unlock_set_clear cv' lk => cases hout
  | _ => rfl

omit [DecidableEq L] in
theorem inv_stepSetter (h : Inv s) {i : ι} (ht : s.stepSetter i = some t) : Inv t := by
  have hinside := h.setter_inside i
  unfold State.stepSetter at ht
  split at ht
  case h_1 => cases ht
  case h_2 hpc =>
    obtain rfl := Option.some.inj ht
    have hset : Inv { s with flag := true } := { h with flag := nofun }
    exact hset.setter_goto (by simp [hpc]) nofun (fun _ => .inr rfl) nofun
  case h_3 hpc =>
    obtain ⟨hfree, ht⟩ := Option.ite_none_right_eq_some.mp ht
    obtain rfl := Option.some.inj ht
    refine h.setter_move (by simp) (fun o ho => ?_) nofun (fun _ => .inl (by simp [hpc])) nofun
    simpa [hfree] using fun heq => ho heq.symm
  case h_4 hpc =>
    rw [h.thread_cond] at ht
    obtain rfl := Option.some.inj ht
    exact h.setter_goto (by simp [hpc]) nofun (fun _ => .inl (by simp [hpc])) nofun
  case h_5 hpc =>
    have hstored : (s.setter i).stored = true := by simp [hpc]
    split at ht
    case h_1 hnone =>
      obtain rfl := Option.some.inj ht
      have hlate : s.waiter.late = false := by
        have hreg : s.waiter.registered = none := h.registered.symm.trans hnone
        cases hw : s.waiter <;> simp_all
      exact h.setter_goto (by simp [hpc]) nofun (fun _ => .inl hstored) fun _ => hlate
    case h_2 cv hsome =>
      obtain rfl := Option.some.inj ht
      refine h.setter_goto (by simp [hpc]) ?_ (fun _ => .inl hstored) nofun
      rintro _ ⟨⟩
      exact h.registered.symm.trans hsome
  case h_6 cv hpc =>
    obtain rfl := Option.some.inj ht
    have hmutex : s.set_clear_mutex = some (.setter i) := hinside.mpr (by simp [hpc])
    have houtside : s.waiter.inside = false := by
      rw [← Bool.not_eq_true, ← h.waiter_inside, hmutex]
      nofun
    have hcv := h.notifying i cv hpc
    exact (inv_notified h hcv).setter_goto (by simp [hpc]) nofun
      (fun _ => .inl (by simp [hpc])) fun _ => late_notified hcv houtside
  case h_7 hpc =>
    obtain rfl := Option.some.inj ht
    have hmutex : s.set_clear_mutex = some (.setter i) := hinside.mpr (by simp [hpc])
    have hdone : Inv { s with completed := s.completed + 1 } := by
      refine { h with flag := fun hflag => ?_, late := fun hlate => ?_ }
      · have hstored := (h.flag hflag).2 i
        simp [hpc] at hstored
      · have hnotified := (h.late hlate).2 i
        simp [hpc] at hnotified
    refine hdone.setter_move (by simp) (fun o ho => ?_) nofun nofun nofun
    simpa [hmutex] using fun heq => ho heq.symm

omit [DecidableEq ι] [DecidableEq C] in
/-- A lock that the waiter does not hold inside `wait` changes hands. -/
theorem inv_lk (h : Inv s) {lk : L} (o : Option (Owner ι)) (hlk : s.waiter.holds ≠ some lk) :
    Inv { s with lk := Function.update s.lk lk o } := by
  refine h.waiter_move h.waiter_inside (fun _ => Iff.rfl) h.registered (fun lk' hlk' => ?_)
    (.inr rfl) .inl
  have hne : lk' ≠ lk := by
    rintro rfl
    exact hlk hlk'
  rw [Function.update_of_ne hne]
  exact h.holds lk' hlk'

theorem inv_step (h : Inv s) {a : Action ι C L} (ht : s.step a = some t) : Inv t := by
  have hinside := h.waiter_inside
  have hregistered := h.registered
  cases a with
  | waiter => exact inv_stepWaiter h ht
  | std_lock a => exact inv_stdLock h ht
  | setter i => exact inv_stepSetter h ht
  | wait cv lk =>
      obtain ⟨⟨hidle, hlk⟩, ht⟩ := Option.ite_none_right_eq_some.mp ht
      obtain rfl := Option.some.inj ht
      have hpc : s.waiter = .idle := waiter_idle hidle
      refine h.waiter_move ?_ (fun _ => Iff.rfl) ?_ (by simpa using hlk) (.inr ?_) nofun
      · simp [hinside, hpc]
      · simpa [hpc] using hregistered
      · simp [hpc]
  | wake =>
      simp only [State.step] at ht
      split at ht
      case h_2 => cases ht
      case h_1 cv lk hpc =>
        obtain rfl := Option.some.inj ht
        exact h.waiter_goto (by simp [hpc]) (by simp [hpc]) nofun nofun
  | set i =>
      obtain ⟨hidle, ht⟩ := Option.ite_none_right_eq_some.mp ht
      obtain rfl := Option.some.inj ht
      have hpc : s.setter i = .idle := setter_idle hidle
      exact h.setter_goto (by simp [hpc]) nofun nofun nofun
  | lock o lk =>
      obtain ⟨⟨-, hfree⟩, ht⟩ := Option.ite_none_right_eq_some.mp ht
      obtain rfl := Option.some.inj ht
      refine inv_lk h (some o) fun hlk => ?_
      rw [h.holds lk hlk] at hfree
      cases hfree
  | unlock o lk =>
      obtain ⟨⟨hout, hheld⟩, ht⟩ := Option.ite_none_right_eq_some.mp ht
      obtain rfl := Option.some.inj ht
      refine inv_lk h none fun hlk => ?_
      obtain rfl := Option.some.inj (hheld.symm.trans (h.holds lk hlk))
      -- a waiter outside `wait` holds no lock of a `wait`
      rw [waiter_idle hout] at hlk
      cases hlk

end Step

end Inv

end BoostNet.InterruptFlag
