/-
`hierachical_mutex` (Concurrent/day02-lockmutex): a mutex with a level, which a thread locks
only if the level is below that of the mutex it has locked last.

The level of a thread, `_this_thread_hierachy_value`, is thread local. What it was before is
saved in the mutex and restored by `unlock`, which throws unless the mutex is the one that
was locked last. A test, an access and an operation on the internal mutex are one step each.
`unsigned long` has `w` bits, and `ULLONG_MAX` is converted to its largest value.

`held` is not in the source: it is what a thread has acquired and not yet given up, the last
one first. A mutex gets there by the write of the thread's level that ends `lock`, and is
taken off by the one that begins the release.

* `Inv`: the levels grow down the list, the thread's level is that of its head, and the saved
  levels are those of the mutexes that follow.
* `hierachical_no_deadlock`: what holds after every run, the absence of cycles of waits with it.
-/
import BoostNet.Lts
import BoostNet.Threads
import Mathlib.Logic.Relation

set_option autoImplicit false

namespace BoostNet.HierachicalMutex

variable {ι μ : Type*} {w : Nat}

/-! ## The system -/

/-- The largest `unsigned long`. -/
def ULLONG_MAX (w : Nat) : BitVec w := BitVec.allOnes w

/-- A call of a method of `m`. -/
inductive Call (μ : Type*) where
  | lock (m : μ)
  | try_lock (m : μ)
  | unlock (m : μ)

/-- What a thread does next. -/
inductive Pc (μ : Type*) where
  | idle
  /-- The test, for `try_lock` if `tries` and for `lock` otherwise. -/
  | chech_for_hierachy_violation (tries : Bool) (m : μ)
  /-- `_internal_mutex.lock()`. -/
  | lock (m : μ)
  /-- `_internal_mutex.try_lock()`. -/
  | try_lock (m : μ)
  /-- The two writes of `update_hierachy_value`. -/
  | save_previous (m : μ)
  | set_this (m : μ)
  /-- The test of `unlock`. -/
  | check_last (m : μ)
  | restore_this (m : μ)
  /-- `_internal_mutex.unlock()`. -/
  | unlock (m : μ)

/-- The fields of each mutex, and the level and place of each thread. -/
structure Sys (ι μ : Type*) (w : Nat) where
  internal_mutex : μ → Option ι := fun _ => none
  previous_hierachy_value : μ → BitVec w := fun _ => 0
  this_thread_hierachy_value : ι → BitVec w := fun _ => ULLONG_MAX w
  pc : ι → Pc μ := fun _ => .idle
  held : ι → List μ := fun _ => []

/-- A thread that is in no call starts one, a thread takes its next step, or its
`std::mutex::try_lock` fails without a reason, as the standard allows. -/
inductive Act (ι μ : Type*) where
  | call (i : ι) (c : Call μ)
  | step (i : ι)
  | spurious (i : ι)

section System

variable [DecidableEq ι] [DecidableEq μ] (hierachy_value : μ → BitVec w)

def Sys.goto (s : Sys ι μ w) (i : ι) (p : Pc μ) : Sys ι μ w :=
  { s with pc := Function.update s.pc i p }

/-- The next step of a thread. A call that throws ends. -/
def Sys.step (s : Sys ι μ w) (i : ι) : Option (Sys ι μ w) :=
  match s.pc i with
  | .idle => none
  | .chech_for_hierachy_violation tries m =>
      if s.this_thread_hierachy_value i ≤ hierachy_value m then some (s.goto i .idle)
      else some (s.goto i (if tries then .try_lock m else .lock m))
  | .lock m =>
      if s.internal_mutex m = none then
        some { s.goto i (.save_previous m) with
          internal_mutex := Function.update s.internal_mutex m (some i) }
      else none
  | .try_lock m =>
      if s.internal_mutex m = none then
        some { s.goto i (.save_previous m) with
          internal_mutex := Function.update s.internal_mutex m (some i) }
      else some (s.goto i .idle)
  | .save_previous m =>
      some { s.goto i (.set_this m) with
        previous_hierachy_value :=
          Function.update s.previous_hierachy_value m (s.this_thread_hierachy_value i) }
  | .set_this m =>
      some { s.goto i .idle with
        this_thread_hierachy_value :=
          Function.update s.this_thread_hierachy_value i (hierachy_value m)
        held := Function.update s.held i (m :: s.held i) }
  | .check_last m =>
      if s.this_thread_hierachy_value i ≠ hierachy_value m then some (s.goto i .idle)
      else some (s.goto i (.restore_this m))
  | .restore_this m =>
      some { s.goto i (.unlock m) with
        this_thread_hierachy_value :=
          Function.update s.this_thread_hierachy_value i (s.previous_hierachy_value m)
        held := Function.update s.held i ((s.held i).erase m) }
  | .unlock m =>
      some { s.goto i .idle with internal_mutex := Function.update s.internal_mutex m none }

/-- A thread calls `unlock` of the mutexes that it holds only. -/
def Sys.call (s : Sys ι μ w) (i : ι) (c : Call μ) : Option (Sys ι μ w) :=
  match s.pc i, c with
  | .idle, .lock m => some (s.goto i (.chech_for_hierachy_violation false m))
  | .idle, .try_lock m => some (s.goto i (.chech_for_hierachy_violation true m))
  | .idle, .unlock m => if m ∈ s.held i then some (s.goto i (.check_last m)) else none
  | _, _ => none

def Sys.act (s : Sys ι μ w) : Act ι μ → Option (Sys ι μ w)
  | .call i c => s.call i c
  | .step i => s.step hierachy_value i
  | .spurious i =>
      match s.pc i with
      | .try_lock _ => some (s.goto i .idle)
      | _ => none

def lts : Lts (Sys ι μ w) (Act ι μ) where
  init := {}
  step s a := s.act hierachy_value a

end System

/-- Thread `i` is blocked in `_internal_mutex.lock()`, and `j` has locked that mutex. -/
def WaitsFor (s : Sys ι μ w) (i j : ι) : Prop :=
  ∃ m, s.pc i = .lock m ∧ s.internal_mutex m = some j

/-! ## The mutexes that a thread holds -/

section Held

variable (hierachy_value previous : μ → BitVec w)

/-- The level of a thread that holds these. -/
def level : List μ → BitVec w
  | [] => ULLONG_MAX w
  | m :: _ => hierachy_value m

/-- Each has a lower level than what was held when it was locked, and has that level saved. -/
def Chain : List μ → Prop
  | [] => True
  | m :: rest =>
      hierachy_value m < level hierachy_value rest ∧
        previous m = level hierachy_value rest ∧ Chain rest

variable {hierachy_value previous}

theorem Chain.lt_of_mem {m m' : μ} {rest : List μ}
    (h : Chain hierachy_value previous (m :: rest)) (hm : m' ∈ rest) :
    hierachy_value m < hierachy_value m' := by
  induction rest generalizing m with
  | nil => exact absurd hm List.not_mem_nil
  | cons m₁ rest ih =>
      obtain ⟨hlt, -, hchain⟩ := h
      have hlt : hierachy_value m < hierachy_value m₁ := hlt
      rcases List.mem_cons.mp hm with rfl | hm
      · exact hlt
      · exact BitVec.lt_trans hlt (ih hchain hm)

theorem Chain.le_of_mem {held : List μ} (h : Chain hierachy_value previous held) {m : μ}
    (hm : m ∈ held) : level hierachy_value held ≤ hierachy_value m := by
  cases held with
  | nil => exact absurd hm List.not_mem_nil
  | cons m₁ rest =>
      rcases List.mem_cons.mp hm with rfl | hm
      · exact BitVec.le_refl _
      · exact BitVec.le_of_lt (h.lt_of_mem hm)

/-- In the order in which they were locked the levels fall. -/
theorem Chain.pairwise {held : List μ} (h : Chain hierachy_value previous held) :
    held.Pairwise fun m m' => hierachy_value m < hierachy_value m' := by
  induction held with
  | nil => exact List.Pairwise.nil
  | cons m rest ih =>
      exact List.pairwise_cons.mpr ⟨fun m' hm' => h.lt_of_mem hm', ih h.2.2⟩

/-- A mutex with the level of the thread is the one that was locked last. -/
theorem Chain.head_of_level {held : List μ} (h : Chain hierachy_value previous held) {m : μ}
    (hm : m ∈ held) (hlevel : level hierachy_value held = hierachy_value m) :
    ∃ rest, held = m :: rest ∧ m ∉ rest := by
  cases held with
  | nil => exact absurd hm List.not_mem_nil
  | cons m₁ rest =>
      have hnot : ∀ m' ∈ rest, hierachy_value m' ≠ hierachy_value m₁ := fun m' hm' heq =>
        BitVec.lt_irrefl _ (heq ▸ h.lt_of_mem hm')
      rcases List.mem_cons.mp hm with rfl | hm
      · exact ⟨rest, rfl, fun hm' => hnot m hm' rfl⟩
      · exact absurd hlevel.symm (hnot m hm)

/-- The saved levels of other mutexes play no part. -/
theorem Chain.congr {previous' : μ → BitVec w} {held : List μ}
    (h : Chain hierachy_value previous held) (hsame : ∀ m ∈ held, previous' m = previous m) :
    Chain hierachy_value previous' held := by
  induction held with
  | nil => trivial
  | cons m rest ih =>
      obtain ⟨hlt, hprev, hchain⟩ := h
      refine ⟨hlt, ?_, ih hchain fun m' hm' => hsame m' (List.mem_cons_of_mem m hm')⟩
      rw [hsame m List.mem_cons_self, hprev]

end Held

/-! ## The invariant -/

/-- The mutex that is locked and not held: its `lock` or its `unlock` is not done yet. -/
def Pc.inside : Pc μ → Option μ
  | .save_previous m | .set_this m | .unlock m => some m
  | _ => none

section Invariant

variable (hierachy_value : μ → BitVec w)

/-- What thread `i` knows at `p`. -/
def Place (s : Sys ι μ w) (i : ι) : Pc μ → Prop
  | .idle | .chech_for_hierachy_violation _ _ => True
  | .lock m | .try_lock m => hierachy_value m < s.this_thread_hierachy_value i
  | .save_previous m =>
      s.internal_mutex m = some i ∧ m ∉ s.held i ∧
        hierachy_value m < s.this_thread_hierachy_value i
  | .set_this m =>
      s.internal_mutex m = some i ∧ m ∉ s.held i ∧
        hierachy_value m < s.this_thread_hierachy_value i ∧
        s.previous_hierachy_value m = s.this_thread_hierachy_value i
  | .check_last m => m ∈ s.held i
  | .restore_this m => m ∈ s.held i ∧ s.this_thread_hierachy_value i = hierachy_value m
  | .unlock m => s.internal_mutex m = some i ∧ m ∉ s.held i

/-- The invariant of one thread. -/
structure Local (s : Sys ι μ w) (i : ι) : Prop where
  chain : Chain hierachy_value s.previous_hierachy_value (s.held i)
  level : s.this_thread_hierachy_value i = level hierachy_value (s.held i)
  owned : ∀ m ∈ s.held i, s.internal_mutex m = some i
  place : Place hierachy_value s i (s.pc i)
  inside : ∀ m, s.internal_mutex m = some i → m ∈ s.held i ∨ (s.pc i).inside = some m

def Inv (s : Sys ι μ w) : Prop := ∀ i, Local hierachy_value s i

/-- A step of another thread: what is thread local stays, and so does what `j` has locked. -/
structure Untouched (s s' : Sys ι μ w) (j : ι) : Prop where
  pc : s'.pc j = s.pc j
  this : s'.this_thread_hierachy_value j = s.this_thread_hierachy_value j
  held : s'.held j = s.held j
  previous : ∀ m, s.internal_mutex m = some j →
    s'.previous_hierachy_value m = s.previous_hierachy_value m
  owner : ∀ m, s'.internal_mutex m = some j ↔ s.internal_mutex m = some j

variable {hierachy_value} {s s' : Sys ι μ w} {i j : ι}

theorem Place.untouched {p : Pc μ} (h : Place hierachy_value s j p) (hun : Untouched s s' j) :
    Place hierachy_value s' j p := by
  cases p with
  | idle => trivial
  | chech_for_hierachy_violation tries m => trivial
  | lock m => simpa only [Place, hun.this] using h
  | try_lock m => simpa only [Place, hun.this] using h
  | save_previous m => simpa only [Place, hun.this, hun.held, hun.owner] using h
  | set_this m =>
      have howner : s.internal_mutex m = some j := h.1
      simpa only [Place, hun.this, hun.held, hun.owner, hun.previous m howner] using h
  | check_last m => simpa only [Place, hun.held] using h
  | restore_this m => simpa only [Place, hun.this, hun.held] using h
  | unlock m => simpa only [Place, hun.held, hun.owner] using h

theorem Local.untouched (h : Local hierachy_value s j) (hun : Untouched s s' j) :
    Local hierachy_value s' j where
  chain := by
    rw [hun.held]
    exact h.chain.congr fun m hm => hun.previous m (h.owned m hm)
  level := by rw [hun.this, hun.held, h.level]
  owned m hm := by
    rw [hun.held] at hm
    exact (hun.owner m).mpr (h.owned m hm)
  place := by
    rw [hun.pc]
    exact h.place.untouched hun
  inside m hm := by
    rw [hun.held, hun.pc]
    exact h.inside m ((hun.owner m).mp hm)

/-- A step of the thread `i`: what it has to show. -/
theorem Inv.of_thread (h : Inv hierachy_value s) (i : ι) (hthread : Local hierachy_value s' i)
    (hothers : ∀ j, j ≠ i → Untouched s s' j) : Inv hierachy_value s' := by
  intro j
  by_cases hj : j = i
  · exact hj ▸ hthread
  · exact (h j).untouched (hothers j hj)

theorem inv_init : Inv hierachy_value ({} : Sys ι μ w) := by
  intro i
  refine ⟨trivial, rfl, fun m hm => absurd hm List.not_mem_nil, trivial, fun m hm => ?_⟩
  contradiction

variable [DecidableEq ι]

/-! ## The steps -/

@[simp] theorem goto_pc_self {p : Pc μ} : (s.goto i p).pc i = p := by
  simp only [Sys.goto, Function.update_self]

/-- A step that changes the place of a thread only. -/
theorem goto_inv (h : Inv hierachy_value s) {p : Pc μ} (hplace : Place hierachy_value s i p)
    (hinside : (s.pc i).inside = none) : Inv hierachy_value (s.goto i p) := by
  refine h.of_thread i ?_ fun j hj => ?_
  · obtain ⟨hchain, hlevel, howned, -, hin⟩ := h i
    refine ⟨hchain, hlevel, howned, ?_, fun m hm => ?_⟩
    · rw [goto_pc_self]
      cases p <;> exact hplace
    · left
      rcases hin m hm with hm | hm
      · exact hm
      · rw [hinside] at hm
        contradiction
  · exact ⟨Function.update_of_ne hj _ _, rfl, rfl, fun _ _ => rfl, fun _ => Iff.rfl⟩

variable [DecidableEq μ]

/-- The internal mutex of `m` is locked. -/
theorem lock_inv (h : Inv hierachy_value s) {m : μ} (hfree : s.internal_mutex m = none)
    (hlt : hierachy_value m < s.this_thread_hierachy_value i) (hinside : (s.pc i).inside = none) :
    Inv hierachy_value { s.goto i (.save_previous m) with
      internal_mutex := Function.update s.internal_mutex m (some i) } := by
  refine h.of_thread i ?_ fun j hj => ?_
  · obtain ⟨hchain, hlevel, howned, -, hin⟩ := h i
    -- a mutex that is free is held by none
    have hnot : m ∉ s.held i := fun hm => by
      have hown := howned m hm
      rw [hfree] at hown
      contradiction
    refine ⟨hchain, hlevel, fun m' hm' => ?_, ?_, fun m' hm' => ?_⟩
    · have hne : m' ≠ m := fun heq => hnot (heq ▸ hm')
      exact (Function.update_of_ne hne _ _).trans (howned m' hm')
    · change Place hierachy_value _ i ((s.goto i (.save_previous m)).pc i)
      rw [goto_pc_self]
      exact ⟨Function.update_self m _ _, hnot, hlt⟩
    · change m' ∈ s.held i ∨ ((s.goto i (.save_previous m)).pc i).inside = some m'
      rw [goto_pc_self]
      by_cases hne : m' = m
      · exact Or.inr (congrArg some hne.symm)
      · left
        have hm' : Function.update s.internal_mutex m (some i) m' = some i := hm'
        rw [Function.update_of_ne hne] at hm'
        rcases hin m' hm' with hheld | hheld
        · exact hheld
        · rw [hinside] at hheld
          contradiction
  · refine ⟨Function.update_of_ne hj _ _, rfl, rfl, fun _ _ => rfl, fun m' => ?_⟩
    change Function.update s.internal_mutex m (some i) m' = some j ↔ _
    by_cases hne : m' = m
    · rw [hne, Function.update_self, hfree]
      simp [Ne.symm hj]
    · rw [Function.update_of_ne hne]

/-- `_previous_hierachy_value = _this_thread_hierachy_value`. -/
theorem save_previous_inv (h : Inv hierachy_value s) {m : μ} (hpc : s.pc i = .save_previous m) :
    Inv hierachy_value { s.goto i (.set_this m) with
      previous_hierachy_value :=
        Function.update s.previous_hierachy_value m (s.this_thread_hierachy_value i) } := by
  refine h.of_thread i ?_ fun j hj => ?_
  · obtain ⟨hchain, hlevel, howned, hplace, hin⟩ := h i
    rw [hpc] at hplace hin
    obtain ⟨hown, hnot, hlt⟩ := hplace
    refine ⟨hchain.congr fun m' hm' => ?_, hlevel, howned, ?_, fun m' hm' => ?_⟩
    · have hne : m' ≠ m := by
        rintro rfl
        exact hnot hm'
      exact Function.update_of_ne hne _ _
    · change Place hierachy_value _ i ((s.goto i (.set_this m)).pc i)
      rw [goto_pc_self]
      exact ⟨hown, hnot, hlt, Function.update_self m _ _⟩
    · change m' ∈ s.held i ∨ ((s.goto i (.set_this m)).pc i).inside = some m'
      rw [goto_pc_self]
      exact hin m' hm'
  · refine ⟨Function.update_of_ne hj _ _, rfl, rfl, fun m' hm' => ?_,
      fun _ => Iff.rfl⟩
    -- the mutex is locked by `i`
    have hplace := (h i).place
    rw [hpc] at hplace
    have hne : m' ≠ m := by
      rintro rfl
      exact hj (Option.some.inj (hm'.symm.trans hplace.1))
    exact Function.update_of_ne hne _ _

omit [DecidableEq μ] in
/-- `_this_thread_hierachy_value = _hierachy_value`: from now on `m` is held. -/
theorem set_this_inv (h : Inv hierachy_value s) {m : μ} (hpc : s.pc i = .set_this m) :
    Inv hierachy_value { s.goto i .idle with
      this_thread_hierachy_value :=
        Function.update s.this_thread_hierachy_value i (hierachy_value m)
      held := Function.update s.held i (m :: s.held i) } := by
  refine h.of_thread i ?_ fun j hj => ?_
  · obtain ⟨hchain, hlevel, howned, hplace, hin⟩ := h i
    rw [hpc] at hplace hin
    obtain ⟨hown, hnot, hlt, hprev⟩ := hplace
    have hheld : Function.update s.held i (m :: s.held i) i = m :: s.held i :=
      Function.update_self i _ _
    refine ⟨?_, ?_, fun m' hm' => ?_, ?_, fun m' hm' => ?_⟩
    · change Chain _ _ (Function.update s.held i (m :: s.held i) i)
      rw [hheld]
      exact ⟨hlevel ▸ hlt, hprev.trans hlevel, hchain⟩
    · change _ = level _ (Function.update s.held i (m :: s.held i) i)
      rw [hheld]
      exact Function.update_self i _ _
    · change m' ∈ Function.update s.held i (m :: s.held i) i at hm'
      rw [hheld] at hm'
      rcases List.mem_cons.mp hm' with rfl | hm'
      · exact hown
      · exact howned m' hm'
    · change Place hierachy_value _ i ((s.goto i .idle).pc i)
      rw [goto_pc_self]
      trivial
    · left
      change m' ∈ Function.update s.held i (m :: s.held i) i
      rw [hheld]
      rcases hin m' hm' with hm' | hm'
      · exact List.mem_cons_of_mem m hm'
      · exact List.mem_cons.mpr (Or.inl (Option.some.inj hm').symm)
  · exact ⟨Function.update_of_ne hj _ _, Function.update_of_ne hj _ _,
      Function.update_of_ne hj _ _, fun _ _ => rfl, fun _ => Iff.rfl⟩

/-- `_this_thread_hierachy_value = _previous_hierachy_value`: `m` is not held any more. -/
theorem restore_this_inv (h : Inv hierachy_value s) {m : μ} (hpc : s.pc i = .restore_this m) :
    Inv hierachy_value { s.goto i (.unlock m) with
      this_thread_hierachy_value :=
        Function.update s.this_thread_hierachy_value i (s.previous_hierachy_value m)
      held := Function.update s.held i ((s.held i).erase m) } := by
  refine h.of_thread i ?_ fun j hj => ?_
  · obtain ⟨hchain, hlevel, howned, hplace, hin⟩ := h i
    rw [hpc] at hplace hin
    obtain ⟨hmem, hthis⟩ := hplace
    -- the level says that `m` is the one that was locked last
    obtain ⟨rest, hrest, hnot⟩ := hchain.head_of_level hmem (hlevel.symm.trans hthis)
    have hheld : Function.update s.held i ((s.held i).erase m) i = rest := by
      rw [Function.update_self, hrest, List.erase_cons_head]
    have hown := howned m hmem
    rw [hrest] at hchain howned hin
    obtain ⟨-, hprev, hchain⟩ := hchain
    refine ⟨?_, ?_, fun m' hm' => ?_, ?_, fun m' hm' => ?_⟩
    · change Chain _ _ (Function.update s.held i ((s.held i).erase m) i)
      rw [hheld]
      exact hchain
    · change _ = level _ (Function.update s.held i ((s.held i).erase m) i)
      rw [hheld, ← hprev]
      exact Function.update_self i _ _
    · change m' ∈ Function.update s.held i ((s.held i).erase m) i at hm'
      rw [hheld] at hm'
      exact howned m' (List.mem_cons_of_mem m hm')
    · change Place hierachy_value _ i ((s.goto i (.unlock m)).pc i)
      rw [goto_pc_self]
      refine ⟨hown, ?_⟩
      change m ∉ Function.update s.held i ((s.held i).erase m) i
      rw [hheld]
      exact hnot
    · change m' ∈ Function.update s.held i ((s.held i).erase m) i ∨
        ((s.goto i (.unlock m)).pc i).inside = some m'
      rw [hheld, goto_pc_self]
      rcases hin m' hm' with hm' | hm'
      · rcases List.mem_cons.mp hm' with rfl | hm'
        · exact Or.inr rfl
        · exact Or.inl hm'
      · exact absurd hm' (by simp [Pc.inside])
  · exact ⟨Function.update_of_ne hj _ _, Function.update_of_ne hj _ _,
      Function.update_of_ne hj _ _, fun _ _ => rfl, fun _ => Iff.rfl⟩

/-- `_internal_mutex.unlock()`. -/
theorem unlock_inv (h : Inv hierachy_value s) {m : μ} (hpc : s.pc i = .unlock m) :
    Inv hierachy_value { s.goto i .idle with
      internal_mutex := Function.update s.internal_mutex m none } := by
  have hplace := (h i).place
  rw [hpc] at hplace
  obtain ⟨hown, hnot⟩ := hplace
  refine h.of_thread i ?_ fun j hj => ?_
  · obtain ⟨hchain, hlevel, howned, -, hin⟩ := h i
    rw [hpc] at hin
    refine ⟨hchain, hlevel, fun m' hm' => ?_, ?_, fun m' hm' => ?_⟩
    · have hne : m' ≠ m := fun heq => hnot (heq ▸ hm')
      exact (Function.update_of_ne hne _ _).trans (howned m' hm')
    · change Place hierachy_value _ i ((s.goto i .idle).pc i)
      rw [goto_pc_self]
      trivial
    · left
      change Function.update s.internal_mutex m none m' = some i at hm'
      by_cases hne : m' = m
      · rw [hne, Function.update_self] at hm'
        contradiction
      · rw [Function.update_of_ne hne] at hm'
        rcases hin m' hm' with hheld | hheld
        · exact hheld
        · exact absurd (Option.some.inj hheld).symm hne
  · refine ⟨Function.update_of_ne hj _ _, rfl, rfl, fun _ _ => rfl, fun m' => ?_⟩
    change Function.update s.internal_mutex m none m' = some j ↔ _
    by_cases hne : m' = m
    · rw [hne, Function.update_self, hown]
      simp [Ne.symm hj]
    · rw [Function.update_of_ne hne]

/-- **Every step keeps the invariant.** -/
theorem act_inv (h : Inv hierachy_value s) {a : Act ι μ}
    (ha : s.act hierachy_value a = some s') : Inv hierachy_value s' := by
  cases a with
  | call i c =>
      simp only [Sys.act, Sys.call] at ha
      split at ha
      case h_1 m hpc =>
          rw [Option.some.injEq] at ha
          exact ha ▸ goto_inv h trivial (by rw [hpc]; rfl)
      case h_2 m hpc =>
          rw [Option.some.injEq] at ha
          exact ha ▸ goto_inv h trivial (by rw [hpc]; rfl)
      case h_3 m hpc =>
          obtain ⟨hmem, ha⟩ := Option.ite_none_right_eq_some.mp ha
          rw [Option.some.injEq] at ha
          exact ha ▸ goto_inv h hmem (by rw [hpc]; rfl)
      case h_4 => contradiction
  | spurious i =>
      simp only [Sys.act] at ha
      split at ha
      case h_1 m hpc =>
          rw [Option.some.injEq] at ha
          exact ha ▸ goto_inv h trivial (by rw [hpc]; rfl)
      case h_2 => contradiction
  | step i =>
      have hplace := (h i).place
      simp only [Sys.act, Sys.step] at ha
      cases hpc : s.pc i with
      | idle =>
          rw [hpc] at ha
          contradiction
      | chech_for_hierachy_violation tries m =>
          simp only [hpc] at ha
          split at ha
          case isTrue hle =>
              rw [Option.some.injEq] at ha
              exact ha ▸ goto_inv h trivial (by rw [hpc]; rfl)
          case isFalse hlt =>
              rw [Option.some.injEq] at ha
              -- the check has passed: the level is below that of the thread
              have hlt := BitVec.not_le.mp hlt
              refine ha ▸ goto_inv h ?_ (by rw [hpc]; rfl)
              cases tries <;> exact hlt
      | lock m =>
          rw [hpc] at hplace
          simp only [hpc] at ha
          obtain ⟨hfree, ha⟩ := Option.ite_none_right_eq_some.mp ha
          rw [Option.some.injEq] at ha
          exact ha ▸ lock_inv h hfree hplace (by rw [hpc]; rfl)
      | try_lock m =>
          rw [hpc] at hplace
          simp only [hpc] at ha
          split at ha
          case isTrue hfree =>
              rw [Option.some.injEq] at ha
              exact ha ▸ lock_inv h hfree hplace (by rw [hpc]; rfl)
          case isFalse =>
              rw [Option.some.injEq] at ha
              exact ha ▸ goto_inv h trivial (by rw [hpc]; rfl)
      | save_previous m =>
          simp only [hpc, Option.some.injEq] at ha
          exact ha ▸ save_previous_inv h hpc
      | set_this m =>
          simp only [hpc, Option.some.injEq] at ha
          exact ha ▸ set_this_inv h hpc
      | check_last m =>
          rw [hpc] at hplace
          simp only [hpc] at ha
          split at ha
          case isTrue hne =>
              rw [Option.some.injEq] at ha
              exact ha ▸ goto_inv h trivial (by rw [hpc]; rfl)
          case isFalse heq =>
              rw [Option.some.injEq] at ha
              exact ha ▸ goto_inv h ⟨hplace, not_not.mp heq⟩ (by rw [hpc]; rfl)
      | restore_this m =>
          simp only [hpc, Option.some.injEq] at ha
          exact ha ▸ restore_this_inv h hpc
      | unlock m =>
          simp only [hpc, Option.some.injEq] at ha
          exact ha ▸ unlock_inv h hpc

theorem exec_inv {as : List (Act ι μ)} (h : (lts hierachy_value).exec {} as = some s) :
    Inv hierachy_value s :=
  (lts hierachy_value).exec_inv (fun _ _ _ hs ht => act_inv hs ht) inv_init h

end Invariant

/-! ## Deadlock -/

section Deadlock

variable {hierachy_value : μ → BitVec w} {s : Sys ι μ w}

/-- Along two waits the level of the waiting thread falls: the second one is in no other
call, so it holds the mutex that the first one waits for. -/
theorem WaitsFor.level_lt (h : Inv hierachy_value s) {i j k : ι} (hij : WaitsFor s i j)
    (hjk : WaitsFor s j k) :
    s.this_thread_hierachy_value j < s.this_thread_hierachy_value i := by
  obtain ⟨m, hpc, hown⟩ := hij
  obtain ⟨m', hpc', -⟩ := hjk
  have hlt := (h i).place
  rw [hpc] at hlt
  have hin := (h j).inside m hown
  rw [hpc'] at hin
  -- what `j` has locked it holds, for it is in `lock` of another mutex
  rcases hin with hheld | hinside
  · have hle := (h j).chain.le_of_mem hheld
    rw [← (h j).level] at hle
    exact BitVec.lt_def.mpr (Nat.lt_of_le_of_lt (BitVec.le_def.mp hle) (BitVec.lt_def.mp hlt))
  · exact absurd hinside (by simp [Pc.inside])

/-- What holds of the mutexes and of the threads. -/
structure Hierarchy (hierachy_value : μ → BitVec w) (s : Sys ι μ w) : Prop where
  /-- In the order of their acquisition, the last one first, the levels of what a thread
  holds grow. -/
  decreasing : ∀ i, (s.held i).Pairwise fun m m' => hierachy_value m < hierachy_value m'
  this_thread : ∀ i, s.this_thread_hierachy_value i =
    ((s.held i).head?.map hierachy_value).getD (ULLONG_MAX w)
  /-- What a thread holds it has locked. -/
  locked : ∀ i, ∀ m ∈ s.held i, s.internal_mutex m = some i
  /-- What a thread has locked it holds, unless it is in its `lock` or its `unlock`. -/
  held : ∀ i m, s.internal_mutex m = some i → m ∈ s.held i ∨ (s.pc i).inside = some m
  no_cycle : ∀ i, ¬ Relation.TransGen (WaitsFor s) i i

variable [DecidableEq ι] [DecidableEq μ]

/-- **Hierarchical mutexes.** After any calls of any threads, in any interleaving, the levels
of what a thread holds fall in the order of acquisition, the level of the thread is the last
of them, and no threads wait for each other in a cycle. -/
theorem hierachical_no_deadlock (hierachy_value : μ → BitVec w) (as : List (Act ι μ)) :
    ∀ s, (lts hierachy_value).exec {} as = some s → Hierarchy hierachy_value s := by
  intro s hs
  have h := exec_inv hs
  refine ⟨fun i => (h i).chain.pairwise, fun i => ?_, fun i => (h i).owned,
    fun i => (h i).inside, ?_⟩
  · rw [(h i).level]
    cases s.held i <;> rfl
  · apply not_transGen_self fun i => (s.this_thread_hierachy_value i).toNat
    intro i j k hij hjk
    exact BitVec.lt_def.mp (hij.level_lt h hjk)

end Deadlock

/-- The two mutexes of `test_hierarchy_lock`. -/
def test_level (second : Bool) : BitVec 64 := if second then 500 else 1000

/-- `t1` has locked both, and `t2` is blocked in the `lock` of the second one. -/
def test_run : List (Act Bool Bool) :=
  [.call false (.lock false)] ++ List.replicate 4 (.step false) ++ [.call false (.lock true)] ++
    List.replicate 4 (.step false) ++ [.call true (.lock true), .step true]

theorem hierachical_no_deadlock_test : ∃ s, (lts test_level).exec {} test_run = some s ∧
    s.held false = [true, false] ∧ WaitsFor s true false ∧ Hierarchy test_level s :=
  ⟨_, rfl, rfl, ⟨true, rfl, rfl⟩, hierachical_no_deadlock test_level test_run _ rfl⟩

end BoostNet.HierachicalMutex
