/-
A range divided into blocks, one thread for each. A library: no component is named here.

The calling thread starts a thread for every block but the last, goes through the last one
itself, and joins the others. What a thread does in its block is a `Job`: where it enters, how it
steps, with the state `σ` that the threads share, and when it is over. A run interleaves the
threads in any order.

* `exec_inv`: what a step of a thread keeps, and the start of a thread, a run keeps.
* `joined_over`: when the calling thread goes on, all threads are over.
* `exists_step`, `exec_length`: it does go on, where a thread that is not over lets some thread
  step, and every step makes what is left less.
-/
import BoostNet.Lts
import BoostNet.Threads

set_option autoImplicit false

namespace BoostNet.Crew

variable {σ W : Type*}

/-- What the threads do. A block starts at `begin` and ends before `block_end begin`; `enter` is
where its thread begins, `enter_last` where the calling thread begins with the last block. -/
structure Job (σ W : Type*) where
  block_end : Nat → Nat
  enter : Nat → W
  enter_last : Nat → W
  ended : W → Bool
  step : σ → Nat → W → Option (σ × W)
  ended_stuck : ∀ shared i w, ended w = true → step shared i w = none

inductive Caller
  | start (i block_start : Nat)
  | own
  | join (i : Nat)
  | joined

/-- `worker i` is where the thread `i` is, `none` before it is started. -/
structure State (σ W : Type*) where
  shared : σ
  worker : Nat → Option W
  caller : Caller

inductive Event
  | caller
  | worker (i : Nat)

section Defs

variable (J : Job σ W) (num_threads first : Nat)

def is_over (s : State σ W) (i : Nat) : Bool :=
  match s.worker i with
  | none => false
  | some w => J.ended w

def step_worker (s : State σ W) (i : Nat) : Option (State σ W) :=
  (s.worker i).bind fun w => (J.step s.shared i w).map fun r =>
    { s with shared := r.1, worker := Function.update s.worker i (some r.2) }

def step_caller (s : State σ W) : Option (State σ W) :=
  match s.caller with
  | .start i block_start =>
      if i < num_threads - 1 then
        some { s with
          worker := Function.update s.worker i (some (J.enter block_start))
          caller := .start (i + 1) (J.block_end block_start) }
      else
        some { s with
          worker := Function.update s.worker i (some (J.enter_last block_start))
          caller := .own }
  | .own => if is_over J s (num_threads - 1) then some { s with caller := .join 0 } else none
  | .join i =>
      if i < num_threads - 1 then
        if is_over J s i then some { s with caller := .join (i + 1) } else none
      else some { s with caller := .joined }
  | .joined => none

def init (shared : σ) : State σ W where
  shared := shared
  worker := fun _ => none
  caller := .start 0 first

def lts (shared : σ) : Lts (State σ W) Event where
  init := init first shared
  step := fun s e =>
    match e with
    | .caller => step_caller J num_threads s
    | .worker i => step_worker J s i

/-- Where the block `i` starts. -/
def begin_of : Nat → Nat
  | 0 => first
  | i + 1 => J.block_end (begin_of i)

/-- Where the thread `i` begins. -/
def entry (i : Nat) : W :=
  if i + 1 = num_threads then J.enter_last (begin_of J first i)
  else J.enter (begin_of J first i)

/-- How many threads have been started. -/
def Caller.started : Caller → Nat
  | .start i _ => i
  | _ => num_threads

/-- What the calling thread knows. -/
def Placed (s : State σ W) : Prop :=
  match s.caller with
  | .start i begin => i < num_threads ∧ begin = begin_of J first i
  | .own => True
  | .join i => i < num_threads ∧ is_over J s (num_threads - 1) = true ∧
      ∀ j, j < i → is_over J s j = true
  | .joined => ∀ j, j < num_threads → is_over J s j = true

structure Inv (s : State σ W) : Prop where
  started : ∀ j, s.worker j = none ↔ s.caller.started num_threads ≤ j
  placed : Placed J num_threads first s

end Defs

variable {J : Job σ W} {num_threads first : Nat} {s s' : State σ W}

/-! ## The calling thread -/

theorem inv_init (hpos : 0 < num_threads) (shared : σ) :
    Inv J num_threads first (init first shared) where
  started := fun j => iff_of_true rfl (Nat.zero_le j)
  placed := ⟨hpos, rfl⟩

theorem Inv.started_le (h : Inv J num_threads first s) :
    s.caller.started num_threads ≤ num_threads := by
  have hplaced := h.placed
  unfold Placed at hplaced
  cases hcaller : s.caller with
  | start i begin =>
      rw [hcaller] at hplaced
      exact hplaced.1.le
  | _ => exact le_rfl

/-- Only the threads of the blocks are started. -/
theorem Inv.lt_of_started (h : Inv J num_threads first s) {i : Nat} {w : W}
    (hi : s.worker i = some w) : i < num_threads := by
  refine Nat.lt_of_not_le fun hge => ?_
  rw [(h.started i).mpr (Nat.le_trans h.started_le hge)] at hi
  cases hi

/-- The threads are started in order. -/
theorem Inv.started_lt (h : Inv J num_threads first s) {i j : Nat} {w : W}
    (hi : s.worker i = some w) (hj : j ≤ i) : ∃ v, s.worker j = some v := by
  refine Option.ne_none_iff_exists'.mp fun hnone => ?_
  have hle := (h.started j).mp hnone
  rw [(h.started i).mpr (Nat.le_trans hle hj)] at hi
  cases hi

/-- A thread that steps is not over. -/
theorem Inv.step_worker {shared' : σ} {i : Nat} {w w' : W} (h : Inv J num_threads first s)
    (hi : s.worker i = some w) (hstep : J.step s.shared i w = some (shared', w')) :
    Inv J num_threads first
      { s with shared := shared', worker := Function.update s.worker i (some w') } := by
  -- a thread that is over is not the one that steps
  have hover : ∀ j, is_over J s j = true → is_over J
      { s with shared := shared', worker := Function.update s.worker i (some w') } j = true := by
    intro j hj
    have hne : j ≠ i := by
      rintro rfl
      rw [is_over, hi] at hj
      rw [J.ended_stuck _ _ _ hj] at hstep
      cases hstep
    simpa only [is_over, Function.update_of_ne hne] using hj
  refine ⟨fun j => ?_, ?_⟩
  · change Function.update s.worker i (some w') j = none ↔ _
    rw [← h.started j]
    by_cases hji : j = i
    · rw [hji, Function.update_self, hi]
      exact iff_of_false (Option.some_ne_none _) (Option.some_ne_none _)
    · rw [Function.update_of_ne hji]
  · have hplaced := h.placed
    unfold Placed at hplaced ⊢
    cases hcaller : s.caller with
    | start k begin =>
        rw [hcaller] at hplaced
        exact hplaced
    | own => trivial
    | join k =>
        rw [hcaller] at hplaced
        exact ⟨hplaced.1, hover _ hplaced.2.1, fun j hj => hover j (hplaced.2.2 j hj)⟩
    | joined =>
        rw [hcaller] at hplaced
        exact fun j hj => hover j (hplaced j hj)

/-- The calling thread starts the thread `i`, or waits. -/
theorem Inv.step_caller (h : Inv J num_threads first s) (hpos : 0 < num_threads)
    (hstep : step_caller J num_threads s = some s') :
    Inv J num_threads first s' ∧
      ((∃ i, i < num_threads ∧ s.worker i = none ∧ s'.shared = s.shared ∧
          s'.worker = Function.update s.worker i (some (entry J num_threads first i))) ∨
        (s'.shared = s.shared ∧ s'.worker = s.worker)) := by
  have hplaced := h.placed
  unfold Crew.step_caller at hstep
  split at hstep
  case h_1 i begin hcaller =>
    rw [Placed, hcaller] at hplaced
    obtain ⟨hi, rfl⟩ := hplaced
    -- the threads before `i` have been started, and no others
    have hnot : ∀ j, s.worker j = none ↔ i ≤ j := fun j => by
      rw [h.started j, hcaller]
      rfl
    have hstarted : ∀ w j, Function.update s.worker i (some w) j = none ↔ i + 1 ≤ j := by
      intro w j
      by_cases hji : j = i
      · rw [hji, Function.update_self]
        exact iff_of_false (Option.some_ne_none _) (by omega)
      · rw [Function.update_of_ne hji, hnot j]
        omega
    split at hstep
    case isTrue hlt =>
      obtain rfl := Option.some.inj hstep
      refine ⟨⟨hstarted _, by omega, rfl⟩, Or.inl ⟨i, hi, (hnot i).mpr le_rfl, rfl, ?_⟩⟩
      rw [entry, if_neg (by omega)]
    case isFalse hge =>
      obtain rfl := Option.some.inj hstep
      obtain rfl : i = num_threads - 1 := by omega
      refine ⟨⟨fun j => ?_, trivial⟩, Or.inl ⟨_, hi, (hnot _).mpr le_rfl, rfl, ?_⟩⟩
      · rw [hstarted _ j, Nat.sub_add_cancel hpos]
        rfl
      · rw [entry, if_pos (Nat.sub_add_cancel hpos)]
  case h_2 hcaller =>
    split at hstep
    case isFalse => cases hstep
    case isTrue hover =>
      obtain rfl := Option.some.inj hstep
      have hstarted := h.started
      rw [hcaller] at hstarted
      exact ⟨⟨hstarted, hpos, hover, fun j hj => by omega⟩, Or.inr ⟨rfl, rfl⟩⟩
  case h_3 i hcaller =>
    rw [Placed, hcaller] at hplaced
    obtain ⟨hi, hown, hjoined⟩ := hplaced
    have hstarted := h.started
    rw [hcaller] at hstarted
    split at hstep
    case isTrue hlt =>
      split at hstep
      case isFalse => cases hstep
      case isTrue hover =>
        obtain rfl := Option.some.inj hstep
        refine ⟨⟨hstarted, by omega, hown, fun j hj => ?_⟩, Or.inr ⟨rfl, rfl⟩⟩
        rcases Nat.lt_succ_iff_lt_or_eq.mp hj with hj | rfl
        · exact hjoined j hj
        · exact hover
    case isFalse hge =>
      obtain rfl := Option.some.inj hstep
      refine ⟨⟨hstarted, fun j hj => ?_⟩, Or.inr ⟨rfl, rfl⟩⟩
      -- the last block is the calling thread's own
      by_cases hjlast : j = num_threads - 1
      · rw [hjlast]
        exact hown
      · exact hjoined j (by omega)
  case h_4 => cases hstep

/-! ## Runs -/

/-- The state a run starts from does not matter to the steps. -/
theorem exec_with_init (shared : σ) (start t : State σ W) (as : List Event) :
    Lts.exec { lts J num_threads first shared with init := start } t as =
      (lts J num_threads first shared).exec t as := by
  induction as generalizing t with
  | nil => rfl
  | cons e as ih =>
      rw [Lts.exec_cons, Lts.exec_cons]
      exact congrArg _ (funext ih)

/-- No thread is needed, and the calling thread goes on at once. -/
def skipped (shared : σ) : State σ W where
  shared := shared
  worker := fun _ => none
  caller := .joined

theorem exec_skipped {shared shared' : σ} {as : List Event}
    (hrun : (lts J num_threads first shared).exec (skipped shared') as = some s) :
    as = [] ∧ s = skipped shared' := by
  cases as with
  | nil => exact ⟨rfl, (Option.some.inj hrun).symm⟩
  | cons e as =>
      obtain ⟨t, ht, -⟩ := (lts J num_threads first shared).exec_cons_some.mp hrun
      cases e <;> cases ht

/-- What the start of a thread and a step of a thread keep. -/
structure Keeps (J : Job σ W) (num_threads first : Nat) (shared : σ)
    (Q : σ → (Nat → Option W) → Prop) : Prop where
  init : Q shared fun _ => none
  start : ∀ shared worker i, i < num_threads → worker i = none → Q shared worker →
    Q shared (Function.update worker i (some (entry J num_threads first i)))
  step : ∀ shared worker i w shared' w', i < num_threads → worker i = some w →
    J.step shared i w = some (shared', w') → Q shared worker →
    Q shared' (Function.update worker i (some w'))

/-- What they keep, every step keeps. -/
theorem Keeps.step_inv {Q : σ → (Nat → Option W) → Prop} {shared : σ} {e : Event}
    (hkeeps : Keeps J num_threads first shared Q) (hpos : 0 < num_threads)
    (hinv : Inv J num_threads first s) (hq : Q s.shared s.worker)
    (hstep : (lts J num_threads first shared).step s e = some s') :
    Inv J num_threads first s' ∧ Q s'.shared s'.worker := by
  cases e with
  | caller =>
      obtain ⟨hinv', ⟨i, hi, hnone, hshared, hworker⟩ | ⟨hshared, hworker⟩⟩ :=
        hinv.step_caller hpos hstep
      · refine ⟨hinv', ?_⟩
        rw [hshared, hworker]
        exact hkeeps.start _ _ i hi hnone hq
      · refine ⟨hinv', ?_⟩
        rw [hshared, hworker]
        exact hq
  | worker i =>
      obtain ⟨w, hw, hmap⟩ := Option.bind_eq_some_iff.mp hstep
      obtain ⟨⟨shared', w'⟩, hr, rfl⟩ := Option.map_eq_some_iff.mp hmap
      exact ⟨hinv.step_worker hw hr, hkeeps.step _ _ i w _ _ (hinv.lt_of_started hw) hw hr hq⟩

/-- **The invariant rule.** What they keep, a run keeps. -/
theorem exec_inv {Q : σ → (Nat → Option W) → Prop} (hpos : 0 < num_threads) {shared : σ}
    (hkeeps : Keeps J num_threads first shared Q)
    {as : List Event}
    (hrun : (lts J num_threads first shared).exec (init first shared) as = some s) :
    Inv J num_threads first s ∧ Q s.shared s.worker := by
  refine (lts J num_threads first shared).exec_inv (P := fun t =>
    Inv J num_threads first t ∧ Q t.shared t.worker) ?_ ⟨inv_init hpos shared, hkeeps.init⟩ hrun
  rintro t e t' ⟨hinv, hq⟩ ht
  exact hkeeps.step_inv hpos hinv hq ht

/-- **When the calling thread goes on, all threads are over.** -/
theorem Inv.joined_over (h : Inv J num_threads first s) (hjoined : s.caller = .joined) {i : Nat}
    (hi : i < num_threads) : ∃ w, s.worker i = some w ∧ J.ended w = true := by
  have hplaced := h.placed
  rw [Placed, hjoined] at hplaced
  have hover := hplaced i hi
  rw [is_over] at hover
  split at hover
  case h_1 => cases hover
  case h_2 w hw => exact ⟨w, hw, hover⟩

theorem exists_step_worker {i : Nat} {w : W} {r : σ × W} (hw : s.worker i = some w)
    (hr : J.step s.shared i w = some r) : ∃ j s', Crew.step_worker J s j = some s' := by
  refine ⟨i, { s with shared := r.1, worker := Function.update s.worker i (some r.2) }, ?_⟩
  rw [Crew.step_worker, hw, Option.bind_some]
  exact Option.map_eq_some_iff.mpr ⟨r, hr, rfl⟩

/-- **The calling thread does go on**, when some thread can step as long as one is not over. -/
theorem Inv.exists_step (h : Inv J num_threads first s) (hpos : 0 < num_threads)
    (hthreads : ∀ i w, s.worker i = some w → J.ended w = false →
      ∃ j s', Crew.step_worker J s j = some s')
    (hnot : s.caller ≠ .joined) (shared : σ) :
    ∃ e s', (lts J num_threads first shared).step s e = some s' := by
  -- a thread that is waited for is over, or some thread can step
  have hwait : ∀ i, i < num_threads → s.caller.started num_threads = num_threads →
      is_over J s i = true ∨ ∃ e s', (lts J num_threads first shared).step s e = some s' := by
    intro i hi hall
    obtain ⟨w, hw⟩ : ∃ w, s.worker i = some w := by
      refine Option.ne_none_iff_exists'.mp fun hnone => ?_
      have hle := (h.started i).mp hnone
      omega
    cases hover : J.ended w with
    | true => exact Or.inl (by rw [is_over, hw]; exact hover)
    | false =>
        obtain ⟨j, s', hs'⟩ := hthreads i w hw hover
        exact Or.inr ⟨.worker j, s', hs'⟩
  have hcallers : (∃ s', Crew.step_caller J num_threads s = some s') ∨
      ∃ e s', (lts J num_threads first shared).step s e = some s' := by
    have hplaced := h.placed
    unfold Crew.step_caller
    cases hcaller : s.caller with
    | start i begin =>
        left
        by_cases hlt : i < num_threads - 1
        · exact ⟨_, if_pos hlt⟩
        · exact ⟨_, if_neg hlt⟩
    | own =>
        refine (hwait (num_threads - 1) (by omega) (by rw [hcaller]; rfl)).imp_left
          fun hover => ?_
        exact ⟨_, if_pos hover⟩
    | join i =>
        rw [Placed, hcaller] at hplaced
        by_cases hlt : i < num_threads - 1
        · refine (hwait i hplaced.1 (by rw [hcaller]; rfl)).imp_left fun hover => ?_
          exact ⟨_, by simp only [if_pos hlt, if_pos hover]; rfl⟩
        · exact Or.inl ⟨_, if_neg hlt⟩
    | joined => exact absurd hcaller hnot
  rcases hcallers with ⟨s', hs'⟩ | hstep
  · exact ⟨.caller, s', hs'⟩
  · exact hstep

/-- Blocks of one length. -/
theorem begin_of_eq {block_size : Nat} (hblock : ∀ begin, J.block_end begin = begin + block_size)
    (i : Nat) : begin_of J first i = first + i * block_size := by
  induction i with
  | zero => rw [begin_of, Nat.zero_mul, Nat.add_zero]
  | succ i ih => rw [begin_of, hblock, ih, Nat.succ_mul, Nat.add_assoc]

/-! ## The length of a run -/

def Caller.left (num_threads : Nat) : Caller → Nat
  | .start i _ => 2 * num_threads - i + 4
  | .own => num_threads + 3
  | .join i => num_threads - i + 1
  | .joined => 0

/-- Steps that are left: `left` for a thread that has been started, at most `bound` otherwise. -/
def State.left (left : W → Nat) (bound num_threads : Nat) (s : State σ W) : Nat :=
  (∑ j ∈ Finset.range num_threads, (s.worker j).elim bound left) + s.caller.left num_threads

/-- A thread has less left, and the calling thread not more. -/
theorem left_lt {left : W → Nat} {bound i : Nat} {w : W} (hi : i < num_threads)
    (hworker : s'.worker = Function.update s.worker i (some w))
    (hw : left w < (s.worker i).elim bound left)
    (hcaller : s'.caller.left num_threads ≤ s.caller.left num_threads) :
    s'.left left bound num_threads < s.left left bound num_threads := by
  have hsum := sum_update (fun v : Option W => v.elim bound left) s.worker (some w)
    (Finset.mem_range.mpr hi)
  simp only [State.left, hworker]
  simp only [Option.elim_some] at hsum
  omega

theorem Inv.left_step_caller {left : W → Nat} {bound : Nat} (h : Inv J num_threads first s)
    (hpos : 0 < num_threads) (hentry : ∀ i, i < num_threads →
      left (entry J num_threads first i) < bound)
    (hstep : Crew.step_caller J num_threads s = some s') :
    s'.left left bound num_threads < s.left left bound num_threads := by
  have hplaced := h.placed
  unfold Crew.step_caller at hstep
  split at hstep
  case h_1 i begin hcaller =>
    rw [Placed, hcaller] at hplaced
    obtain ⟨hi, rfl⟩ := hplaced
    have hnone : s.worker i = none := (h.started i).mpr (by rw [hcaller]; exact le_rfl)
    have hleft := hentry i hi
    split at hstep
    case isTrue hlt =>
      obtain rfl := Option.some.inj hstep
      rw [entry, if_neg (by omega)] at hleft
      refine left_lt hi rfl (by rwa [hnone]) ?_
      simp only [hcaller, Caller.left]
      omega
    case isFalse hge =>
      obtain rfl := Option.some.inj hstep
      rw [entry, if_pos (by omega)] at hleft
      refine left_lt hi rfl (by rwa [hnone]) ?_
      simp only [hcaller, Caller.left]
      omega
  case h_2 hcaller =>
    split at hstep
    case isFalse => cases hstep
    case isTrue hover =>
      obtain rfl := Option.some.inj hstep
      simp only [State.left, hcaller, Caller.left]
      omega
  case h_3 i hcaller =>
    split at hstep
    case isTrue hlt =>
      split at hstep
      case isFalse => cases hstep
      case isTrue hover =>
        obtain rfl := Option.some.inj hstep
        simp only [State.left, hcaller, Caller.left]
        omega
    case isFalse hge =>
      obtain rfl := Option.some.inj hstep
      simp only [State.left, hcaller, Caller.left]
      omega
  case h_4 => cases hstep

/-- **A run comes to its end**, when every step of a thread leaves less to do. -/
theorem exec_length {Q : σ → (Nat → Option W) → Prop} {left : W → Nat} {bound : Nat}
    (hpos : 0 < num_threads) {shared : σ}
    (hkeeps : Keeps J num_threads first shared Q)
    (hentry : ∀ i, i < num_threads → left (entry J num_threads first i) < bound)
    (hless : ∀ shared worker i w shared' w', i < num_threads → worker i = some w →
      J.step shared i w = some (shared', w') → Q shared worker → left w' < left w)
    {as : List Event}
    (hrun : (lts J num_threads first shared).exec (init first shared) as = some s) :
    as.length ≤ (init first shared).left left bound num_threads := by
  have hlen := (lts J num_threads first shared).length_le_of_inv
    (P := fun t => Inv J num_threads first t ∧ Q t.shared t.worker)
    (State.left left bound num_threads) ?_ ⟨inv_init hpos shared, hkeeps.init⟩ hrun
  · exact Nat.le_trans (Nat.le_add_right _ _) hlen
  · rintro t e u ⟨hinv, hq⟩ hu
    refine ⟨hkeeps.step_inv hpos hinv hq hu, ?_⟩
    cases e with
    | caller => exact hinv.left_step_caller hpos hentry hu
    | worker i =>
        obtain ⟨w, hw, hmap⟩ := Option.bind_eq_some_iff.mp hu
        obtain ⟨⟨shared', w'⟩, hr, rfl⟩ := Option.map_eq_some_iff.mp hmap
        have hi := hinv.lt_of_started hw
        refine left_lt hi rfl ?_ le_rfl
        rw [hw]
        exact hless _ _ i w _ _ hi hw hr hq

end BoostNet.Crew
