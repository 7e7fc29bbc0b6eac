/-
`parallel_find` (Concurrent/day21-ParallenAlgorithm/parallen_find.h): a search in blocks, one
thread for each, with a promise for the result and a flag that stops the others.

The threads are a `Crew`: the calling thread starts them, goes through the last block itself,
and joins the others; then it looks at the flag (`returned`). Every load, comparison,
`set_value` and store is one step. Several threads may find an element: the promise takes the
first, `set_value` throws for the others, and so does `set_exception`, which ends them.
Iterators are indices; `is_match` says which elements are equal to `match`.

`Inv` says what each thread has looked at: one that is over has looked at its whole block, or
there is a result. The flag is set, or about to be, when there is one.

* `parallel_find_spec`: both searches return an element that matches when there is one, and the
  end of the range otherwise.
-/
import BoostNet.Crew
import BoostNet.ParallelFindAsync

set_option autoImplicit false

namespace BoostNet.ParallelFind

open Blocks Crew
open ParallelFindAsync.Find (NoMatch NoMatch.append NoMatch.succ)

/-- What a promise holds. -/
inductive Promised
  | value (it : Nat)
  | exception

structure Shared where
  result : Option Promised
  done_flag : Bool

/-- `find_element` in a thread. -/
inductive Worker
  | loop (begin end_ : Nat)
  | compare (begin end_ : Nat)
  | set_value (begin : Nat)
  | set_exception
  | set_done
  | ended
  deriving DecidableEq

def Worker.step (is_match : Nat → Bool) (s : Shared) : Worker → Option (Shared × Worker)
  -- (begin != end) && !done_flag->load()
  | .loop begin end_ =>
      some (s, if begin ≠ end_ ∧ s.done_flag = false then .compare begin end_ else .ended)
  | .compare begin end_ =>
      some (s, if is_match begin then .set_value begin else .loop (begin + 1) end_)
  | .set_value begin =>
      match s.result with
      | none => some ({ s with result := some (.value begin) }, .set_done)
      | some _ => some (s, .set_exception)
  | .set_exception =>
      match s.result with
      | none => some ({ s with result := some .exception }, .set_done)
      | some _ => some (s, .ended)
  | .set_done => some ({ s with done_flag := true }, .ended)
  | .ended => none

def find_element (is_match : Nat → Bool) (block_size last : Nat) : Job Shared Worker where
  block_end := fun block_start => block_start + block_size
  enter := fun block_start => .loop block_start (block_start + block_size)
  enter_last := fun block_start => .loop block_start last
  ended := fun w => w = .ended
  step := fun s _ w => w.step is_match s
  ended_stuck := by
    rintro s - w hover
    obtain rfl := of_decide_eq_true hover
    rfl

abbrev State := Crew.State Shared Worker

/-- The promise without a value, and the flag down. -/
def shared : Shared := ⟨none, false⟩

def init (first last : Nat) : State :=
  if last - first = 0 then skipped shared else Crew.init first shared

/-- A call of `parallel_find`. -/
def lts (is_match : Nat → Bool) (hardware_threads first last : Nat) : Lts State Event :=
  let length := last - first
  let num_threads := num_threads hardware_threads length
  { Crew.lts (find_element is_match (length / num_threads) last) num_threads first shared with
    init := init first last }

variable {is_match : Nat → Bool} {hardware_threads first last : Nat}

/-- Runs are those of the crew. -/
theorem lts_exec (t : State) (as : List Event) :
    (lts is_match hardware_threads first last).exec t as =
      (Crew.lts (find_element is_match
        ((last - first) / num_threads hardware_threads (last - first)) last)
        (num_threads hardware_threads (last - first)) first shared).exec t as :=
  exec_with_init shared (init first last) t as

/-- What the call returns: `last` when the flag is down, what the promise has otherwise. -/
def returned (last : Nat) (s : State) : Option Nat :=
  match s.caller with
  | .joined =>
      if s.shared.done_flag = false then some last
      else match s.shared.result with
        | some (.value it) => some it
        | _ => none
  | _ => none

/-! ## The invariant -/

/-- What a thread for the block from `a` to `b` has looked at. -/
def Looked (is_match : Nat → Bool) (result : Option Promised) (a b : Nat) : Worker → Prop
  | .loop begin end_ => end_ = b ∧ a ≤ begin ∧ begin ≤ b ∧ NoMatch is_match a begin
  | .compare begin end_ => end_ = b ∧ a ≤ begin ∧ begin < b ∧ NoMatch is_match a begin
  | .set_value begin => a ≤ begin ∧ begin < b ∧ is_match begin = true
  | .set_exception | .set_done => result ≠ none
  | .ended => result ≠ none ∨ NoMatch is_match a b

structure Inv (is_match : Nat → Bool) (m first last : Nat) (s : Shared)
    (worker : Nat → Option Worker) : Prop where
  looked : ∀ i w, i < m → worker i = some w →
    Looked is_match s.result (block_start m first last i) (block_end m first last i) w
  result : ∀ r, s.result = some r → ∃ it, r = .value it ∧ first ≤ it ∧ it < last ∧
    is_match it = true
  done : s.done_flag = true → s.result ≠ none
  flagged : s.result ≠ none → s.done_flag = true ∨ ∃ i, worker i = some .set_done

variable {m : Nat} {s s' : Shared} {worker : Nat → Option Worker}

/-- The blocks cover the range. -/
theorem noMatch_all (hpos : 0 < m)
    (h : ∀ i, i < m → NoMatch is_match (block_start m first last i) (block_end m first last i)) :
    NoMatch is_match first last := by
  intro x hx hlt
  obtain ⟨i, hi, hstart, hend⟩ := exists_block hpos hx hlt
  exact h i hi x hstart hend

/-- The thread of a block begins at its start. -/
theorem entry_eq {i : Nat} :
    entry (find_element is_match ((last - first) / m) last) m first i =
      .loop (block_start m first last i) (block_end m first last i) := by
  have hstart : begin_of (find_element is_match ((last - first) / m) last) first i =
      block_start m first last i := begin_of_eq (fun _ => rfl) i
  rw [entry, hstart, block_end]
  split
  case isTrue => rfl
  case isFalse =>
    rw [block_start_succ]
    rfl

theorem Looked.mono {result result' : Option Promised} {a b : Nat} {w : Worker}
    (h : Looked is_match result a b w) (hresult : result ≠ none → result' ≠ none) :
    Looked is_match result' a b w := by
  cases w with
  | loop begin end_ => exact h
  | compare begin end_ => exact h
  | set_value begin => exact h
  | set_exception => exact hresult h
  | set_done => exact hresult h
  | ended => exact h.imp_left hresult

/-- A step of the thread `i`: what it has to show. -/
theorem Inv.move {i : Nat} {w w' : Worker} (h : Inv is_match m first last s worker)
    (hi : worker i = some w)
    (hlooked : Looked is_match s'.result (block_start m first last i) (block_end m first last i) w')
    (hkeep : s.result ≠ none → s'.result ≠ none)
    (hresult : ∀ r, s'.result = some r → ∃ it, r = .value it ∧ first ≤ it ∧ it < last ∧
      is_match it = true)
    (hdone : s.done_flag = true → s'.done_flag = true)
    (hdone' : s'.done_flag = true → s'.result ≠ none)
    (hflagged : s'.result ≠ none → s'.done_flag = true ∨ w' = .set_done ∨
      (s.result ≠ none ∧ w ≠ .set_done)) :
    Inv is_match m first last s' (Function.update worker i (some w')) := by
  refine ⟨fun j v hj hv => ?_, hresult, hdone', fun hr => ?_⟩
  · by_cases hji : j = i
    · subst hji
      rw [Function.update_self] at hv
      exact Option.some.inj hv ▸ hlooked
    · rw [Function.update_of_ne hji] at hv
      exact (h.looked j v hj hv).mono hkeep
  · rcases hflagged hr with hd | rfl | ⟨hold, hne⟩
    · exact Or.inl hd
    · exact Or.inr ⟨i, Function.update_self ..⟩
    · rcases h.flagged hold with hd | ⟨j, hj⟩
      · exact Or.inl (hdone hd)
      · refine Or.inr ⟨j, ?_⟩
        have hji : j ≠ i := by
          rintro rfl
          exact hne (Option.some.inj (hi.symm.trans hj))
        rw [Function.update_of_ne hji, hj]

/-- A step that leaves the promise and the flag alone. -/
theorem Inv.goto {i : Nat} {w w' : Worker} (h : Inv is_match m first last s worker)
    (hi : worker i = some w) (hset : w ≠ .set_done)
    (hlooked : Looked is_match s.result (block_start m first last i) (block_end m first last i)
      w') : Inv is_match m first last s (Function.update worker i (some w')) :=
  h.move hi hlooked id h.result id h.done fun hr => Or.inr (Or.inr ⟨hr, hset⟩)

theorem Inv.step {i : Nat} {w w' : Worker} (h : Inv is_match m first last s worker)
    (hle : first ≤ last) (him : i < m) (hi : worker i = some w)
    (hstep : w.step is_match s = some (s', w')) :
    Inv is_match m first last s' (Function.update worker i (some w')) := by
  have hlooked := h.looked i w him hi
  cases w with
  | loop begin end_ =>
      obtain ⟨rfl, rfl⟩ := Prod.mk.inj (Option.some.inj hstep)
      obtain ⟨rfl, ha, hb, hnone⟩ := hlooked
      refine h.goto hi (by simp) ?_
      split
      case isTrue hgo => exact ⟨rfl, ha, by omega, hnone⟩
      case isFalse hstop =>
        rw [not_and_or, not_not, Bool.not_eq_false] at hstop
        -- at the end of the block nothing matches; otherwise the flag says that there is a result
        rcases hstop with heq | hdone
        · exact Or.inr (heq ▸ hnone)
        · exact Or.inl (h.done hdone)
  | compare begin end_ =>
      obtain ⟨rfl, rfl⟩ := Prod.mk.inj (Option.some.inj hstep)
      obtain ⟨rfl, ha, hb, hnone⟩ := hlooked
      refine h.goto hi (by simp) ?_
      split
      case isTrue hmatch => exact ⟨ha, hb, hmatch⟩
      case isFalse hmatch =>
        exact ⟨rfl, by omega, hb, hnone.succ (Bool.not_eq_true _ ▸ hmatch)⟩
  | set_value begin =>
      obtain ⟨ha, hb, hmatch⟩ := hlooked
      simp only [Worker.step] at hstep
      split at hstep
      case h_1 hr =>
        -- the promise takes this one
        obtain ⟨rfl, rfl⟩ := Prod.mk.inj (Option.some.inj hstep)
        have hend : block_end m first last i ≤ last := block_end_le hle him
        refine h.move hi (Option.some_ne_none _) (fun hne => absurd hr hne) ?_ id
          (fun _ => Option.some_ne_none _) (fun _ => Or.inr (Or.inl rfl))
        rintro r hr'
        obtain rfl := Option.some.inj hr'
        exact ⟨begin, rfl, Nat.le_trans first_le_block_start ha, by omega, hmatch⟩
      case h_2 r hr =>
        -- another thread was first: `set_value` throws, and so will `set_exception`
        obtain ⟨rfl, rfl⟩ := Prod.mk.inj (Option.some.inj hstep)
        exact h.goto hi (by simp) (by simp [Looked, hr])
  | set_exception =>
      simp only [Worker.step] at hstep
      split at hstep
      case h_1 hr => exact absurd hr hlooked
      case h_2 r hr =>
        obtain ⟨rfl, rfl⟩ := Prod.mk.inj (Option.some.inj hstep)
        exact h.goto hi (by simp) (Or.inl hlooked)
  | set_done =>
      obtain ⟨rfl, rfl⟩ := Prod.mk.inj (Option.some.inj hstep)
      exact h.move hi (Or.inl hlooked) id h.result (fun _ => rfl) (fun _ => hlooked)
        fun _ => Or.inl rfl
  | ended => cases hstep

/-- The thread `i` is started. -/
theorem Inv.start {i : Nat} (h : Inv is_match m first last s worker) (hle : first ≤ last)
    (hi : i < m) (hnone : worker i = none) :
    Inv is_match m first last s (Function.update worker i
      (some (.loop (block_start m first last i) (block_end m first last i)))) := by
  refine ⟨fun j v hj hv => ?_, h.result, h.done, fun hr => ?_⟩
  · by_cases hji : j = i
    · subst hji
      rw [Function.update_self] at hv
      obtain rfl := Option.some.inj hv
      exact ⟨rfl, le_rfl, block_start_le_end hle hi, fun x hx hlt => by omega⟩
    · rw [Function.update_of_ne hji] at hv
      exact h.looked j v hj hv
  · refine (h.flagged hr).imp_right fun ⟨j, hj⟩ => ⟨j, ?_⟩
    have hji : j ≠ i := by
      rintro rfl
      rw [hnone] at hj
      cases hj
    rw [Function.update_of_ne hji, hj]

theorem inv_keeps (hle : first ≤ last) :
    Keeps (find_element is_match ((last - first) / m) last) m first shared
      (Inv is_match m first last) where
  init := ⟨fun _ _ _ hv => (by cases hv), fun _ hr => (by cases hr), fun hd => (by cases hd),
    fun hr => absurd rfl hr⟩
  start := fun s worker i hi hnone h => by
    rw [entry_eq]
    exact h.start hle hi hnone
  step := fun s worker i w s' w' him hi hstep h => h.step hle him hi hstep

/-- A thread never waits. -/
theorem Worker.exists_step {w : Worker} (hover : w ≠ .ended) : ∃ r, w.step is_match s = some r := by
  cases w with
  | loop begin end_ => exact ⟨_, rfl⟩
  | compare begin end_ => exact ⟨_, rfl⟩
  | set_value begin =>
      unfold Worker.step
      cases s.result <;> exact ⟨_, rfl⟩
  | set_exception =>
      unfold Worker.step
      cases s.result <;> exact ⟨_, rfl⟩
  | set_done => exact ⟨_, rfl⟩
  | ended => exact absurd rfl hover

/-- Steps that a thread has left. -/
def Worker.left : Worker → Nat
  | .loop begin end_ => 2 * (end_ - begin) + 6
  | .compare begin end_ => 2 * (end_ - begin) + 5
  | .set_value _ => 3
  | .set_exception => 2
  | .set_done => 1
  | .ended => 0

theorem entry_left_lt {i : Nat} (hle : first ≤ last) (hi : i < m) :
    (entry (find_element is_match ((last - first) / m) last) m first i).left <
      2 * (last - first) + 7 := by
  have hstart : first ≤ block_start m first last i := first_le_block_start
  have hend : block_end m first last i ≤ last := block_end_le hle hi
  rw [entry_eq]
  simp only [Worker.left]
  omega

theorem Inv.left_lt {i : Nat} {w w' : Worker} (h : Inv is_match m first last s worker)
    (him : i < m) (hi : worker i = some w) (hstep : w.step is_match s = some (s', w')) :
    w'.left < w.left := by
  have hlooked := h.looked i w him hi
  cases w with
  | loop begin end_ =>
      obtain ⟨rfl, rfl⟩ := Prod.mk.inj (Option.some.inj hstep)
      split <;> simp only [Worker.left] <;> omega
  | compare begin end_ =>
      obtain ⟨rfl, rfl⟩ := Prod.mk.inj (Option.some.inj hstep)
      obtain ⟨rfl, -, hb, -⟩ := hlooked
      split <;> simp only [Worker.left] <;> omega
  | set_value begin =>
      simp only [Worker.step] at hstep
      split at hstep <;> obtain ⟨rfl, rfl⟩ := Prod.mk.inj (Option.some.inj hstep) <;>
        simp [Worker.left]
  | set_exception =>
      simp only [Worker.step] at hstep
      split at hstep <;> obtain ⟨rfl, rfl⟩ := Prod.mk.inj (Option.some.inj hstep) <;>
        simp [Worker.left]
  | set_done =>
      obtain ⟨rfl, rfl⟩ := Prod.mk.inj (Option.some.inj hstep)
      exact Nat.one_pos
  | ended => cases hstep

/-! ## What the call returns -/

/-- `it` is what a search may return: an element that matches when there is one, and the end of
the range otherwise. -/
def Agrees (is_match : Nat → Bool) (first last it : Nat) : Prop :=
  ((∃ x, first ≤ x ∧ x < last ∧ is_match x = true) →
    first ≤ it ∧ it < last ∧ is_match it = true) ∧
  ((∀ x, first ≤ x → x < last → is_match x = false) → it = last)

theorem agrees_of_returned {it : Nat}
    (h : (first ≤ it ∧ it < last ∧ is_match it = true) ∨
      (it = last ∧ NoMatch is_match first last)) : Agrees is_match first last it := by
  rcases h with hfound | ⟨rfl, hnone⟩
  · refine ⟨fun _ => hfound, fun hnone => ?_⟩
    have hfalse := hnone it hfound.1 hfound.2.1
    rw [hfound.2.2] at hfalse
    cases hfalse
  · refine ⟨fun ⟨x, hx, hlt, hmatch⟩ => ?_, fun _ => rfl⟩
    rw [hnone x hx hlt] at hmatch
    cases hmatch

/-- When all threads are over, the flag says whether there is a result. -/
theorem Inv.returned_spec {t : State} (h : Inv is_match m first last t.shared t.worker)
    (hpos : 0 < m) (hover : ∀ i, i < m → t.worker i = some .ended)
    (hstarted : ∀ i w, t.worker i = some w → i < m) (hjoined : t.caller = .joined) :
    ∃ it, returned last t = some it ∧ Agrees is_match first last it := by
  rw [returned, hjoined]
  cases hdone : t.shared.done_flag with
  | false =>
      refine ⟨last, rfl, agrees_of_returned (Or.inr ⟨rfl, noMatch_all hpos fun i hi => ?_⟩)⟩
      have hnone : t.shared.result = none := by
        -- whoever sets the promise sets the flag before it is over
        by_contra hne
        rcases h.flagged hne with hd | ⟨j, hj⟩
        · rw [hdone] at hd
          cases hd
        · have hj' := hover j (hstarted j _ hj)
          rw [hj] at hj'
          cases hj'
      exact (h.looked i .ended hi (hover i hi)).resolve_left fun hne => hne hnone
  | true =>
      obtain ⟨r, hr⟩ := Option.ne_none_iff_exists'.mp (h.done hdone)
      obtain ⟨it, rfl, hfound⟩ := h.result r hr
      exact ⟨it, by simp [hr], agrees_of_returned (Or.inl hfound)⟩

/-- **The parallel searches find what a search finds.** For every range, every `==`, every
number of hardware threads and every interleaving, `parallel_find` and `parallel_find_async`
return, and return an element that is equal to `match` when there is one, and `last` otherwise. -/
theorem parallel_find_spec {T M : Type*} (equal : T → M → Bool) (mem : Nat → T) (match_ : M)
    (hardware_threads first n : Nat) :
    let is_match := fun it => equal (mem it) match_
    (∃ bound, ∀ as s,
      (lts is_match hardware_threads first (first + n)).exec (init first (first + n)) as = some s →
        (s.caller = .joined → ∃ it, returned (first + n) s = some it ∧
          Agrees is_match first (first + n) it) ∧
        (s.caller ≠ .joined →
          ∃ e s', (lts is_match hardware_threads first (first + n)).step s e = some s') ∧
        as.length ≤ bound) ∧
    (∃ bound, ∀ as s,
      (ParallelFindAsync.lts is_match first (first + n)).exec
          (false, .call first (first + n)) as = some s →
        (∀ it, s.2 = .returned it → Agrees is_match first (first + n) it) ∧
        ((∀ it, s.2 ≠ .returned it) →
          ∃ path s', (ParallelFindAsync.lts is_match first (first + n)).step s path = some s') ∧
        as.length ≤ bound) := by
  intro is_match
  have hle : first ≤ first + n := Nat.le_add_right first n
  refine ⟨?_, (ParallelFindAsync.Find.call first (first + n)).size, ?_⟩
  · -- no threads are started
    by_cases hlen : first + n - first = 0
    · refine ⟨0, fun as s hrun => ?_⟩
      rw [lts_exec, init, if_pos hlen] at hrun
      obtain ⟨rfl, rfl⟩ := exec_skipped hrun
      refine ⟨fun _ => ⟨first + n, rfl, agrees_of_returned (Or.inr ⟨rfl, ?_⟩)⟩,
        fun hnot => absurd rfl hnot, Nat.le_refl 0⟩
      exact fun x hx hlt => by omega
    · have hpos : 0 < num_threads hardware_threads (first + n - first) := num_threads_pos hlen
      refine ⟨(Crew.init first shared : State).left Worker.left (2 * (first + n - first) + 7)
        (num_threads hardware_threads (first + n - first)), fun as s hrun => ?_⟩
      rw [lts_exec, init, if_neg hlen] at hrun
      obtain ⟨hcrew, hinv⟩ := Crew.exec_inv hpos (inv_keeps hle) hrun
      refine ⟨fun hjoined => ?_, fun hnot => ?_,
        Crew.exec_length hpos (inv_keeps hle) ?_ ?_ hrun⟩
      · refine hinv.returned_spec hpos (fun i hi => ?_)
          (fun i w hw => hcrew.lt_of_started hw) hjoined
        obtain ⟨w, hw, hover⟩ := hcrew.joined_over hjoined hi
        exact of_decide_eq_true hover ▸ hw
      · refine hcrew.exists_step hpos (fun i w hw hover => ?_) hnot shared
        obtain ⟨r, hr⟩ : ∃ r, w.step is_match s.shared = some r :=
          Worker.exists_step (of_decide_eq_false hover)
        exact exists_step_worker hw hr
      · exact fun i hi => entry_left_lt hle hi
      · exact fun t worker i w t' w' him hi hstep h => Inv.left_lt h him hi hstep
  · intro as s hrun
    refine ⟨fun it hit => ?_, fun hnot => ?_, ParallelFindAsync.length_le hle hrun⟩
    · exact agrees_of_returned
        (ParallelFindAsync.returned_spec (ParallelFindAsync.good_run hle hrun) hit)
    · rcases ParallelFindAsync.Find.exists_step is_match s.1 s.2 with ⟨it, hit⟩ | ⟨path, r, hr⟩
      · exact absurd hit (hnot it)
      · exact ⟨path, r, hr⟩

end BoostNet.ParallelFind
