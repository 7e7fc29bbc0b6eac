/-
Condition variables, for a family of thread states `pc : ι → κ`. Nothing here names a
component; threads and their states are arbitrary types.

`wake` says which states are blocked in a wait: `wake p = some q` if a thread at `p` is
blocked and goes on at `q` once it is woken. `notify_one` wakes one blocked thread, any
one, and `notify_all` wakes all; a notification that finds no thread blocked has no
effect and is not remembered. That is where wakeups get lost: a thread that has found
its predicate false, and is about to block, does not see a notification that comes
before it blocks.

`Covered late pending ready pc` is the invariant against that. `late` are the states in
which a thread will not look at the predicate again before it sleeps, the blocked ones
among them; `pending` are those in which a thread has still to notify. As long as some
thread is late, the predicate is false or a notification is to come.

* `Covered.update`: the moves that keep it.
* `Covered.notified`: a notification keeps it if it is not the last one, or wakes every
  thread that is late.
-/
import Mathlib.Data.Fintype.Basic
import Mathlib.Logic.Function.Basic

set_option autoImplicit false

namespace BoostNet

variable {ι κ : Type*}

/-! ## Notifications -/

/-- Every blocked thread is woken. -/
def notifyAll (wake : κ → Option κ) (pc : ι → κ) : ι → κ := fun j => (wake (pc j)).getD (pc j)

/-- A notification wakes the thread `target`, or no thread, if none is blocked. -/
def notifyOne [Fintype ι] [DecidableEq ι] (wake : κ → Option κ) (pc : ι → κ) :
    Option ι → Option (ι → κ)
  | some j => (wake (pc j)).map (Function.update pc j)
  | none => if ∀ j, (wake (pc j)).isNone then some pc else none

variable {wake : κ → Option κ} {pc pc' : ι → κ}

/-- From `pc` to `pc'` blocked threads have been woken, all of those in `reached` among
them. -/
def Notified (wake : κ → Option κ) (reached : ι → Prop) (pc pc' : ι → κ) : Prop :=
  ∀ j, wake (pc j) = some (pc' j) ∨ pc' j = pc j ∧ (reached j → wake (pc j) = none)

theorem notified_all (wake : κ → Option κ) (pc : ι → κ) :
    Notified wake (fun _ => True) pc (notifyAll wake pc) := by
  intro j
  cases h : wake (pc j) with
  | none => exact Or.inr ⟨by rw [notifyAll, h]; rfl, fun _ => rfl⟩
  | some q => exact Or.inl (by rw [notifyAll, h]; rfl)

theorem notified_one [Fintype ι] [DecidableEq ι] {target : Option ι}
    (h : notifyOne wake pc target = some pc') :
    Notified wake (fun j => target = some j) pc pc' := by
  intro j
  cases target with
  | none =>
      obtain ⟨hnone, h⟩ := Option.ite_none_right_eq_some.mp h
      exact Or.inr ⟨congrFun (Option.some.inj h).symm j, nofun⟩
  | some j' =>
      obtain ⟨q, hq, rfl⟩ := Option.map_eq_some_iff.mp h
      by_cases hj : j = j'
      · rw [hj, Function.update_self]
        exact Or.inl hq
      · rw [Function.update_of_ne hj]
        exact Or.inr ⟨rfl, fun hj' => absurd (Option.some.inj hj').symm hj⟩

/-! ## No lost wakeups -/

/-- As long as a thread is late, the predicate is false or a notification is to come. -/
def Covered (late pending : κ → Prop) (ready : Prop) (pc : ι → κ) : Prop :=
  ∀ j, late (pc j) → ready → ∃ k, pending (pc k)

variable {late pending : κ → Prop} {ready ready' : Prop}

/-- Nobody is late. -/
theorem Covered.of_none (h : ∀ j, ¬ late (pc j)) : Covered late pending ready pc :=
  fun j hj => absurd hj (h j)

variable [DecidableEq ι]

/-- The move of thread `i` to `p`: it is late only if it was, or the predicate is false;
if it makes the predicate true it has still to notify, and if it had still to notify it
has yet. -/
theorem Covered.update (h : Covered late pending ready pc) {i : ι} {p : κ}
    (hlate : late p → late (pc i) ∨ ¬ ready') (hready : ready' → ready ∨ pending p)
    (hpending : pending (pc i) → pending p) :
    Covered late pending ready' (Function.update pc i p) := by
  intro j hj hr
  have hlate' : ∃ j, late (pc j) := by
    by_cases hji : j = i
    · rw [hji, Function.update_self] at hj
      exact ⟨i, (hlate hj).resolve_right (absurd hr)⟩
    · rw [Function.update_of_ne hji] at hj
      exact ⟨j, hj⟩
  obtain ⟨j', hj'⟩ := hlate'
  rcases hready hr with hr' | hp
  · obtain ⟨k, hk⟩ := h j' hj' hr'
    by_cases hki : k = i
    · refine ⟨i, ?_⟩
      rw [Function.update_self]
      exact hpending (hki ▸ hk)
    · refine ⟨k, ?_⟩
      rw [Function.update_of_ne hki]
      exact hk
  · refine ⟨i, ?_⟩
    rw [Function.update_self]
    exact hp

/-- Thread `i` notifies the threads in `reached`, and goes to `p`: another notification is
to come, or all that were late are woken. -/
theorem Covered.notified {reached : ι → Prop} (h : Notified wake reached pc pc') {i : ι} {p : κ}
    (hwake : ∀ q q', wake q = some q' → ¬ pending q ∧ ¬ late q') (hp : ¬ late p)
    (hlast : (∀ j, j ≠ i → ¬ pending (pc j)) → ready →
      ∀ j, late (pc j) → (wake (pc j)).isSome = true ∧ reached j) :
    Covered late pending ready (Function.update pc' i p) := by
  intro j hj hr
  by_cases hother : ∃ k, k ≠ i ∧ pending (pc k)
  · obtain ⟨k, hki, hk⟩ := hother
    refine ⟨k, ?_⟩
    rw [Function.update_of_ne hki]
    rcases h k with hwoken | ⟨hsame, -⟩
    · exact absurd hk (hwake _ _ hwoken).1
    · rw [hsame]
      exact hk
  · push Not at hother
    by_cases hji : j = i
    · rw [hji, Function.update_self] at hj
      exact absurd hj hp
    · rw [Function.update_of_ne hji] at hj
      rcases h j with hwoken | ⟨hsame, hnone⟩
      · exact absurd hj (hwake _ _ hwoken).2
      · rw [hsame] at hj
        obtain ⟨hsome, hreached⟩ := hlast hother hr j hj
        rw [hnone hreached] at hsome
        exact absurd hsome nofun

end BoostNet
