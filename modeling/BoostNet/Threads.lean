/-
Families of thread states in which one thread moves: a step of thread `i` replaces
the entry of `i` in `pc : ι → κ` and leaves the others as they are. Nothing here
names a component; threads, their states and what they hold are arbitrary types.

* `forall_update`: what holds of the thread that moves, and still holds of the
  others, holds of all. `exists_update`: what some thread had some thread has.
* `Unique.update`: a resource has one holder at most, if the thread that moves takes
  none that another holds.
* `Guarded.move`, `Guarded.lock`, `Guarded.unlock`: a mutex is held by the thread that is
  in the section it guards.
* `not_transGen_self`: waits for which something falls from one to the next are in no cycle.
* `sum_update`: a quantity summed over the threads changes by what the thread that
  moves changes it.
-/
import Mathlib.Algebra.BigOperators.Group.Finset.Basic
import Mathlib.Data.Fintype.Basic
import Mathlib.Logic.Function.Basic
import Mathlib.Logic.Relation
import Mathlib.Order.Defs.PartialOrder

set_option autoImplicit false

namespace BoostNet

variable {ι κ β : Type*} [DecidableEq ι]

theorem forall_update {P : κ → Prop} {pc : ι → κ} {i : ι} {p : κ} (hp : P p)
    (hrest : ∀ j, j ≠ i → P (pc j)) : ∀ j, P (Function.update pc i p j) := by
  intro j
  by_cases hj : j = i
  · rw [hj, Function.update_self]
    exact hp
  · rw [Function.update_of_ne hj]
    exact hrest j hj

/-- The same, of what holds of each thread as the thread it is. -/
theorem forall_update_at {P : ι → κ → Prop} {pc : ι → κ} {i : ι} {p : κ} (hp : P i p)
    (hrest : ∀ j, j ≠ i → P j (pc j)) : ∀ j, P j (Function.update pc i p j) := by
  intro j
  by_cases hj : j = i
  · rw [hj, Function.update_self]
    exact hp
  · rw [Function.update_of_ne hj]
    exact hrest j hj

/-- Some thread has what some thread had, if the one that moves keeps it. -/
theorem exists_update {P : κ → Prop} {pc : ι → κ} {i : ι} {p : κ} (h : ∃ j, P (pc j))
    (hp : P (pc i) → P p) : ∃ j, P (Function.update pc i p j) := by
  obtain ⟨j, hj⟩ := h
  refine ⟨j, ?_⟩
  by_cases hji : j = i
  · rw [hji, Function.update_self]
    exact hp (hji ▸ hj)
  · rw [Function.update_of_ne hji]
    exact hj

omit [DecidableEq ι] in
/-- No two threads hold the same, as far as `f` says what they hold. -/
def Unique (f : κ → Option β) (pc : ι → κ) : Prop :=
  ∀ j j' b, f (pc j) = some b → f (pc j') = some b → j = j'

theorem Unique.update {f : κ → Option β} {pc : ι → κ} (h : Unique f pc) {i : ι} {p : κ}
    (hp : ∀ b, f p = some b → ∀ j, j ≠ i → f (pc j) ≠ some b) :
    Unique f (Function.update pc i p) := by
  intro j j' b hj hj'
  by_cases hi : j = i
  · by_cases hi' : j' = i
    · rw [hi, hi']
    · rw [hi, Function.update_self] at hj
      rw [Function.update_of_ne hi'] at hj'
      exact absurd hj' (hp b hj j' hi')
  · rw [Function.update_of_ne hi] at hj
    by_cases hi' : j' = i
    · rw [hi', Function.update_self] at hj'
      exact absurd hj (hp b hj' j hi)
    · rw [Function.update_of_ne hi'] at hj'
      exact h j j' b hj hj'

omit [DecidableEq ι] in
/-- An entry is replaced that was not `y`, by another that is not. -/
theorem update_eq_iff {f : κ → β} [DecidableEq κ] {k k' : κ} {x y : β} (hx : x ≠ y)
    (hk : f k ≠ y) : Function.update f k x k' = y ↔ f k' = y := by
  by_cases h : k' = k
  · rw [h, Function.update_self]
    exact iff_of_false hx hk
  · rw [Function.update_of_ne h]

/-! ## Mutexes -/

/-- The threads that are inside hold the mutex, and nobody else does. -/
def Guarded (inside : κ → Bool) (mutex : Option ι) (pc : ι → κ) : Prop :=
  ∀ j, inside (pc j) = true ↔ mutex = some j

section Guarded

variable {inside : κ → Bool} {mutex : Option ι} {pc : ι → κ} {i j : ι} {p : κ}

omit [DecidableEq ι] in
theorem Guarded.eq (h : Guarded inside mutex pc) (hi : inside (pc i) = true)
    (hj : inside (pc j) = true) : i = j :=
  Option.some.inj (((h i).mp hi).symm.trans ((h j).mp hj))

omit [DecidableEq ι] in
theorem Guarded.outside (h : Guarded inside mutex pc) (hi : inside (pc i) = true) (hj : j ≠ i) :
    inside (pc j) = false := by
  by_contra hne
  exact hj (h.eq (by simpa using hne) hi)

/-- A thread stays inside, or outside. -/
theorem Guarded.move (h : Guarded inside mutex pc) (hp : inside p = inside (pc i)) :
    Guarded inside mutex (Function.update pc i p) := by
  intro j
  by_cases hj : j = i
  · rw [hj, Function.update_self, hp]
    exact h i
  · rw [Function.update_of_ne hj]
    exact h j

theorem Guarded.lock (h : Guarded inside none pc) (hp : inside p = true) :
    Guarded inside (some i) (Function.update pc i p) := by
  intro j
  by_cases hj : j = i
  · rw [hj, Function.update_self]
    exact iff_of_true hp rfl
  · rw [Function.update_of_ne hj, h j]
    simp only [reduceCtorEq, Option.some.injEq, false_iff]
    exact fun heq => hj heq.symm

theorem Guarded.unlock (h : Guarded inside mutex pc) (hi : inside (pc i) = true)
    (hp : inside p = false) : Guarded inside none (Function.update pc i p) := by
  intro j
  by_cases hj : j = i
  · rw [hj, Function.update_self, hp]
    simp only [Bool.false_eq_true, reduceCtorEq]
  · rw [Function.update_of_ne hj, h.outside hi hj]
    simp only [Bool.false_eq_true, reduceCtorEq]

end Guarded

/-! ## Waits -/

omit [DecidableEq ι] in
/-- Where `rank` falls whenever the thread that is waited for waits itself, no threads wait
for each other in a cycle. -/
theorem not_transGen_self {α : Type*} [Preorder α] {waits : ι → ι → Prop} (rank : ι → α)
    (hfalls : ∀ i j k, waits i j → waits j k → rank j < rank i) (i : ι) :
    ¬ Relation.TransGen waits i i := by
  intro hcycle
  have hlt : ∀ {i j}, Relation.TransGen waits i j → ∀ k, waits j k → rank j < rank i := by
    intro i j hij
    induction hij with
    | single hij => exact fun k hjk => hfalls _ _ k hij hjk
    | tail _ hjk ih => exact fun k hk => lt_trans (hfalls _ _ k hjk hk) (ih _ hjk)
  obtain ⟨k, hik, -⟩ := Relation.TransGen.head'_iff.mp hcycle
  exact lt_irrefl _ (hlt hcycle k hik)

/-! ## Sums -/

theorem sum_update {M : Type*} [AddCommMonoid M] (f : κ → M) (pc : ι → κ) (p : κ) {i : ι}
    {I : Finset ι} (hi : i ∈ I) :
    ∑ j ∈ I, f (Function.update pc i p j) + f (pc i) = ∑ j ∈ I, f (pc j) + f p := by
  have hrest : ∑ j ∈ I.erase i, f (Function.update pc i p j) = ∑ j ∈ I.erase i, f (pc j) := by
    apply Finset.sum_congr rfl
    intro j hj
    rw [Function.update_of_ne (Finset.ne_of_mem_erase hj)]
  rw [← Finset.add_sum_erase I _ hi, ← Finset.add_sum_erase I (fun j => f (pc j)) hi, hrest,
    Function.update_self]
  ac_rfl

end BoostNet
