/-
Histories: a list to which every step adds at the end, and what holds of each entry and the
list before it. Nothing here names a component.

* `forall_split_append`: an entry is added that has what is to hold.
-/
import Mathlib.Data.List.Basic

set_option autoImplicit false

namespace BoostNet

variable {α : Type*} {P : List α → α → Prop} {log : List α} {e : α}

theorem forall_split_nil : ∀ before e' later, ([] : List α) = before ++ e' :: later → P before e' :=
  fun _ _ _ heq => absurd heq.symm (List.append_ne_nil_of_right_ne_nil _ (List.cons_ne_nil _ _))

/-- Each entry has `P` with what was before it, if it had, and the new one has. -/
theorem forall_split_append (h : ∀ before e' later, log = before ++ e' :: later → P before e')
    (he : P log e) : ∀ before e' later, log ++ [e] = before ++ e' :: later → P before e' := by
  intro before e' later heq
  rcases List.eq_nil_or_concat later with rfl | ⟨later, last, rfl⟩
  · obtain ⟨rfl, hlast⟩ := List.append_inj' heq rfl
    cases hlast
    exact he
  · rw [List.concat_eq_append, ← List.cons_append, ← List.append_assoc] at heq
    exact h before e' later (List.append_inj' heq rfl).1

end BoostNet
