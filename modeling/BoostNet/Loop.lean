/-
Loops of imperative code: `while_do cond body fuel s` runs `while (cond) body` from `s`.
A test or a pass may fail (an access out of bounds), and then the loop fails. `fuel` bounds
the passes; a loop that uses it up fails as well, so that a result is one the loop does
reach.

* `while_do_total`: an invariant and a variant that each pass lowers give a result, with
  any fuel above the variant.
* `while_do_never`: an invariant under which the test holds keeps the loop running.
* `while_do_sim`: a loop whose tests and passes follow those of another.
-/
import Mathlib.Data.Option.Basic

set_option autoImplicit false

namespace BoostNet

variable {σ τ : Type*}

/-- `while (cond) body`. -/
def while_do (cond : σ → Option Bool) (body : σ → Option σ) : Nat → σ → Option σ
  | 0, _ => none
  | fuel + 1, s =>
      (cond s).bind fun b => if b then (body s).bind (while_do cond body fuel) else some s

section Rules

variable {cond : σ → Option Bool} {body : σ → Option σ}

theorem while_do_exit {s : σ} (hcond : cond s = some false) (fuel : Nat) :
    while_do cond body (fuel + 1) s = some s := by
  simp [while_do, hcond]

theorem while_do_pass {s t : σ} (hcond : cond s = some true) (hbody : body s = some t)
    (fuel : Nat) : while_do cond body (fuel + 1) s = while_do cond body fuel t := by
  simp [while_do, hcond, hbody]

/-- **Total correctness.** From a state of the invariant the loop is left in a state of
`Post`, with any fuel above the variant. -/
theorem while_do_total (Inv Post : σ → Prop) (variant : σ → Nat)
    (hpass : ∀ s, Inv s → (cond s = some false ∧ Post s) ∨
      (cond s = some true ∧ ∃ t, body s = some t ∧ Inv t ∧ variant t < variant s))
    {s : σ} (hinv : Inv s) {fuel : Nat} (hfuel : variant s < fuel) :
    ∃ t, while_do cond body fuel s = some t ∧ Post t := by
  induction fuel generalizing s with
  | zero => omega
  | succ fuel ih =>
      rcases hpass s hinv with ⟨hcond, hpost⟩ | ⟨hcond, t, hbody, hinv', hlt⟩
      · exact ⟨s, while_do_exit hcond fuel, hpost⟩
      · obtain ⟨u, hu, hpost⟩ := ih hinv' (by omega)
        exact ⟨u, by rw [while_do_pass hcond hbody, hu], hpost⟩

/-- **Divergence.** A loop that stays in states whose test holds is never left. -/
theorem while_do_never (Inv : σ → Prop)
    (hpass : ∀ s, Inv s → cond s = some true ∧ ∀ t, body s = some t → Inv t) {s : σ}
    (hinv : Inv s) (fuel : Nat) : while_do cond body fuel s = none := by
  induction fuel generalizing s with
  | zero => rfl
  | succ fuel ih =>
      obtain ⟨hcond, hkeep⟩ := hpass s hinv
      cases hbody : body s with
      | none => simp [while_do, hcond, hbody]
      | some t => rw [while_do_pass hcond hbody, ih (hkeep t hbody)]

/-- A loop that does with `f s` what this one does with `s`. -/
theorem while_do_sim {cond' : τ → Option Bool} {body' : τ → Option τ} (f : σ → τ)
    (hcond : ∀ s b, cond s = some b → cond' (f s) = some b)
    (hbody : ∀ s t, body s = some t → body' (f s) = some (f t))
    {fuel : Nat} {s t : σ} (h : while_do cond body fuel s = some t) :
    while_do cond' body' fuel (f s) = some (f t) := by
  induction fuel generalizing s with
  | zero => simp [while_do] at h
  | succ fuel ih =>
      cases hc : cond s with
      | none => simp [while_do, hc] at h
      | some b =>
          cases b with
          | false =>
              rw [while_do_exit hc, Option.some.injEq] at h
              rw [← h, while_do_exit (hcond s false hc)]
          | true =>
              cases hb : body s with
              | none => simp [while_do, hc, hb] at h
              | some u =>
                  rw [while_do_pass hc hb] at h
                  rw [while_do_pass (hcond s true hc) (hbody s u hb)]
                  exact ih h

end Rules

end BoostNet
