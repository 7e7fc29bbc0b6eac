/-
Executions of a labelled transition system given by an executable step
function, and the rules every concurrent component of this development is
verified with.

A system is a start state and a partial function `step s a`: what action `a`
does in state `s`, `none` where it is not enabled. An interleaving is then a
list of actions, and a statement "for every interleaving" is a statement about
every list. Nothing here names a component; states and actions are arbitrary
types.

The rules:

* `length_le_of_inv`, `length_le_of_measure`: every run is finite where each step decreases a
  measure. `length_le_of_cost`: some actions may add to it. `count_le`: the steps that count are
  finitely many where the others do not increase it.
* `exec_foldl`: a system that follows a function runs every list of actions.
* `exec_inv`: what the start state has and every step keeps holds after every
  run. With `exec_inv_of_always` the steps need only keep it where a side
  condition on the step holds, and the run is one all of whose steps meet it.
* `Along`: a property of every state a run passes through, not only of its last
  one. `along_of_always` is the invariant rule for it.
* `always_of_trap`: the converse. Where breaking the side condition leads into a
  set of states no step leaves, a run that ends outside that set has met the
  side condition throughout, so the condition is exact.
-/
import Mathlib.Data.List.Basic
import Mathlib.Data.List.Infix

set_option autoImplicit false

namespace BoostNet

/-- A labelled transition system with an executable, partial step function. -/
structure Lts (σ α : Type*) where
  init : σ
  step : σ → α → Option σ

namespace Lts

variable {σ α : Type*} (M : Lts σ α)

/-! ## Executions -/

/-- Run a list of actions; `none` as soon as one of them is not enabled. -/
def exec (s : σ) : List α → Option σ
  | [] => some s
  | a :: as => (M.step s a).bind fun t => exec t as

@[simp] theorem exec_nil (s : σ) : M.exec s [] = some s := rfl

@[simp] theorem exec_cons (s : σ) (a : α) (as : List α) :
    M.exec s (a :: as) = (M.step s a).bind fun t => M.exec t as := rfl

/-- A run of `a :: as` is a first step and a run of the rest. -/
theorem exec_cons_some {s u : σ} {a : α} {as : List α} :
    M.exec s (a :: as) = some u ↔ ∃ t, M.step s a = some t ∧ M.exec t as = some u := by
  rw [exec_cons, Option.bind_eq_some_iff]

/-- A run goes on where the run before it ended. -/
theorem exec_append {s t : σ} {as bs : List α} (h : M.exec s as = some t) :
    M.exec s (as ++ bs) = M.exec t bs := by
  induction as generalizing s with
  | nil =>
      rw [exec_nil, Option.some.injEq] at h
      rw [List.nil_append, h]
  | cons a as ih =>
      obtain ⟨u, hu, hrest⟩ := M.exec_cons_some.mp h
      rw [List.cons_append, exec_cons, hu, Option.bind_some, ih hrest]

/-- A run of two parts goes through a state between them. -/
theorem exec_append_some {s u : σ} {as bs : List α} :
    M.exec s (as ++ bs) = some u ↔ ∃ t, M.exec s as = some t ∧ M.exec t bs = some u := by
  induction as generalizing s with
  | nil => exact ⟨fun h => ⟨s, rfl, h⟩, fun ⟨t, ht, h⟩ => Option.some.inj ht ▸ h⟩
  | cons a as ih =>
      rw [List.cons_append, exec_cons_some]
      constructor
      · rintro ⟨t, ht, hrest⟩
        obtain ⟨w, hw, hlast⟩ := ih.mp hrest
        exact ⟨w, M.exec_cons_some.mpr ⟨t, ht, hw⟩, hlast⟩
      · rintro ⟨w, hw, hlast⟩
        obtain ⟨t, ht, hrest⟩ := M.exec_cons_some.mp hw
        exact ⟨t, ht, ih.mpr ⟨w, hrest, hlast⟩⟩

/-- A system that follows a function which is defined everywhere runs every list. -/
theorem exec_foldl {τ : Type*} {R : σ → τ → Prop} {f : τ → α → τ}
    (hstep : ∀ s t a, R s t → ∃ u, M.step s a = some u ∧ R u (f t a)) {s : σ} {t : τ} (h : R s t)
    (as : List α) : ∃ u, M.exec s as = some u ∧ R u (as.foldl f t) := by
  induction as generalizing s t with
  | nil => exact ⟨s, rfl, h⟩
  | cons a as ih =>
      obtain ⟨u, hu, hR⟩ := hstep s t a h
      obtain ⟨w, hw, hlast⟩ := ih hR
      exact ⟨w, M.exec_cons_some.mpr ⟨u, hu, hw⟩, hlast⟩

/-- Some run leads from `s` to `t`. -/
def Reaches (s t : σ) : Prop := ∃ as, M.exec s as = some t

/-- Every state is reached from itself by the empty run. -/
theorem Reaches.refl (s : σ) : M.Reaches s s := ⟨[], rfl⟩

variable {M} in
/-- Runs may be put one after the other. -/
theorem Reaches.trans {s t u : σ} (h : M.Reaches s t) (h' : M.Reaches t u) : M.Reaches s u := by
  obtain ⟨as, has⟩ := h
  obtain ⟨bs, hbs⟩ := h'
  exact ⟨as ++ bs, (M.exec_append has).trans hbs⟩

variable {M} in
/-- A step is a run. -/
theorem Reaches.of_step {s t : σ} {a : α} (h : M.step s a = some t) : M.Reaches s t :=
  ⟨[a], by rw [exec_cons, h]; rfl⟩

/-- No action is enabled. -/
def Stuck (s : σ) : Prop := ∀ a, M.step s a = none

/-- **The termination rule.** A run is no longer than a measure that every step decreases, where
every step keeps what the decrease rests on. -/
theorem length_le_of_inv {P : σ → Prop} (μ : σ → Nat)
    (hstep : ∀ s a t, P s → M.step s a = some t → P t ∧ μ t < μ s)
    {s u : σ} {as : List α} (hs : P s) (h : M.exec s as = some u) : as.length + μ u ≤ μ s := by
  induction as generalizing s with
  | nil =>
      rw [exec_nil, Option.some.injEq] at h
      rw [h, List.length_nil, Nat.zero_add]
  | cons a as ih =>
      obtain ⟨t, ht, hrest⟩ := M.exec_cons_some.mp h
      obtain ⟨hkeep, hlt⟩ := hstep s a t hs ht
      have hle := ih hkeep hrest
      rw [List.length_cons]
      omega

/-- When every step takes from a measure, no run is longer than the measure at its start. -/
theorem length_le_of_measure {μ : σ → Nat} (hstep : ∀ s a t, M.step s a = some t → μ t < μ s)
    {s u : σ} {as : List α} (h : M.exec s as = some u) : as.length + μ u ≤ μ s :=
  M.length_le_of_inv μ (fun s a t _ ht => ⟨trivial, hstep s a t ht⟩) trivial h

/-- **The rule for one party.** It does no more steps in a run than a measure says that each of
its steps decreases and the steps of the others, `Q` of them, do not increase. -/
theorem countP_le_of_inv {P : σ → Prop} {Q : α → Prop} (μ : σ → Nat) (own : α → Bool)
    (hown : ∀ s a t, P s → Q a → M.step s a = some t → own a = true → P t ∧ μ t < μ s)
    (hother : ∀ s a t, P s → Q a → M.step s a = some t → own a = false → P t ∧ μ t ≤ μ s)
    {s u : σ} {as : List α} (hs : P s) (hQ : ∀ a ∈ as, Q a) (h : M.exec s as = some u) :
    as.countP own + μ u ≤ μ s := by
  induction as generalizing s with
  | nil =>
      rw [exec_nil, Option.some.injEq] at h
      rw [h, List.countP_nil, Nat.zero_add]
  | cons a as ih =>
      obtain ⟨t, ht, hrest⟩ := M.exec_cons_some.mp h
      obtain ⟨ha, hQ⟩ := List.forall_mem_cons.mp hQ
      cases howna : own a with
      | true =>
          obtain ⟨hkeep, hlt⟩ := hown s a t hs ha ht howna
          have hle := ih hkeep hQ hrest
          rw [List.countP_cons_of_pos howna]
          omega
      | false =>
          obtain ⟨hkeep, hle⟩ := hother s a t hs ha ht howna
          have hle' := ih hkeep hQ hrest
          rw [List.countP_cons_of_neg (by simp [howna])]
          omega

/-- What the actions of a run cost together. -/
def total (cost : α → Nat) : List α → Nat
  | [] => 0
  | a :: as => cost a + total cost as

/-- **The amortized rule.** A run is no longer than a measure that every step decreases, and what
its actions add to it. -/
theorem length_le_of_cost {P : σ → Prop} (μ : σ → Nat) (cost : α → Nat)
    (hstep : ∀ s a t, P s → M.step s a = some t → P t ∧ μ t < μ s + cost a)
    {s u : σ} {as : List α} (hs : P s) (h : M.exec s as = some u) :
    as.length + μ u ≤ μ s + total cost as := by
  induction as generalizing s with
  | nil =>
      rw [exec_nil, Option.some.injEq] at h
      rw [h, List.length_nil, Nat.zero_add]
      exact Nat.le_add_right _ _
  | cons a as ih =>
      obtain ⟨t, ht, hrest⟩ := M.exec_cons_some.mp h
      obtain ⟨hkeep, hlt⟩ := hstep s a t hs ht
      have hle := ih hkeep hrest
      rw [List.length_cons, total]
      omega

/-- How many steps of a run `G` counts. Past the end of a run there are none. -/
def count (G : σ → α → Prop) [∀ s a, Decidable (G s a)] (s : σ) : List α → Nat
  | [] => 0
  | a :: as =>
      match M.step s a with
      | none => 0
      | some t => (if G s a then 1 else 0) + count G t as

/-- **The progress rule.** Where the steps that count decrease a measure and no other increases
it, there are no more of them in a run than the measure says at its start. -/
theorem count_le {G : σ → α → Prop} [∀ s a, Decidable (G s a)] (μ : σ → Nat)
    (hle : ∀ s a t, M.step s a = some t → μ t ≤ μ s)
    (hlt : ∀ s a t, G s a → M.step s a = some t → μ t < μ s) (s : σ) (as : List α) :
    M.count G s as ≤ μ s := by
  induction as generalizing s with
  | nil => exact Nat.zero_le _
  | cons a as ih =>
      unfold count
      cases hstep : M.step s a with
      | none => exact Nat.zero_le _
      | some t =>
          have hrest := ih t
          show (if G s a then 1 else 0) + M.count G t as ≤ μ s
          split
          · next hG =>
            have hless := hlt s a t hG hstep
            omega
          · have hnot := hle s a t hstep
            omega

/-! ## The invariant rule -/

/-- **The invariant rule.** What every step keeps, every run keeps. -/
theorem exec_inv {P : σ → Prop}
    (hstep : ∀ s a t, P s → M.step s a = some t → P t)
    {s u : σ} {as : List α} (hs : P s) (h : M.exec s as = some u) : P u := by
  induction as generalizing s with
  | nil =>
      rw [exec_nil, Option.some.injEq] at h
      exact h ▸ hs
  | cons a as ih =>
      obtain ⟨t, ht, hrest⟩ := M.exec_cons_some.mp h
      exact ih (hstep s a t hs ht) hrest

/-! ## Runs all of whose steps meet a side condition -/

/-- Every step of the run of `as` from `s` is taken in a state, and with an
action, that meets `G`. Past the end of a run nothing is required. -/
def Always (G : σ → α → Prop) (s : σ) : List α → Prop
  | [] => True
  | a :: as => G s a ∧ ∀ t, M.step s a = some t → Always G t as

theorem always_cons {G : σ → α → Prop} {s : σ} {a : α} {as : List α} :
    M.Always G s (a :: as) ↔ G s a ∧ ∀ t, M.step s a = some t → M.Always G t as := Iff.rfl

/-- A condition that is always true holds along every run. -/
theorem always_true {s : σ} (as : List α) : M.Always (fun _ _ => True) s as := by
  induction as generalizing s with
  | nil => trivial
  | cons a as ih => exact ⟨trivial, fun t _ => ih⟩

/-- So does one that asks something of the actions only. -/
theorem always_of_forall {G : σ → α → Prop} {as : List α} (hG : ∀ a ∈ as, ∀ s, G s a) (s : σ) :
    M.Always G s as := by
  induction as generalizing s with
  | nil => trivial
  | cons a as ih =>
      exact ⟨hG a List.mem_cons_self s,
        fun t _ => ih (fun b hb => hG b (List.mem_cons_of_mem a hb)) t⟩

/-- A decidable side condition is decidable along a list of actions. -/
instance decidableAlways (G : σ → α → Prop) [∀ s a, Decidable (G s a)] :
    (s : σ) → (as : List α) → Decidable (M.Always G s as)
  | _, [] => isTrue trivial
  | s, a :: as =>
      match hs : M.step s a with
      | none => decidable_of_iff (G s a) (by simp [always_cons, hs])
      | some t =>
          have : Decidable (M.Always G t as) := decidableAlways G t as
          decidable_of_iff (G s a ∧ M.Always G t as) (by simp [always_cons, hs])

/-- The invariant rule for a run whose steps all meet the side condition. -/
theorem exec_inv_of_always {P : σ → Prop} {G : σ → α → Prop}
    (hstep : ∀ s a t, P s → G s a → M.step s a = some t → P t)
    {s u : σ} {as : List α} (hs : P s) (hG : M.Always G s as)
    (h : M.exec s as = some u) : P u := by
  induction as generalizing s with
  | nil =>
      rw [exec_nil, Option.some.injEq] at h
      exact h ▸ hs
  | cons a as ih =>
      obtain ⟨t, ht, hrest⟩ := M.exec_cons_some.mp h
      exact ih (hstep s a t hs hG.1 ht) (hG.2 t ht) hrest

/-- A run whose steps meet `G` meets `H` too, if an invariant `I` that such steps keep
makes them meet it. -/
theorem always_of_always {I : σ → Prop} {G H : σ → α → Prop}
    (hstep : ∀ s a t, I s → G s a → M.step s a = some t → H s a ∧ I t)
    {s u : σ} {as : List α} (hs : I s) (hG : M.Always G s as) (hrun : M.exec s as = some u) :
    M.Always H s as := by
  induction as generalizing s with
  | nil => trivial
  | cons a as ih =>
      obtain ⟨t, ht, hrest⟩ := M.exec_cons_some.mp hrun
      refine ⟨(hstep s a t hs hG.1 ht).1, fun t' ht' => ?_⟩
      obtain rfl : t = t' := Option.some.inj (ht.symm.trans ht')
      exact ih (hstep s a t hs hG.1 ht).2 (hG.2 t ht) hrest

/-! ## Properties of every state along a run -/

/-- `P` holds in every state the run of `as` from `s` passes through, its first
and its last included. -/
def Along (P : σ → Prop) (s : σ) : List α → Prop
  | [] => P s
  | a :: as => P s ∧ ∀ t, M.step s a = some t → Along P t as

@[simp] theorem along_nil (P : σ → Prop) (s : σ) : M.Along P s [] ↔ P s := Iff.rfl

theorem along_cons {P : σ → Prop} {s : σ} {a : α} {as : List α} :
    M.Along P s (a :: as) ↔ P s ∧ ∀ t, M.step s a = some t → M.Along P t as := Iff.rfl

/-- Along a run means in the state each of its prefixes reaches. -/
theorem along_iff_prefix {P : σ → Prop} {s : σ} {as : List α} :
    M.Along P s as ↔ ∀ pre, pre <+: as → ∀ t, M.exec s pre = some t → P t := by
  induction as generalizing s with
  | nil =>
      rw [along_nil]
      constructor
      · intro h pre hpre t ht
        rw [List.prefix_nil.mp hpre, exec_nil, Option.some.injEq] at ht
        exact ht ▸ h
      · intro h
        exact h [] List.nil_prefix s rfl
  | cons a as ih =>
      rw [along_cons]
      constructor
      · rintro ⟨hs, hrest⟩ pre hpre t ht
        cases pre with
        | nil =>
            rw [exec_nil, Option.some.injEq] at ht
            exact ht ▸ hs
        | cons b pre =>
            obtain ⟨rfl, hpre'⟩ := List.cons_prefix_cons.mp hpre
            obtain ⟨u, hu, hrun⟩ := M.exec_cons_some.mp ht
            exact ih.mp (hrest u hu) pre hpre' t hrun
      · intro h
        refine ⟨h [] List.nil_prefix s rfl, fun u hu => ih.mpr ?_⟩
        intro pre hpre t ht
        refine h (a :: pre) (List.cons_prefix_cons.mpr ⟨rfl, hpre⟩) t ?_
        exact M.exec_cons_some.mpr ⟨u, hu, ht⟩

/-- The last state of a run has what holds along it. -/
theorem Along.last {P : σ → Prop} {s u : σ} {as : List α} (h : M.Along P s as)
    (hrun : M.exec s as = some u) : P u :=
  M.along_iff_prefix.mp h as (List.prefix_refl as) u hrun

/-- **The invariant rule along a run.** An invariant `I` that good steps keep
and that implies `P` gives `P` in every state a good run passes through. -/
theorem along_of_always {P I : σ → Prop} {G : σ → α → Prop}
    (himp : ∀ s, I s → P s)
    (hstep : ∀ s a t, I s → G s a → M.step s a = some t → I t)
    {s : σ} {as : List α} (hs : I s) (hG : M.Always G s as) : M.Along P s as := by
  induction as generalizing s with
  | nil => exact himp s hs
  | cons a as ih =>
      exact ⟨himp s hs, fun t ht => ih (hstep s a t hs hG.1 ht) (hG.2 t ht)⟩

/-- The invariant rule along a run whose steps need no side condition. -/
theorem along_of_inv {P I : σ → Prop} (himp : ∀ s, I s → P s)
    (hstep : ∀ s a t, I s → M.step s a = some t → I t) {s : σ} {as : List α} (hs : I s) :
    M.Along P s as :=
  M.along_of_always himp (fun s a t h _ => hstep s a t h) hs (M.always_true as)

/-- **The trap rule**, the converse of the invariant rule for good runs. Where a
step that breaks the side condition `G` leads into a trap `T` that no step leaves, a
run that ends outside the trap has met the side condition at every step. Here the
steps are those that meet another side condition `H`. -/
theorem always_of_trap_of_always {I T : σ → Prop} {G H : σ → α → Prop}
    (hgood : ∀ s a t, I s → G s a → M.step s a = some t → I t)
    (hbad : ∀ s a t, I s → ¬ G s a → H s a → M.step s a = some t → T t)
    (htrap : ∀ s a t, T s → H s a → M.step s a = some t → T t)
    {s u : σ} {as : List α} (hs : I s) (hH : M.Always H s as) (hrun : M.exec s as = some u)
    (hu : ¬ T u) : M.Always G s as := by
  induction as generalizing s with
  | nil => trivial
  | cons a as ih =>
      obtain ⟨t, ht, hrest⟩ := M.exec_cons_some.mp hrun
      have hG : G s a := by
        by_contra hG
        exact hu (M.exec_inv_of_always htrap (hbad s a t hs hG hH.1 ht) (hH.2 t ht) hrest)
      refine ⟨hG, fun t' ht' => ?_⟩
      obtain rfl : t = t' := Option.some.inj (ht.symm.trans ht')
      exact ih (hgood s a t hs hG ht) (hH.2 t ht) hrest

/-- The trap rule where every step counts. -/
theorem always_of_trap {I T : σ → Prop} {G : σ → α → Prop}
    (hgood : ∀ s a t, I s → G s a → M.step s a = some t → I t)
    (hbad : ∀ s a t, I s → ¬ G s a → M.step s a = some t → T t)
    (htrap : ∀ s a t, T s → M.step s a = some t → T t)
    {s u : σ} {as : List α} (hs : I s) (hrun : M.exec s as = some u) (hu : ¬ T u) :
    M.Always G s as :=
  M.always_of_trap_of_always (H := fun _ _ => True) hgood
    (fun s a t hI hG _ => hbad s a t hI hG) (fun s a t hT _ => htrap s a t hT) hs
    (M.always_true as) hrun hu

end Lts

end BoostNet
