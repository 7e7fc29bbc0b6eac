/-
The stacks with split reference counts are stacks, and delete every node that they have popped
once, in every interleaving of any number of threads, with freed addresses used again.

* `split_count_safe`: the CASes on `head` that succeed are a legal history of a stack, in which
  no value is returned more often than it was pushed; nobody touches a deleted node; and what was
  popped is deleted, once, when all operations have finished.
-/
import BoostNet.RefCountStackSteps

set_option autoImplicit false

namespace BoostNet.RefCountStack

open Heap
open LockFreeStack (Ev Lifo pushed poppedBy)

variable {ι A V : Type*} [DecidableEq A] [DecidableEq ι] [Fintype ι]

/-- The CASes on `head` are a legal history, each thread has returned the values that it has
popped, but the last one perhaps, and no value was returned more often than it was pushed. -/
def Stack.Legal (s : Stack ι A V) : Prop :=
  (∃ l, Lifo s.history l) ∧ (∀ i, s.returned i <+: poppedBy i s.history) ∧
    ∑ i, (s.returned i : Multiset V) ≤ (pushed s.history : Multiset V)

variable {stack : List A} {ext : A → Int} {s : Stack ι A V}

theorem Inv.legal (h : Inv stack ext s) : s.Legal := by
  obtain ⟨l, hl, -⟩ := h.mem.lifo
  have hpre : ∀ i, s.returned i <+: poppedBy i s.history :=
    fun i => ⟨_, (h.threads i).res.symm⟩
  exact ⟨⟨l, hl⟩, hpre, hl.returned_le hpre⟩

omit [DecidableEq A] [DecidableEq ι] [Fintype ι] in
/-- A thread uses its own node, or one that it has a reference to. -/
theorem Pc.own_or_held {p : Pc A V} {r : Ref A} (h : p.uses = some r) :
    p.own = some r ∨ p.held = some r := by
  cases p <;> first | exact Or.inl h | exact Or.inr h

theorem Inv.safe (h : Inv stack ext s) : s.Safe := by
  intro i r hr
  rcases Pc.own_or_held hr with hown | hheld
  · exact (h.threads i).own_valid r hown
  · exact (h.threads i).held_valid r hheld

/-- When nobody does anything, what was popped has been deleted. -/
theorem Inv.deleted_of_idle (h : Inv stack ext s) (hidle : ∀ i, s.pc i = .idle) {r : Ref A}
    (hr : r ∈ s.popped) : r ∈ s.deleted := by
  by_contra hd
  have hvalid := h.log.there r hr hd
  have hout : r.addr ∉ stack := fun hmem =>
    h.mem.not_popped r.addr hmem (by rwa [hvalid.ref_eq])
  have hnone : ∀ j, (s.pc j).owns ≠ some r.addr := fun j => by
    rw [hidle j]
    rintro ⟨⟩
  obtain ⟨hext, hpos, -⟩ := h.left r.addr hvalid.1 hout hnone
  have hcount := h.count r.addr hvalid.1
  have hrefs : ∑ j, (s.pc j).refs r.addr = 0 := by
    refine Finset.sum_eq_zero fun j _ => Pc.refs_of_ne ?_
    rw [hidle j]
    rintro ⟨⟩
  omega

theorem Inv.reclaimed (h : Inv stack ext s) : s.Reclaimed where
  popped_once := h.log.once
  deleted_once := h.log.deleted_once
  deleted_popped := h.log.sub
  finished := fun hidle => (List.perm_ext_iff_of_nodup h.log.deleted_once h.log.once).mpr
    fun _ => ⟨fun hr => h.log.sub hr, h.deleted_of_idle hidle⟩

/-- **`ref_count_stack` and `single_ref_stack` are correct stacks with exact reclamation**, in
every state of every run. -/
theorem split_count_safe (kind : Kind) (as : List (Action ι A V)) :
    (system kind ι A V).Along (fun s => s.Legal ∧ s.Safe ∧ s.Reclaimed)
      (system kind ι A V).init as := by
  refine (system kind ι A V).along_of_inv (I := fun s => ∃ stack ext, Inv stack ext s) ?_ inv_step
    ⟨_, _, inv_init⟩
  rintro s ⟨stack, ext, h⟩
  exact ⟨h.legal, h.safe, h.reclaimed⟩

end BoostNet.RefCountStack
