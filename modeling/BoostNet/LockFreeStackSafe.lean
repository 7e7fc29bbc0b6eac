/-
The lock-free stack is a stack, and deletes its nodes safely, in every interleaving of any
number of threads, with freed addresses used again.

* `stack_safe`: the CASes on `head` that succeed are a legal history of a stack, in which
  no value is returned more often than it was pushed; nobody touches a deleted node; and
  every popped node has one owner until it is deleted.
-/
import BoostNet.LockFreeStackSteps

set_option autoImplicit false

namespace BoostNet.LockFreeStack

open Heap

variable {ι A V : Type*} [DecidableEq ι] [Fintype ι] [DecidableEq A]

/-- The CASes on `head` are a legal history, each thread has returned the values that it
has popped, but the last one perhaps, and no value was returned more often than it was
pushed. -/
def Stack.Legal (s : Stack ι A V) : Prop :=
  (∃ l, Lifo s.history l) ∧ (∀ i, s.returned i <+: poppedBy i s.history) ∧
    ∑ i, (s.returned i : Multiset V) ≤ (pushed s.history : Multiset V)

variable {g : Ghost ι A} {s : Stack ι A V}

omit [DecidableEq A] in
theorem Inv.legal (h : Inv g s) : s.Legal := by
  obtain ⟨l, hl, -⟩ := h.mem.lifo
  have hpre : ∀ i, s.returned i <+: poppedBy i s.history :=
    fun i => ⟨_, (h.threads i).res.symm⟩
  exact ⟨⟨l, hl⟩, hpre, hl.returned_le hpre⟩

/-! ## The nodes -/

omit [DecidableEq ι] [Fintype ι] [DecidableEq A] in
/-- A thread uses a node that it refers to. -/
theorem Pc.refers_of_uses {p : Pc A V} {r : Ref A} (h : p.uses = some r) : p.Refers r := by
  cases p <;> simp_all [Pc.uses, Pc.Refers, Pc.new, Pc.old, Pc.held, Pc.links]

omit [DecidableEq A] in
/-- The label of a popped node says who has it. -/
theorem Inv.has_iff (h : Inv g s) {a : A} (o : Owner ι) :
    s.Has g.pending g.detached a o ↔ g.label a = .of o := by
  cases o with
  | pop i => exact ((h.threads i).old a).symm
  | to_be_deleted => exact (h.mem.pending_label a).symm
  | detached i => exact ((h.threads i).detached a).symm

omit [DecidableEq A] in
theorem Inv.owned (h : Inv g s) : s.Owned := by
  refine ⟨g.pending, g.detached, h.mem.pending, h.mem.pending_nodup,
    fun i => ⟨(h.threads i).shape, (h.threads i).nodup⟩, fun a hlive hpopped => ?_⟩
  obtain ⟨o, ho⟩ := (h.mem.popped a hlive).mp hpopped
  refine ⟨o, (h.has_iff o).mpr ho, fun o' ho' => ?_⟩
  exact Label.of.inj (((h.has_iff o').mp ho').symm.trans ho)

/-! ## The result -/

/-- **`lock_free_stack` is a correct stack with safe reclamation**, in every state of every
run. -/
theorem stack_safe (as : List (Action ι A V)) :
    (system ι A V).Along (fun s => s.Legal ∧ s.Safe ∧ s.Owned) (system ι A V).init as := by
  refine (system ι A V).along_of_always (I := fun s => ∃ g, Inv g s) (G := fun _ _ => True)
    ?_ (fun s a t h _ hstep => inv_step s a t h hstep) ⟨_, inv_init⟩ ((system ι A V).always_true as)
  rintro s ⟨g, h⟩
  exact ⟨h.legal, fun i r hr => (h.threads i).refs r (Pc.refers_of_uses hr), h.owned⟩

end BoostNet.LockFreeStack
