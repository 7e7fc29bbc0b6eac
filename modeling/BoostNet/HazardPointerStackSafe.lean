/-
`hazard_pointer_stack` is a stack, and deletes its nodes safely, in every interleaving of any
number of threads, with freed addresses used again.

* `hazard_pointer_safe`: the CASes on `head` that succeed are a legal history of a stack, in which
  no value is returned more often than it was pushed; nobody touches what has been deleted; every
  popped node is deleted once, and has one owner until then; and no `pop` throws while there are
  not more threads than slots.
-/
import BoostNet.HazardPointerStackSteps

set_option autoImplicit false

namespace BoostNet.HazardPointerStack

open Heap
open LockFreeStack (Ev Lifo pushed poppedBy)

variable {ι A B V : Type*} [DecidableEq ι] [Fintype ι] [DecidableEq A] [DecidableEq B]
  {g : Ghost ι A B} {s t : Stack ι A B V} {i : ι}

/-! ## The step lemma -/

/-- The next step of a thread keeps the invariant. -/
theorem inv_stepThread (h : Inv g s) (hstep : s.stepThread i = some t) : ∃ g', Inv g' t := by
  unfold Stack.stepThread at hstep
  cases hpc : s.pc i <;> simp only [hpc, reduceCtorEq, Option.some.injEq] at hstep
  case push_next v r =>
    -- push
    subst hstep
    exact ⟨g, h.push_store hpc (Or.inl rfl)⟩
  case push_cas v r =>
    split at hstep <;> obtain rfl := Option.some.inj hstep
    case isTrue hhead => exact ⟨_, h.push_cas hpc hhead⟩
    case isFalse => exact ⟨g, h.push_store hpc (Or.inr rfl)⟩
  case bind k =>
    -- hp_owner: the slots are tried one after the other
    split at hstep
    case isTrue hid =>
      obtain rfl := Option.some.inj hstep
      exact ⟨g, h.bind_slot hpc hid⟩
    case isFalse hid =>
      cases hnext : k.next <;> simp only [hnext, Option.some.injEq] at hstep <;> subst hstep
      case none => exact ⟨g, h.bind_throw hpc hid hnext⟩
      case some k' => exact ⟨g, h.bind_next hpc hid hnext⟩
  case unbind_pointer m =>
    -- ~hp_owner
    subst hstep
    exact ⟨g, h.set_pointer (o := none) hpc rfl rfl rfl (by rintro m' ⟨⟩; rfl) (by rintro k ⟨⟩)
      (by rintro m' o ⟨⟩) rfl (fun _ _ => rfl) rfl⟩
  case unbind_id m =>
    subst hstep
    exact ⟨g, h.unbind_id hpc⟩
  case load_head m =>
    -- pop: the head is read, published, and read again
    subst hstep
    exact ⟨g, h.loop_step hpc rfl rfl (fun _ => id) (by rintro k ⟨⟩) (by rintro m' o ⟨⟩)
      (by rintro m' r ⟨⟩) (by rintro m' r n ⟨⟩) rfl (by rintro ⟨⟩)⟩
  case publish m o =>
    subst hstep
    exact ⟨g, h.set_pointer (o := o) hpc rfl rfl rfl (by rintro m' ⟨⟩; rfl) (by rintro k ⟨⟩)
      (by rintro m' o' ⟨⟩; exact ⟨rfl, rfl⟩) rfl (fun _ _ => rfl) rfl⟩
  case recheck m o =>
    split at hstep
    case isTrue hhead =>
      cases o <;> obtain rfl := Option.some.inj hstep
      case none =>
        exact ⟨g, h.loop_step hpc rfl rfl (fun _ => id) (by rintro k ⟨⟩) (by rintro m' o ⟨⟩)
          (by rintro m' r ⟨⟩) (by rintro m' r n ⟨⟩) rfl (by rintro ⟨⟩)⟩
      case some a => exact ⟨g, h.recheck hpc hhead⟩
    case isFalse =>
      obtain rfl := Option.some.inj hstep
      exact ⟨g, h.loop_step hpc rfl rfl (fun _ => id) (by rintro k ⟨⟩) (by rintro m' o ⟨⟩)
        (by rintro m' r ⟨⟩) (by rintro m' r n ⟨⟩) rfl (by rintro ⟨⟩)⟩
  case read_next m r =>
    subst hstep
    exact ⟨g, h.loop_step hpc rfl rfl (fun _ => id) (by rintro k ⟨⟩) (fun _ _ => id)
      (fun _ _ => Or.inl) (by rintro m' r n ⟨⟩; rfl) rfl (by rintro ⟨⟩)⟩
  case cas_head m r n =>
    -- the CAS makes the node this thread's own
    split at hstep <;> obtain rfl := Option.some.inj hstep
    case isTrue hhead =>
      obtain ⟨stack', h'⟩ := h.pop_cas hpc hhead
      exact ⟨_, h'⟩
    case isFalse =>
      exact ⟨g, h.loop_step hpc rfl rfl (fun _ => id) (by rintro k ⟨⟩) (by rintro m' o ⟨⟩)
        (by rintro m' r ⟨⟩) (by rintro m' r n ⟨⟩) rfl (by rintro ⟨⟩)⟩
  case clear m o =>
    -- the hazard pointer is not needed any more
    cases o <;> obtain rfl := Option.some.inj hstep
    case none =>
      refine ⟨g, h.set_pointer (p := .idle) (o := none) hpc rfl rfl rfl (by rintro m' ⟨⟩)
        (by rintro k ⟨⟩) (by rintro m' o ⟨⟩) rfl (fun j hj => Function.update_of_ne hj ..) ?_⟩
      rw [Function.update_self]
      exact List.append_nil _
    case some r => exact ⟨g, h.clear_some hpc⟩
  case swap r =>
    subst hstep
    exact ⟨g, h.swap hpc⟩
  case check_old r k v =>
    -- outstanding_hazard_pointers_for, slot by slot
    subst hstep
    exact ⟨g, h.check_old hpc⟩
  case delete_old r v =>
    subst hstep
    exact ⟨_, h.delete_old hpc⟩
  case add_next c k v =>
    -- reclaim_later
    subst hstep
    exact ⟨g, h.add_store hpc (Or.inl rfl)⟩
  case add_cas c k v =>
    split at hstep <;> obtain rfl := Option.some.inj hstep
    case isTrue hlist =>
      cases k with
      | later r => exact ⟨_, h.add_later hpc hlist⟩
      | loop rest => exact h.add_loop hpc hlist
    case isFalse => exact ⟨g, h.add_store hpc (Or.inr rfl)⟩
  case exchange v =>
    -- delete_nodes_with_no_hazards
    subst hstep
    exact h.exchange hpc
  case loop_next c v =>
    subst hstep
    exact ⟨g, h.loop_next hpc⟩
  case loop_data c rest v =>
    subst hstep
    exact ⟨g, h.loop_data hpc⟩
  case check_data d k c rest v =>
    subst hstep
    exact ⟨g, h.check_data hpc⟩
  case delete_data d c rest v =>
    obtain ⟨r, rfl, g', h'⟩ := h.delete_data hpc
    obtain rfl := Option.some.inj hstep
    exact ⟨g', h'⟩
  case delete_current c rest v =>
    subst hstep
    exact ⟨_, h.delete_current hpc⟩

/-- **The step lemma.** -/
theorem inv_step (s : Stack ι A B V) (a : Action ι A B V) (t : Stack ι A B V)
    (h : ∃ g, Inv g s) (hstep : (system ι A B V).step s a = some t) : ∃ g, Inv g t := by
  obtain ⟨g, h⟩ := h
  change s.step a = some t at hstep
  cases a with
  | push i v a =>
      unfold Stack.step at hstep
      cases hpc : s.pc i <;> simp only [hpc, reduceCtorEq] at hstep
      by_cases hlive : (s.heap a).live = true
      · rw [if_pos hlive] at hstep
        exact absurd hstep (by rintro ⟨⟩)
      · rw [if_neg hlive, Option.some.injEq] at hstep
        subst hstep
        exact ⟨_, h.new_node hpc (Bool.eq_false_iff.mpr hlive)⟩
  | pop i =>
      unfold Stack.step at hstep
      cases hpc : s.pc i <;> simp only [hpc, reduceCtorEq] at hstep
      cases hm : s.hazzard i <;> simp only [hm, Option.some.injEq] at hstep <;> subst hstep
      case none => exact ⟨g, h.pop_unbound hpc hm⟩
      case some m => exact ⟨g, h.pop_bound hpc hm⟩
  | reclaim i b =>
      unfold Stack.step at hstep
      cases hpc : s.pc i <;> simp only [hpc, reduceCtorEq] at hstep
      by_cases hlive : (s.cells b).live = true
      · rw [if_pos hlive] at hstep
        exact absurd hstep (by rintro ⟨⟩)
      · rw [if_neg hlive, Option.some.injEq] at hstep
        subst hstep
        exact ⟨_, h.new_reclaim hpc (Bool.eq_false_iff.mpr hlive)⟩
  | exit i =>
      unfold Stack.step at hstep
      cases hpc : s.pc i <;> simp only [hpc, reduceCtorEq] at hstep
      cases hm : s.hazzard i <;> simp only [hm, Option.some.injEq] at hstep <;> subst hstep
      case none => exact ⟨g, h.exit_unbound hpc⟩
      case some m => exact ⟨g, h.exit_bound hpc hm⟩
  | step i => exact inv_stepThread h hstep
  | spurious i =>
      unfold Stack.step at hstep
      cases hpc : s.pc i <;> simp only [hpc, reduceCtorEq, Option.some.injEq] at hstep <;>
        subst hstep
      case push_cas v r => exact ⟨g, h.push_store hpc (Or.inr rfl)⟩
      case add_cas c k v => exact ⟨g, h.add_store hpc (Or.inr rfl)⟩

/-! ## The properties -/

/-- The CASes on `head` are a legal history, each thread has returned the values that it has
popped, but the last one perhaps, and no value was returned more often than it was pushed. -/
def Stack.Legal (s : Stack ι A B V) : Prop :=
  (∃ l, Lifo s.history l) ∧ (∀ i, s.returned i <+: poppedBy i s.history) ∧
    ∑ i, (s.returned i : Multiset V) ≤ (pushed s.history : Multiset V)

omit [DecidableEq A] [DecidableEq B] in
theorem Inv.legal (h : Inv g s) : s.Legal := by
  obtain ⟨l, hl, -⟩ := h.mem.lifo
  have hpre : ∀ i, s.returned i <+: poppedBy i s.history :=
    fun i => ⟨_, (h.threads i).res.symm⟩
  exact ⟨⟨l, hl⟩, hpre, hl.returned_le hpre⟩

omit [DecidableEq A] [DecidableEq B] in
theorem Inv.safe (h : Inv g s) : s.Safe := by
  intro i
  have hok := h.threads i
  constructor
  · intro r hr
    cases hpc : s.pc i <;> rw [hpc] at hr hok
    case push_next | push_cas | swap | delete_old =>
      cases hr
      exact hok.own_valid r rfl
    case read_next m r' =>
      cases hr
      exact hok.guard_valid m r rfl
    case delete_data d c rest v =>
      obtain ⟨r', rfl, -, hvalid⟩ := hok.target d c rfl
      cases hr
      exact hvalid
    all_goals cases hr
  · intro c hc
    refine hok.cells_valid c ?_
    cases hpc : s.pc i <;> rw [hpc] at hc
    case add_next c' k v | add_cas c' k v =>
      cases hc
      cases k <;> exact List.mem_cons_self
    case loop_next | loop_data | delete_data | delete_current =>
      cases hc
      exact List.mem_cons_self
    all_goals cases hc

/-! ## Owners -/

/-- The owner of the node `a`, by the labels. -/
def Ghost.owner (g : Ghost ι A B) (a : A) : Option (Owner ι) :=
  match g.node a with
  | .thread i => some (.pop i)
  | .cell b =>
      match g.cell b with
      | .listed => some .nodes_to_reclaim
      | .detached i => some (.detached i)
      | .nowhere | .spare _ => none
  | .nowhere | .stack => none

omit [DecidableEq A] [DecidableEq B] in
theorem Inv.owner_of_has (h : Inv g s) {a : A} {o : Owner ι}
    (ho : s.Has g.reclaim g.detached a o) : g.owner a = some o := by
  cases o with
  | pop i =>
      obtain ⟨r, hr, rfl⟩ := Option.map_eq_some_iff.mp ho
      have hat := ((h.threads i).own_at _).mp (Pc.owns_of_own (Pc.own_of_old hr))
      rw [Ghost.owner, hat]
  | nodes_to_reclaim =>
      obtain ⟨b, hb, hdata⟩ := List.mem_map.mp ho
      have hcell := (h.mem.reclaim_at b).mp hb
      have hat := (h.mem.data_at a b).mpr ⟨by rw [hcell]; rfl, hdata⟩
      simp only [Ghost.owner, hat, hcell]
  | detached i =>
      obtain ⟨b, hb, hdata⟩ := List.mem_map.mp ho
      have hcell := ((h.threads i).detached_at b).mp hb
      have hat := (h.mem.data_at a b).mpr ⟨by rw [hcell]; rfl, hdata⟩
      simp only [Ghost.owner, hat, hcell]

omit [DecidableEq A] [DecidableEq B] in
/-- A node that was popped and is not deleted has an owner. -/
theorem Inv.exists_has (h : Inv g s) {r : Ref A} (hr : r ∈ s.popped) (hd : r ∉ s.deleted) :
    ∃ o, s.Has g.reclaim g.detached r.addr o := by
  have hvalid := h.log.there r hr hd
  cases hat : g.node r.addr with
  | nowhere => exact absurd hat ((h.mem.live _).mp hvalid.1)
  | stack =>
      have hun := h.mem.unpopped _ hat
      rw [hvalid.ref_eq] at hun
      exact absurd hr hun
  | thread i =>
      obtain ⟨r', hr', haddr⟩ := Option.map_eq_some_iff.mp (((h.threads i).own_at _).mpr hat)
      obtain rfl := ((h.threads i).own_valid r' hr').eq_of_addr hvalid haddr
      refine ⟨.pop i, ?_⟩
      have hold := (Pc.own_cases hr').resolve_left fun hf => (h.threads i).fresh r' hf hr
      change (s.pc i).old.map Ref.addr = _
      rw [hold]
      rfl
  | cell b =>
      obtain ⟨hon, hdata⟩ := (h.mem.data_at _ _).mp hat
      cases hcell : g.cell b with
      | listed =>
          exact ⟨.nodes_to_reclaim, List.mem_map.mpr ⟨b, (h.mem.reclaim_at b).mpr hcell, hdata⟩⟩
      | detached i =>
          exact ⟨.detached i, List.mem_map.mpr ⟨b, ((h.threads i).detached_at b).mpr hcell, hdata⟩⟩
      | nowhere | spare i =>
          rw [hcell] at hon
          cases hon

omit [DecidableEq A] [DecidableEq B] in
/-- No two cells on the lists have the same node. -/
theorem Inv.data_nodup (h : Inv g s) {l : List B} (hl : l.Nodup)
    (hon : ∀ b ∈ l, (g.cell b).on = true) : (l.map s.cellData).Nodup := by
  refine hl.map_on fun b hb b' hb' heq => ?_
  obtain ⟨a, ha⟩ : ∃ a, s.cellData b = some a := h.mem.data_some b (hon b hb)
  have hat := (h.mem.data_at a b).mpr ⟨hon b hb, ha⟩
  have hat' := (h.mem.data_at a b').mpr ⟨hon b' hb', heq ▸ ha⟩
  exact NodeAt.cell.inj (hat.symm.trans hat')

omit [DecidableEq A] [DecidableEq B] in
theorem Inv.owned (h : Inv g s) : s.Owned g.reclaim g.detached where
  deleted_once := h.log.deleted_once
  deleted_popped := h.log.sub
  listed := h.mem.reclaim
  listed_once := h.data_nodup h.mem.reclaim_nodup fun b hb => by
    rw [(h.mem.reclaim_at b).mp hb]
    rfl
  taken i := (h.threads i).detached
  taken_once i := h.data_nodup (h.threads i).detached_nodup fun b hb => by
    rw [((h.threads i).detached_at b).mp hb]
    rfl
  owner r hr hd := by
    obtain ⟨o, ho⟩ := h.exists_has hr hd
    refine ⟨o, ho, fun o' ho' => ?_⟩
    exact Option.some.inj ((h.owner_of_has ho').symm.trans (h.owner_of_has ho))

/-- **`hazard_pointer_stack` is a correct stack with safe reclamation**, in every state of every
run. -/
theorem hazard_pointer_safe (as : List (Action ι A B V)) :
    (system ι A B V).Along
      (fun s => s.Legal ∧ s.Safe ∧ (∃ reclaim detached, s.Owned reclaim detached) ∧ s.Slots)
      (system ι A B V).init as := by
  refine (system ι A B V).along_of_inv (I := fun s => ∃ g, Inv g s) ?_ inv_step ⟨_, inv_init⟩
  rintro s ⟨g, h⟩
  exact ⟨h.legal, h.safe, ⟨_, _, h.owned⟩, h.slots.thrown⟩

end BoostNet.HazardPointerStack
