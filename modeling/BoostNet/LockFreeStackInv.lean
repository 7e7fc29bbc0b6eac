/-
The invariant of the lock-free stack, and that every step keeps it.

Each address has a label, which says who may touch its node: nobody (`free`), the push
that has allocated it, the stack, or one owner (`Owner`) once it is popped. The stack, the
list `to_be_deleted` and the lists that threads have detached are three lists in memory,
each the nodes of one label.

A thread in the loop of `pop` holds a reference to a node that it does not own. What keeps
that node is `unheld`: a node that its owner is going to delete is held by nobody. It is
so when the owner finds `threads_in_pop` to be 1, or makes it 0, and it stays so, for who
enters `pop` afterwards finds the node neither in the stack nor, its address not being
free, in a new node.

`Frame i` is what a step of thread `i` leaves to the others, and `ThreadOk.frame` that they
need no more. Each kind of step is then a lemma of its own.
-/
import BoostNet.LockFreeStack
import BoostNet.Threads
import Mathlib.Algebra.Order.BigOperators.Group.Finset

set_option autoImplicit false

namespace BoostNet.LockFreeStack

open Heap

variable {ι A V : Type*}

/-! ## Labels -/

inductive Label (ι : Type*) where
  | free
  | push (i : ι)
  | stack
  | of (o : Owner ι)

/-- The label may be given or taken by thread `i`. -/
def Label.Of (i : ι) : Label ι → Prop
  | .free | .stack | .of .to_be_deleted => True
  | .push j | .of (.pop j) | .of (.detached j) => j = i

/-- The node is thread `i`'s own. -/
def Label.Own (i : ι) : Label ι → Prop
  | .push j | .of (.pop j) | .of (.detached j) => j = i
  | .free | .stack | .of .to_be_deleted => False

structure Ghost (ι A : Type*) where
  label : A → Label ι := fun _ => .free
  stack : List A := []
  pending : List A := []
  detached : ι → List A := fun _ => []

/-! ## What a thread refers to -/

/-- The node that a push has allocated. -/
def Pc.new : Pc A V → Option (Ref A)
  | .push_next _ r | .push_cas _ r => some r
  | _ => none

/-- The node that a thread in the loop of `pop` has loaded. -/
def Pc.held : Pc A V → Option (Ref A)
  | .read_next r | .cas_head r _ => some r
  | _ => none

/-- The pointers into a list that the thread is working on. -/
def Pc.links : Pc A V → List (Ref A)
  | .dec _ nodes _ => nodes.toList
  | .delete_next n _ _ => [n]
  | .delete_node n rest _ _ => n :: rest.toList
  | .walk first last _ _ | .chain_next first last _ _ | .chain_cas first last _ _ => [first, last]
  | _ => []

/-- The thread refers to the node. -/
def Pc.Refers (p : Pc A V) (r : Ref A) : Prop :=
  p.new = some r ∨ p.old = some r ∨ p.held = some r ∨ r ∈ p.links

/-- The popped node that the thread is going to delete. -/
def Pc.alone : Pc A V → Option (Ref A)
  | .exchange r _ | .dec r _ _ | .delete_old r _ | .delete_next _ r _ | .delete_node _ _ r _
  | .walk _ _ r _ | .chain_next _ _ (.delete_old r) _ | .chain_cas _ _ (.delete_old r) _ => some r
  | _ => none

/-- The thread is going to delete the list that it has detached. -/
def Pc.deleting : Pc A V → Bool
  | .delete_next _ _ _ | .delete_node _ _ _ _ => true
  | _ => false

/-- The thread is counted in `threads_in_pop`. -/
def Pc.counted : Pc A V → Int
  | .load_head | .null_dec | .read_next _ | .cas_head _ _ | .swap _ | .check _ _
  | .exchange _ _ | .dec _ _ _ | .dec_end _ | .chain_next _ _ .dec _ | .chain_cas _ _ .dec _ => 1
  | _ => 0

/-- What the thread is going to return. -/
def Pc.res (data : A → Option V) : Pc A V → Option V
  | .swap r => data r.addr
  | .check _ v | .exchange _ v | .dec _ _ v | .delete_old _ v | .dec_end v | .delete_next _ _ v
  | .delete_node _ _ _ v | .walk _ _ _ v | .chain_next _ _ _ v | .chain_cas _ _ _ v => v
  | _ => none

/-- A node that the thread is going to delete. -/
def Pc.Reclaims (p : Pc A V) (l : List A) (a : A) : Prop :=
  p.alone.map Ref.addr = some a ∨ p.deleting = true ∧ a ∈ l

section

variable (nodes : Option (Ref A)) (r : Ref A) (v : Option V)

/-- `deleteNodes` and `chainNodes` go on with the node popped and the list `nodes`, outside
of the count. -/
theorem deleteNodes_spec :
    (deleteNodes nodes r v).held = none ∧ (deleteNodes nodes r v).new = none ∧
      (deleteNodes nodes r v).old = some r ∧ (deleteNodes nodes r v).counted = 0 ∧
      (∀ r' ∈ (deleteNodes nodes r v).links, r' ∈ nodes.toList) ∧
      ∀ data, (deleteNodes nodes r v).res data = v := by
  cases nodes <;> simp [deleteNodes, Pc.held, Pc.new, Pc.old, Pc.counted, Pc.links, Pc.res]

/-- `chain_pending_nodes` keeps the popped node and has the nodes of the list for the other one; it
counts itself no more. -/
theorem chainNodes_spec :
    (chainNodes nodes r v).held = none ∧ (chainNodes nodes r v).new = none ∧
      (chainNodes nodes r v).old = some r ∧ (chainNodes nodes r v).counted = 0 ∧
      (∀ r' ∈ (chainNodes nodes r v).links, r' ∈ nodes.toList) ∧
      ∀ data, (chainNodes nodes r v).res data = v := by
  cases nodes <;> simp [chainNodes, Pc.held, Pc.new, Pc.old, Pc.counted, Pc.links, Pc.res]

variable {nodes r v}

/-- The nodes that are to be deleted are the rest of the list that was taken. -/
theorem detached_deleteNodes {next : A → Option A} {l : List A}
    (h : Path next (nodes.map Ref.addr) l none) : (deleteNodes nodes r v).Detached next l := by
  cases nodes with
  | none => exact Path.eq_nil h
  | some n => exact h

/-- The same for the nodes that are chained back. -/
theorem detached_chainNodes {next : A → Option A} {l : List A}
    (h : Path next (nodes.map Ref.addr) l none) : (chainNodes nodes r v).Detached next l := by
  cases nodes with
  | none => exact Path.eq_nil h
  | some n =>
      obtain ⟨m, hm, hpath⟩ := Path.eq_cons h
      exact ⟨[], m, hm, rfl, hpath⟩

/-- Who chains its list deletes only the node popped. -/
theorem reclaims_chainNodes {l : List A} {a : A} (h : (chainNodes nodes r v).Reclaims l a) :
    r.addr = a := by
  cases nodes with
  | none | some n =>
      rcases h with h | ⟨h, -⟩
      · exact Option.some.inj h
      · exact absurd h (by rintro ⟨⟩)

end

/-! ## The invariant -/

/-- What is true of thread `i` at `p`. -/
structure ThreadOk [DecidableEq ι] (g : Ghost ι A) (s : Stack ι A V) (i : ι) (p : Pc A V) :
    Prop where
  new : ∀ a, g.label a = .push i ↔ p.new.map Ref.addr = some a
  old : ∀ a, g.label a = .of (.pop i) ↔ p.old.map Ref.addr = some a
  detached : ∀ a, g.label a = .of (.detached i) ↔ a ∈ g.detached i
  nodup : (g.detached i).Nodup
  shape : p.Detached s.next (g.detached i)
  refs : ∀ r, p.Refers r → Valid s.heap r
  held : ∀ r, p.held = some r → ∀ j, g.label r.addr ≠ .push j
  cas : ∀ r n, p = .cas_head r n → g.label r.addr = .stack → s.next r.addr = n
  data : ∀ v r, p = .push_next v r ∨ p = .push_cas v r → s.data r.addr = some v
  res : poppedBy i s.history = s.returned i ++ (p.res s.data).toList

/-- What is true of the memory. -/
structure Mem (g : Ghost ι A) (s : Stack ι A V) : Prop where
  live : ∀ a, (s.heap a).live = true ↔ g.label a ≠ .free
  popped : ∀ a, (s.heap a).live = true → (s.popped a = true ↔ ∃ o, g.label a = .of o)
  stack : Path s.next s.head g.stack none
  stack_nodup : g.stack.Nodup
  stack_label : ∀ a, g.label a = .stack ↔ a ∈ g.stack
  pending : Path s.next s.to_be_deleted g.pending none
  pending_nodup : g.pending.Nodup
  pending_label : ∀ a, g.label a = .of .to_be_deleted ↔ a ∈ g.pending
  lifo : ∃ l, Lifo s.history l ∧ g.stack.map s.data = l.map some

structure Inv [DecidableEq ι] [Fintype ι] (g : Ghost ι A) (s : Stack ι A V) : Prop where
  mem : Mem g s
  count : s.threads_in_pop = ∑ j, (s.pc j).counted
  threads : ∀ i, ThreadOk g s i (s.pc i)
  unheld : ∀ i a, (s.pc i).Reclaims (g.detached i) a →
    ∀ j, (s.pc j).held.map Ref.addr ≠ some a

/-! ## Lists of a thread -/

variable {g g' : Ghost ι A} {s s' : Stack ι A V} {i j : ι} {p : Pc A V} {l : List A}
  {next next' : A → Option A} {r : Ref A}

/-- A detached list is where it was if its nodes are not written. -/
theorem Pc.Detached.congr (h : p.Detached next l) (hnext : ∀ a ∈ l, next' a = next a) :
    p.Detached next' l := by
  cases p with
  | dec r nodes v => exact Path.congr h hnext
  | delete_next n r v => exact Path.congr h hnext
  | delete_node n rest r v =>
      obtain ⟨m, rfl, hm⟩ := h
      exact ⟨m, rfl, hm.congr (fun a ha => hnext a (List.mem_cons_of_mem _ ha))⟩
  | walk n last r v =>
      obtain ⟨m, m', rfl, hm, hm'⟩ := h
      refine ⟨m, m', rfl, hm.congr (fun a ha => hnext a (List.mem_append_left _ ha)), ?_⟩
      rw [hnext last.addr (by simp)]
      exact hm'.congr (fun a ha => hnext a (by simp [ha]))
  | chain_next first last k v | chain_cas first last k v =>
      cases k with
      | delete_old r =>
          obtain ⟨m, rfl, hm⟩ := h
          exact ⟨m, rfl, hm.congr (fun a ha => hnext a (List.mem_append_left _ ha))⟩
      | dec => exact h
  | _ => exact h

/-- The pointers of a thread into a list point to its nodes, or to the node it has
popped. -/
theorem Pc.Detached.links (h : p.Detached next l) (hr : r ∈ p.links) :
    r.addr ∈ l ∨ p.old.map Ref.addr = some r.addr := by
  cases p with
  | dec r' nodes v =>
      obtain rfl := Option.mem_toList.mp hr
      exact Or.inl (Path.head_mem h)
  | delete_next n r' v =>
      obtain rfl := List.mem_singleton.mp hr
      exact Or.inl (Path.head_mem h)
  | delete_node n rest r' v =>
      obtain ⟨m, rfl, hm⟩ := h
      rcases List.mem_cons.mp hr with rfl | hr
      · exact Or.inl List.mem_cons_self
      · obtain rfl := Option.mem_toList.mp hr
        exact Or.inl (List.mem_cons_of_mem _ hm.head_mem)
  | walk n last r' v =>
      obtain ⟨m, m', rfl, hm, hm'⟩ := h
      left
      simp only [Pc.links, List.mem_cons, List.not_mem_nil, or_false] at hr
      rcases hr with rfl | rfl
      · have := hm.head_mem_concat
        simp only [List.mem_append, List.mem_cons, List.not_mem_nil, or_false] at this ⊢
        exact this.imp_right Or.inl
      · simp
  | chain_next first last k v | chain_cas first last k v =>
      simp only [Pc.links, List.mem_cons, List.not_mem_nil, or_false] at hr
      cases k with
      | delete_old r' =>
          obtain ⟨m, rfl, hm⟩ := h
          left
          rcases hr with rfl | rfl
          · exact hm.head_mem_concat
          · simp
      | dec =>
          obtain ⟨-, rfl⟩ := h
          right
          rcases hr with rfl | rfl <;> rfl
  | _ => exact absurd hr (by simp [Pc.links])

/-! ## What a step leaves to the other threads -/

variable [DecidableEq ι]

structure Frame (i : ι) (g : Ghost ι A) (s : Stack ι A V) (g' : Ghost ι A) (s' : Stack ι A V) :
    Prop where
  label : ∀ a, g'.label a = g.label a ∨ (g.label a).Of i ∧ (g'.label a).Of i
  push : ∀ a j, g'.label a = .push j → g.label a = .push j ∨ (s.heap a).live = false
  detached : ∀ j, j ≠ i → g'.detached j = g.detached j
  heap : ∀ a, s'.heap a = s.heap a ∨ (g.label a).Own i ∨ g.label a = .free
  valid : ∀ j, j ≠ i → ∀ r, (s.pc j).held = some r → Valid s.heap r → Valid s'.heap r
  stack : ∀ a, g'.label a = .stack →
    (∃ j, g.label a = .push j) ∨ g.label a = .stack ∧ s'.next a = s.next a
  history : ∀ j, j ≠ i → poppedBy j s'.history = poppedBy j s.history
  returned : ∀ j, j ≠ i → s'.returned j = s.returned j

omit [DecidableEq ι] in
/-- What a thread owns it also knows. -/
theorem Label.Own.of {x : Label ι} (h : x.Own i) : x.Of i := by
  cases x with
  | push k => exact h
  | of o =>
      cases o with
      | pop k | detached k => exact h
      | to_be_deleted => trivial
  | free | stack => exact absurd h id

omit [DecidableEq ι] in
/-- An own node of one thread cannot be another's. -/
theorem Label.own_of {x : Label ι} (hj : x.Own j) (hi : x.Of i) : j = i := by
  cases x with
  | push k => exact hj.symm.trans hi
  | of o =>
      cases o with
      | pop k | detached k => exact hj.symm.trans hi
      | to_be_deleted => exact absurd hj id
  | free | stack => exact absurd hj id

/-- The others keep their nodes. -/
theorem Frame.own (hf : Frame i g s g' s') (hji : j ≠ i) {x : Label ι} (hx : x.Own j) {a : A} :
    g'.label a = x ↔ g.label a = x := by
  rcases hf.label a with heq | ⟨h, h'⟩
  · rw [heq]
  · constructor
    · rintro rfl
      exact absurd (Label.own_of hx h') hji
    · rintro rfl
      exact absurd (Label.own_of hx h) hji

/-- Nobody writes to them. -/
theorem Frame.heap_own (hf : Frame i g s g' s') (hji : j ≠ i) {a : A} (ha : (g.label a).Own j) :
    s'.heap a = s.heap a := by
  rcases hf.heap a with h | h | h
  · exact h
  · exact absurd (Label.own_of ha h.of) hji
  · rw [h] at ha
    exact absurd ha id

/-- **The frame.** What is true of a thread stays true in a step of another. -/
theorem ThreadOk.frame (h : ThreadOk g s j p) (hp : s.pc j = p) (hf : Frame i g s g' s')
    (hji : j ≠ i) : ThreadOk g' s' j p := by
  have hlist : ∀ a ∈ g.detached j, s'.heap a = s.heap a := by
    intro a ha
    apply hf.heap_own hji
    rw [(h.detached a).mpr ha]
    rfl
  have hold : ∀ a, p.old.map Ref.addr = some a → s'.heap a = s.heap a := by
    intro a ha
    apply hf.heap_own hji
    rw [(h.old a).mpr ha]
    rfl
  have hnew : ∀ a, p.new.map Ref.addr = some a → s'.heap a = s.heap a := by
    intro a ha
    apply hf.heap_own hji
    rw [(h.new a).mpr ha]
    rfl
  refine ⟨?_, ?_, ?_, ?_, ?_, ?_, ?_, ?_, ?_, ?_⟩
  · intro a
    rw [hf.own hji (x := .push j) rfl, h.new]
  · intro a
    rw [hf.own hji (x := .of (.pop j)) rfl, h.old]
  · intro a
    rw [hf.own hji (x := .of (.detached j)) rfl, h.detached, hf.detached j hji]
  · rw [hf.detached j hji]
    exact h.nodup
  · rw [hf.detached j hji]
    exact h.shape.congr (fun a ha => by rw [Stack.next, Stack.next, hlist a ha])
  · intro r hr
    have hvalid := h.refs r hr
    rcases hr with hr | hr | hr | hr
    · have ha := hnew r.addr (by simp [hr])
      exact hvalid.of_eq ha
    · have ha := hold r.addr (by simp [hr])
      exact hvalid.of_eq ha
    · exact hf.valid j hji r (by rw [hp, hr]) hvalid
    · have ha : s'.heap r.addr = s.heap r.addr :=
        (h.shape.links hr).elim (hlist r.addr) (hold r.addr)
      exact hvalid.of_eq ha
  · intro r hr k hk
    rcases hf.push r.addr k hk with hpush | hdead
    · exact h.held r hr k hpush
    · have hvalid := h.refs r (Or.inr (Or.inr (Or.inl hr)))
      rw [hvalid.1] at hdead
      exact absurd hdead (by rintro ⟨⟩)
  · intro r n hr hs
    rcases hf.stack r.addr hs with ⟨k, hpush⟩ | ⟨hstack, hnext⟩
    · exact absurd hpush (h.held r (by rw [hr]; rfl) k)
    · exact hnext.trans (h.cas r n hr hstack)
  · intro v r hr
    have ha := hnew r.addr (by rcases hr with rfl | rfl <;> rfl)
    rw [Stack.data, ha]
    exact h.data v r hr
  · rw [hf.history j hji, hf.returned j hji, h.res]
    congr 2
    cases p with
    | swap r => exact congrArg (fun c => c.val.data) (hold r.addr rfl).symm
    | _ => rfl

/-! ## Nobody holds what is going to be deleted -/

variable [Fintype ι]

omit [Fintype ι] in
/-- What a thread is going to delete is its own. -/
theorem ThreadOk.reclaims (h : ThreadOk g s i p) {a : A}
    (ha : p.Reclaims (g.detached i) a) :
    g.label a = .of (.pop i) ∨ g.label a = .of (.detached i) := by
  rcases ha with ha | ⟨-, ha⟩
  · left
    rw [h.old, ← ha]
    cases p with
    | chain_next first last k v | chain_cas first last k v =>
        cases k <;> simp_all [Pc.alone, Pc.old]
    | _ => simp_all [Pc.alone, Pc.old]
  · exact Or.inr ((h.detached a).mpr ha)

/-- **The frame rule** for the whole invariant: thread `i` moves to `p`. It may take hold of
a node of the stack, and of what it is going to delete then, nobody holds anything. -/
theorem Inv.of_frame (h : Inv g s) (hpc : s'.pc = Function.update s.pc i p)
    (hf : Frame i g s g' s') (hmem : Mem g' s') (hi : ThreadOk g' s' i p)
    (hcount : s'.threads_in_pop + (s.pc i).counted = s.threads_in_pop + p.counted)
    (hheld : ∀ r, p.held = some r → (s.pc i).held = some r ∨ g.label r.addr = .stack)
    (hreclaims : ∀ a, p.Reclaims (g'.detached i) a → (s.pc i).Reclaims (g.detached i) a ∨
      ∀ j, (Function.update s.pc i p j).held.map Ref.addr ≠ some a) : Inv g' s' where
  mem := hmem
  count := by
    have hsum := sum_update Pc.counted s.pc p (Finset.mem_univ i)
    rw [h.count] at hcount
    rw [hpc]
    omega
  threads := by
    intro j
    by_cases hji : j = i
    · rw [hji, hpc, Function.update_self]
      exact hi
    · rw [hpc, Function.update_of_ne hji]
      exact (h.threads j).frame rfl hf hji
  unheld := by
    -- what somebody was going to delete is not in the stack, so nobody has come to hold it
    have hkeep : ∀ j a, (s.pc j).Reclaims (g.detached j) a →
        ∀ k, (Function.update s.pc i p k).held.map Ref.addr ≠ some a := by
      intro j a ha k hk
      by_cases hki : k = i
      · rw [hki, Function.update_self] at hk
        obtain ⟨r, hr, rfl⟩ := Option.map_eq_some_iff.mp hk
        rcases hheld r hr with hr | hstack
        · exact h.unheld j r.addr ha i (by rw [hr]; rfl)
        · rcases (h.threads j).reclaims ha with hlabel | hlabel <;>
            rw [hlabel] at hstack <;> exact absurd hstack (by rintro ⟨⟩)
      · rw [Function.update_of_ne hki] at hk
        exact h.unheld j a ha k hk
    intro j a ha
    rw [hpc] at ha ⊢
    by_cases hji : j = i
    · subst hji
      rw [Function.update_self] at ha
      exact (hreclaims a ha).elim (hkeep j a) id
    · rw [Function.update_of_ne hji, hf.detached j hji] at ha
      exact hkeep j a ha

omit [DecidableEq ι] [Fintype ι] in
/-- A thread is counted in `threads_in_pop` or not. -/
theorem Pc.counted_nonneg (p : Pc A V) : 0 ≤ p.counted := by
  unfold Pc.counted
  split <;> omega

omit [DecidableEq ι] [Fintype ι] in
/-- A thread that holds a node is in `pop`. -/
theorem Pc.counted_of_held (h : p.held = some r) : p.counted = 1 := by
  cases p <;> simp_all [Pc.held, Pc.counted]

/-- If the counter is what thread `i` contributes, nobody else is in `pop`. -/
theorem Inv.alone (h : Inv g s) (hcount : s.threads_in_pop = (s.pc i).counted) (hji : j ≠ i) :
    (s.pc j).held = none := by
  rw [h.count, ← Finset.add_sum_erase _ _ (Finset.mem_univ i)] at hcount
  have hrest : ∑ k ∈ Finset.univ.erase i, (s.pc k).counted = 0 := by omega
  have hj := (Finset.sum_eq_zero_iff_of_nonneg (fun k _ => (s.pc k).counted_nonneg)).mp hrest j
    (Finset.mem_erase.mpr ⟨hji, Finset.mem_univ j⟩)
  cases hheld : (s.pc j).held with
  | none => rfl
  | some r =>
      rw [Pc.counted_of_held hheld] at hj
      exact absurd hj one_ne_zero

/-! ## A thread works on its own nodes -/

/-- The heap differs at nodes of thread `i` only, and not in what is allocated. -/
def WritesOwn (g : Ghost ι A) (i : ι) (heap heap' : A → Cell (Node A V)) : Prop :=
  ∀ a, heap' a = heap a ∨
    (g.label a).Own i ∧ (heap' a).live = (heap a).live ∧ (heap' a).gen = (heap a).gen

namespace WritesOwn

variable {heap heap' : A → Cell (Node A V)}

omit [DecidableEq ι] [Fintype ι] in
/-- Writing nothing is writing only one's own. -/
theorem refl : WritesOwn g i heap heap := fun _ => Or.inl rfl

omit [DecidableEq ι] [Fintype ι] in
/-- Writing a field of an own node. -/
theorem store [DecidableEq A] {a : A} {v : Node A V} (ha : (g.label a).Own i) :
    WritesOwn g i heap (store heap a v) := by
  intro b
  by_cases hb : b = a
  · rw [hb, store_self]
    exact Or.inr ⟨ha, rfl, rfl⟩
  · exact Or.inl (store_of_ne hb)

variable (hw : WritesOwn g i heap heap')
include hw

omit [DecidableEq ι] [Fintype ι] in
/-- A thread that writes its own nodes deletes none. -/
theorem live (a : A) : (heap' a).live = (heap a).live := by
  rcases hw a with h | ⟨-, h, -⟩
  · rw [h]
  · exact h

omit [DecidableEq ι] [Fintype ι] in
/-- So all references stay valid, -/
theorem valid (hr : Valid heap r) : Valid heap' r := by
  rcases hw r.addr with h | ⟨-, hlive, hgen⟩
  · exact hr.of_eq h
  · exact hr.congr hlive hgen

omit [DecidableEq ι] [Fintype ι] in
/-- and the nodes of others stay as they are. -/
theorem eq_of_not_own {a : A} (ha : ¬ (g.label a).Own i) : heap' a = heap a :=
  (hw a).resolve_right (fun h => ha h.1)

end WritesOwn

variable {heap : A → Cell (Node A V)} {n : Int} {returned : ι → List V}

omit [Fintype ι] in
/-- Hence it is a framed step for all the other threads. -/
theorem Frame.of_writesOwn (hw : WritesOwn g i s.heap heap)
    (hret : ∀ j, j ≠ i → returned j = s.returned j) :
    Frame i g s g { s.goto i p with heap := heap, threads_in_pop := n, returned := returned } where
  label := fun a => Or.inl rfl
  push := fun a j h => Or.inl h
  detached := fun j _ => rfl
  heap := fun a => (hw a).imp_right (fun h => Or.inl h.1)
  valid := fun j _ r _ hr => hw.valid hr
  stack := fun a ha =>
    Or.inr ⟨ha, congrArg (fun c => c.val.next) (hw.eq_of_not_own (by rw [ha]; exact id))⟩
  history := fun j _ => rfl
  returned := hret

omit [Fintype ι] in
/-- The labels still describe the heap after it. -/
theorem Mem.of_writesOwn (h : Mem g s) (hw : WritesOwn g i s.heap heap) :
    Mem g { s.goto i p with heap := heap, threads_in_pop := n, returned := returned } := by
  have hstack : ∀ a ∈ g.stack, heap a = s.heap a :=
    fun a ha => hw.eq_of_not_own (by rw [(h.stack_label a).mpr ha]; exact id)
  have hpending : ∀ a ∈ g.pending, heap a = s.heap a :=
    fun a ha => hw.eq_of_not_own (by rw [(h.pending_label a).mpr ha]; exact id)
  refine { h with live := ?_, popped := ?_, stack := ?_, pending := ?_, lifo := ?_ }
  · intro a
    exact (hw.live a).symm ▸ h.live a
  · intro a ha
    exact h.popped a ((hw.live a).symm.trans ha)
  · exact h.stack.congr (fun a ha => congrArg (fun c => c.val.next) (hstack a ha))
  · exact h.pending.congr (fun a ha => congrArg (fun c => c.val.next) (hpending a ha))
  · obtain ⟨l, hl, hdata⟩ := h.lifo
    refine ⟨l, hl, ?_⟩
    rw [← hdata]
    exact List.map_congr_left (fun a ha => congrArg (fun c => c.val.data) (hstack a ha))

/-- Thread `i` moves to `p`, and writes to its own nodes. -/
theorem Inv.local (h : Inv g s) (hw : WritesOwn g i s.heap heap)
    (hret : ∀ j, j ≠ i → returned j = s.returned j)
    (hi : ThreadOk g
      { s.goto i p with heap := heap, threads_in_pop := n, returned := returned } i p)
    (hcount : n + (s.pc i).counted = s.threads_in_pop + p.counted)
    (hheld : ∀ r, p.held = some r → (s.pc i).held = some r ∨ g.label r.addr = .stack)
    (hreclaims : ∀ a, p.Reclaims (g.detached i) a → (s.pc i).Reclaims (g.detached i) a ∨
      ∀ j, (Function.update s.pc i p j).held.map Ref.addr ≠ some a) :
    Inv g { s.goto i p with heap := heap, threads_in_pop := n, returned := returned } :=
  h.of_frame rfl (Frame.of_writesOwn hw hret) (h.mem.of_writesOwn hw) hi hcount hheld hreclaims

omit [Fintype ι] in
/-- A thread that has the same nodes as before, and holds none. -/
theorem ThreadOk.move (h : ThreadOk g s i p) {q : Pc A V} (hw : WritesOwn g i s.heap s'.heap)
    (hheld : q.held = none) (hnew : p.new = none ∧ q.new = none)
    (hold : q.old = p.old) (hlinks : ∀ r ∈ q.links, p.Refers r ∨ Valid s'.heap r)
    (hshape : q.Detached s'.next (g.detached i)) (hhistory : s'.history = s.history)
    (hres : s'.returned i ++ (q.res s'.data).toList = s.returned i ++ (p.res s.data).toList) :
    ThreadOk g s' i q where
  new := by
    intro a
    rw [h.new, hnew.1, hnew.2]
  old := by
    intro a
    rw [h.old, hold]
  detached := h.detached
  nodup := h.nodup
  shape := hshape
  refs := by
    rintro r (hr | hr | hr | hr)
    · exact absurd (hnew.2.symm.trans hr) (by rintro ⟨⟩)
    · exact hw.valid (h.refs r (Or.inr (Or.inl (hold.symm.trans hr))))
    · exact absurd (hheld.symm.trans hr) (by rintro ⟨⟩)
    · exact (hlinks r hr).elim (fun hr => hw.valid (h.refs r hr)) id
  held := by
    intro r hr
    rw [hheld] at hr
    exact absurd hr (by rintro ⟨⟩)
  cas := by
    rintro r n rfl
    exact absurd hheld (by rintro ⟨⟩)
  data := by
    rintro v r (rfl | rfl) <;> exact absurd hnew.2 (by rintro ⟨⟩)
  res := by rw [hhistory, hres, h.res]

/-! ## Nodes change hands -/

section Relabel

variable [DecidableEq A]

/-- The nodes `l` get the label `x`. -/
def relabel (label : A → Label ι) (l : List A) (x : Label ι) (a : A) : Label ι :=
  if a ∈ l then x else label a

variable {label : A → Label ι} {x y : Label ι} {a : A}

omit [DecidableEq ι] [Fintype ι] in
/-- The nodes of the list get the new label. -/
theorem relabel_of_mem (ha : a ∈ l) : relabel label l x a = x := if_pos ha

omit [DecidableEq ι] [Fintype ι] in
/-- All the others keep theirs. -/
theorem relabel_of_not_mem (ha : a ∉ l) : relabel label l x a = label a := if_neg ha

omit [DecidableEq ι] [Fintype ι] in
/-- Another label is where it was, but not in `l`. -/
theorem relabel_eq_iff (hne : x ≠ y) : relabel label l x a = y ↔ a ∉ l ∧ label a = y := by
  by_cases ha : a ∈ l
  · rw [relabel_of_mem ha]
    exact ⟨fun h => absurd h hne, fun h => absurd ha h.1⟩
  · rw [relabel_of_not_mem ha]
    exact ⟨fun h => ⟨ha, h⟩, fun h => h.2⟩

omit [DecidableEq ι] [Fintype ι] in
/-- A label that none of `l` had. -/
theorem relabel_eq_iff_of_ne (hne : x ≠ y) (hl : ∀ a ∈ l, label a ≠ y) :
    relabel label l x a = y ↔ label a = y := by
  rw [relabel_eq_iff hne]
  exact ⟨fun h => h.2, fun h => ⟨fun ha => hl a ha h, h⟩⟩

omit [DecidableEq ι] [Fintype ι] in
/-- The labels other than the one that the nodes had and the one that they get. -/
theorem relabel_other {z : Label ι} (hl : ∀ a ∈ l, label a = z) (y : Label ι) (hx : y ≠ x)
    (hz : y ≠ z) (a : A) : relabel label l x a = y ↔ label a = y :=
  relabel_eq_iff_of_ne (Ne.symm hx) (fun a ha heq => hz (heq.symm.trans (hl a ha)))

omit [DecidableEq ι] [Fintype ι] in
/-- The new label. -/
theorem relabel_eq_self_iff : relabel label l x a = x ↔ a ∈ l ∨ label a = x := by
  by_cases ha : a ∈ l
  · rw [relabel_of_mem ha]
    exact ⟨fun _ => Or.inl ha, fun _ => rfl⟩
  · rw [relabel_of_not_mem ha]
    exact ⟨Or.inr, fun h => h.resolve_left ha⟩

omit [Fintype ι] in
/-- Thread `i` relabels nodes and writes nothing. -/
theorem Frame.of_relabel (hl : ∀ a ∈ l, (g.label a).Of i) (hx : x.Of i)
    (hpush : ∀ j, x ≠ .push j) (hstack : x = .stack → ∀ a ∈ l, ∃ j, g.label a = .push j)
    (hlabel : g'.label = relabel g.label l x)
    (hdetached : ∀ j, j ≠ i → g'.detached j = g.detached j) (hheap : s'.heap = s.heap)
    (hhistory : ∀ j, j ≠ i → poppedBy j s'.history = poppedBy j s.history)
    (hret : s'.returned = s.returned) : Frame i g s g' s' where
  label := by
    intro a
    rw [hlabel]
    by_cases ha : a ∈ l
    · rw [relabel_of_mem ha]
      exact Or.inr ⟨hl a ha, hx⟩
    · exact Or.inl (relabel_of_not_mem ha)
  push := by
    intro a j ha
    rw [hlabel, relabel_eq_iff (hpush j)] at ha
    exact Or.inl ha.2
  detached := hdetached
  heap := fun a => Or.inl (congrFun hheap a)
  valid := by
    intro j _ r _ hr
    rw [hheap]
    exact hr
  stack := by
    intro a ha
    rw [hlabel] at ha
    by_cases hmem : a ∈ l
    · rw [relabel_of_mem hmem] at ha
      exact Or.inl (hstack ha a hmem)
    · rw [relabel_of_not_mem hmem] at ha
      exact Or.inr ⟨ha, by rw [Stack.next, hheap]; rfl⟩
  history := hhistory
  returned := fun j _ => congrFun hret j

omit [DecidableEq ι] [Fintype ι] in
/-- No node becomes free, or ceases to be. -/
theorem Mem.live_relabel (h : Mem g s) (hl : ∀ a ∈ l, g.label a ≠ .free) (hx : x ≠ .free) (a : A) :
    (s.heap a).live = true ↔ relabel g.label l x a ≠ .free := by
  rw [h.live, ne_eq, ne_eq, relabel_eq_iff_of_ne hx hl]

end Relabel

end BoostNet.LockFreeStack
