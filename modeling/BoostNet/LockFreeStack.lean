/-
The lock-free stack of Concurrent/day17-LockFreeStack (LockFreeStack.h), which counts the
threads in `pop` to find out when nodes can be deleted.

`push` and `pop` move `head` by a CAS. A thread that has popped a node deletes it if it is
alone in `pop` at its first look at `threads_in_pop`, and else chains it to
`to_be_deleted`. The thread that was alone also takes that list, and deletes it if it is
still alone at its second look, when it leaves `pop`; else it chains the list again.

A thread is where it is in the source (`Pc`), with the locals it still needs; one atomic
operation, one access to a node, and one deletion is one step each. A weak CAS may fail
although it compares equal. An allocation may take any address that is not in use, one
that has been freed among them: a local pointer is a `Ref`, so that the model can say
which node it was loaded for, and every comparison is of addresses. A node stays readable
when it is freed, and `Safe` says that nobody reads it.

The atomics start out null and 0, and `threads_in_pop` is an integer without bounds.
`popped`, `history` and `returned` are histories: which nodes in use were popped, the CASes
on `head` that succeeded, and the values that the calls of `pop` of each thread returned.
-/
import BoostNet.Heap
import BoostNet.Lts
import Mathlib.Algebra.Order.BigOperators.Group.Finset
import Mathlib.Algebra.Order.Group.Multiset

set_option autoImplicit false

namespace BoostNet.LockFreeStack

open Heap

/-! ## Nodes and threads -/

structure Node (A V : Type*) where
  data : Option V
  next : Option A

/-- What follows `chain_pending_nodes(first, last)`: `delete old_head`, or the decrement
after `chain_pending_node`. -/
inductive After (A : Type*) where
  | delete_old (old_head : Ref A)
  | dec

/-- What a thread does next. -/
inductive Pc (A V : Type*) where
  | idle
  -- `push`
  | push_next (data : V) (new_node : Ref A)
  | push_cas (data : V) (new_node : Ref A)
  -- `pop`
  | pop_inc
  | load_head
  | null_dec
  | read_next (old_head : Ref A)
  | cas_head (old_head : Ref A) (next : Option A)
  | swap (old_head : Ref A)
  -- `try_reclaim`
  | check (old_head : Ref A) (res : Option V)
  | exchange (old_head : Ref A) (res : Option V)
  | dec (old_head : Ref A) (nodes_to_delete : Option (Ref A)) (res : Option V)
  | delete_old (old_head : Ref A) (res : Option V)
  | dec_end (res : Option V)
  -- `delete_nodes`
  | delete_next (nodes old_head : Ref A) (res : Option V)
  | delete_node (nodes : Ref A) (next : Option (Ref A)) (old_head : Ref A) (res : Option V)
  -- `chain_pending_nodes`
  | walk (nodes last old_head : Ref A) (res : Option V)
  | chain_next (first last : Ref A) (k : After A) (res : Option V)
  | chain_cas (first last : Ref A) (k : After A) (res : Option V)

variable {ι A V : Type*}

/-- After `chain_pending_nodes`. -/
def After.pc (res : Option V) : After A → Pc A V
  | .delete_old old_head => .delete_old old_head res
  | .dec => .dec_end res

/-- `delete_nodes(nodes)`, and then `delete old_head`. -/
def deleteNodes (nodes : Option (Ref A)) (old_head : Ref A) (res : Option V) : Pc A V :=
  match nodes with
  | none => .delete_old old_head res
  | some n => .delete_next n old_head res

/-- `chain_pending_nodes(nodes)` if there are any, and then `delete old_head`. -/
def chainNodes (nodes : Option (Ref A)) (old_head : Ref A) (res : Option V) : Pc A V :=
  match nodes with
  | none => .delete_old old_head res
  | some n => .walk n n old_head res

/-! ## The stack -/

/-- A CAS on `head` that succeeds: a value is pushed, or thread `i` pops a node with what it holds
then. -/
inductive Ev (ι V : Type*) where
  | push (v : V)
  | pop (i : ι) (data : Option V)

structure Stack (ι A V : Type*) where
  head : Option A := none
  to_be_deleted : Option A := none
  threads_in_pop : Int := 0
  heap : A → Cell (Node A V) := fun _ => { live := false, gen := 0, val := ⟨none, none⟩ }
  popped : A → Bool := fun _ => false
  history : List (Ev ι V) := []
  returned : ι → List V := fun _ => []
  pc : ι → Pc A V := fun _ => .idle

inductive Action (ι A V : Type*) where
  /-- `push`, and the address of its `new node`. -/
  | push (i : ι) (data : V) (a : A)
  | pop (i : ι)
  | step (i : ι)
  /-- The weak CAS fails although it compares equal. -/
  | spurious (i : ι)

def Stack.next (s : Stack ι A V) (a : A) : Option A := (s.heap a).val.next

def Stack.data (s : Stack ι A V) (a : A) : Option V := (s.heap a).val.data

variable [DecidableEq ι] [DecidableEq A]

def Stack.goto (s : Stack ι A V) (i : ι) (p : Pc A V) : Stack ι A V :=
  { s with pc := Function.update s.pc i p }

/-- `pop` returns. -/
def Stack.ret (s : Stack ι A V) (i : ι) (res : Option V) : Stack ι A V :=
  { s.goto i .idle with
    returned := Function.update s.returned i (s.returned i ++ res.toList) }

omit [DecidableEq ι] in
/-- `a->next = p`. -/
def Stack.setNext (s : Stack ι A V) (a : A) (p : Option A) : A → Cell (Node A V) :=
  store s.heap a { (s.heap a).val with next := p }

/-- The next step of a thread. -/
def Stack.stepThread (s : Stack ι A V) (i : ι) : Option (Stack ι A V) :=
  match s.pc i with
  | .idle => none
  | .push_next data new_node =>
      some { s.goto i (.push_cas data new_node) with heap := s.setNext new_node.addr s.head }
  | .push_cas data new_node =>
      if s.head = s.next new_node.addr then
        some { s.goto i .idle with
          head := some new_node.addr
          history := s.history ++ [.push data] }
      else
        some { s.goto i (.push_cas data new_node) with heap := s.setNext new_node.addr s.head }
  | .pop_inc => some { s.goto i .load_head with threads_in_pop := s.threads_in_pop + 1 }
  | .load_head =>
      match s.head with
      | none => some (s.goto i .null_dec)
      | some a => some (s.goto i (.read_next (ref s.heap a)))
  | .null_dec => some { s.ret i none with threads_in_pop := s.threads_in_pop - 1 }
  | .read_next old_head => some (s.goto i (.cas_head old_head (s.next old_head.addr)))
  | .cas_head old_head next =>
      if s.head = some old_head.addr then
        some { s.goto i (.swap old_head) with
          head := next
          popped := Function.update s.popped old_head.addr true
          history := s.history ++ [.pop i (s.data old_head.addr)] }
      else some (s.goto i .load_head)
  | .swap old_head =>
      some { s.goto i (.check old_head (s.data old_head.addr)) with
        heap := store s.heap old_head.addr { (s.heap old_head.addr).val with data := none } }
  | .check old_head res =>
      some (s.goto i (if s.threads_in_pop = 1 then .exchange old_head res
        else .chain_next old_head old_head .dec res))
  | .exchange old_head res =>
      some { s.goto i (.dec old_head (s.to_be_deleted.map (ref s.heap)) res) with
        to_be_deleted := none }
  | .dec old_head nodes res =>
      some { s.goto i (if s.threads_in_pop - 1 = 0 then deleteNodes nodes old_head res
          else chainNodes nodes old_head res) with
        threads_in_pop := s.threads_in_pop - 1 }
  | .delete_old old_head res => some { s.ret i res with heap := free s.heap old_head.addr }
  | .dec_end res => some { s.ret i res with threads_in_pop := s.threads_in_pop - 1 }
  | .delete_next nodes old_head res =>
      some (s.goto i (.delete_node nodes ((s.next nodes.addr).map (ref s.heap)) old_head res))
  | .delete_node nodes next old_head res =>
      some { s.goto i (deleteNodes next old_head res) with heap := free s.heap nodes.addr }
  | .walk nodes last old_head res =>
      match s.next last.addr with
      | none => some (s.goto i (.chain_next nodes last (.delete_old old_head) res))
      | some a => some (s.goto i (.walk nodes (ref s.heap a) old_head res))
  | .chain_next first last k res =>
      some { s.goto i (.chain_cas first last k res) with
        heap := s.setNext last.addr s.to_be_deleted }
  | .chain_cas first last k res =>
      if s.to_be_deleted = s.next last.addr then
        some { s.goto i (k.pc res) with to_be_deleted := some first.addr }
      else
        some { s.goto i (.chain_cas first last k res) with
          heap := s.setNext last.addr s.to_be_deleted }

def Stack.step (s : Stack ι A V) : Action ι A V → Option (Stack ι A V)
  | .push i data a =>
      match s.pc i with
      | .idle =>
          if (s.heap a).live then none
          else
            let heap := alloc s.heap a ⟨some data, none⟩
            some { s.goto i (.push_next data (ref heap a)) with
              heap := heap
              popped := Function.update s.popped a false }
      | _ => none
  | .pop i =>
      match s.pc i with
      | .idle => some (s.goto i .pop_inc)
      | _ => none
  | .step i => s.stepThread i
  | .spurious i =>
      match s.pc i with
      | .push_cas data new_node =>
          some { s.goto i (.push_cas data new_node) with heap := s.setNext new_node.addr s.head }
      | .cas_head _ _ => some (s.goto i .load_head)
      | .chain_cas first last k res =>
          some { s.goto i (.chain_cas first last k res) with
            heap := s.setNext last.addr s.to_be_deleted }
      | _ => none

def system (ι A V : Type*) [DecidableEq ι] [DecidableEq A] :
    Lts (Stack ι A V) (Action ι A V) where
  init := {}
  step := Stack.step

/-! ## What a thread uses and owns -/

/-- The node that the next step of the thread reads, writes or deletes. -/
def Pc.uses : Pc A V → Option (Ref A)
  | .push_next _ r | .push_cas _ r | .read_next r | .swap r | .delete_next r _ _
  | .delete_node r _ _ _ | .walk _ r _ _ | .chain_next _ r _ _ | .chain_cas _ r _ _
  | .delete_old r _ => some r
  | .idle | .pop_inc | .load_head | .null_dec | .cas_head _ _ | .check _ _ | .exchange _ _
  | .dec _ _ _ | .dec_end _ => none

/-- The node that the thread has popped, and neither chained nor deleted. -/
def Pc.old : Pc A V → Option (Ref A)
  | .swap r | .check r _ | .exchange r _ | .dec r _ _ | .delete_old r _ | .delete_next _ r _
  | .delete_node _ _ r _ | .walk _ _ r _ => some r
  | .chain_next first _ k _ | .chain_cas first _ k _ =>
      match k with
      | .delete_old r => some r
      | .dec => some first
  | .idle | .push_next _ _ | .push_cas _ _ | .pop_inc | .load_head | .null_dec | .read_next _
  | .cas_head _ _ | .dec_end _ => none

/-- The nodes of the list that the thread has taken from `to_be_deleted`, and neither
chained again nor deleted. -/
def Pc.Detached (next : A → Option A) (l : List A) : Pc A V → Prop
  | .dec _ nodes _ => Path next (nodes.map Ref.addr) l none
  | .delete_next nodes _ _ => Path next (some nodes.addr) l none
  | .delete_node nodes rest _ _ =>
      ∃ m, l = nodes.addr :: m ∧ Path next (rest.map Ref.addr) m none
  | .walk nodes last _ _ =>
      ∃ m m', l = m ++ last.addr :: m' ∧ Path next (some nodes.addr) m (some last.addr) ∧
        Path next (next last.addr) m' none
  | .chain_next first last k _ | .chain_cas first last k _ =>
      match k with
      | .delete_old _ => ∃ m, l = m ++ [last.addr] ∧ Path next (some first.addr) m (some last.addr)
      | .dec => l = [] ∧ first = last
  | _ => l = []

/-! ## The properties -/

/-- Who has a node that was popped. -/
inductive Owner (ι : Type*) where
  | pop (i : ι)
  | to_be_deleted
  | detached (i : ι)

/-- The CASes on `head` form a legal history of a stack, which it leaves with the values
`l`, the last one pushed first. Every node that is popped holds a value. -/
inductive Lifo : List (Ev ι V) → List V → Prop where
  | nil : Lifo [] []
  | push {h : List (Ev ι V)} {l : List V} (v : V) : Lifo h l → Lifo (h ++ [.push v]) (v :: l)
  | pop {h : List (Ev ι V)} {l : List V} (i : ι) {v : V} :
      Lifo h (v :: l) → Lifo (h ++ [.pop i (some v)]) l

/-- The values pushed. -/
def pushed (h : List (Ev ι V)) : List V :=
  h.filterMap fun
    | .push v => some v
    | .pop _ _ => none

/-- The values popped by thread `i`. -/
def poppedBy (i : ι) (h : List (Ev ι V)) : List V :=
  h.filterMap fun
    | .push _ => none
    | .pop j data => if j = i then data else none

/-- Nobody dereferences or deletes a node that has been deleted. -/
def Stack.Safe (s : Stack ι A V) : Prop := ∀ i r, (s.pc i).uses = some r → Valid s.heap r

/-- The owner has the node `a`. -/
def Stack.Has (s : Stack ι A V) (pending : List A) (detached : ι → List A) (a : A) :
    Owner ι → Prop
  | .pop i => (s.pc i).old.map Ref.addr = some a
  | .to_be_deleted => a ∈ pending
  | .detached i => a ∈ detached i

/-- Every node that was popped and is not deleted has one owner. -/
def Stack.Owned (s : Stack ι A V) : Prop :=
  ∃ (pending : List A) (detached : ι → List A),
    Path s.next s.to_be_deleted pending none ∧ pending.Nodup ∧
    (∀ i, (s.pc i).Detached s.next (detached i) ∧ (detached i).Nodup) ∧
    ∀ a, (s.heap a).live = true → s.popped a = true → ∃! o, s.Has pending detached a o

/-! ## Histories of a stack -/

section History

variable {h : List (Ev ι V)} {l : List V}

omit [DecidableEq A] in
theorem poppedBy_push (i : ι) (v : V) : poppedBy i (h ++ [.push v]) = poppedBy i h := by
  simp [poppedBy]

omit [DecidableEq A] in
theorem poppedBy_pop (i j : ι) (v : V) :
    poppedBy i (h ++ [.pop j (some v)]) = poppedBy i h ++ if j = i then [v] else [] := by
  by_cases hij : j = i <;> simp [poppedBy, hij]

/-- In a legal history the values pushed are those popped and those that are left. -/
theorem Lifo.pushed_eq [Fintype ι] (hl : Lifo h l) :
    (pushed h : Multiset V) = l + ∑ i, (poppedBy i h : Multiset V) := by
  induction hl with
  | nil => simp [pushed, poppedBy]
  | @push h l v hl ih =>
      have hpushed : pushed (h ++ [Ev.push (ι := ι) v]) = pushed h ++ [v] := by simp [pushed]
      simp only [poppedBy_push]
      rw [hpushed, ← Multiset.coe_add, ih, Multiset.coe_singleton, ← Multiset.cons_coe,
        ← Multiset.singleton_add]
      ac_rfl
  | @pop h l j v hl ih =>
      have hpushed : pushed (h ++ [Ev.pop j (some v)]) = pushed h := by simp [pushed]
      have hone : ∑ i, ((if j = i then [v] else [] : List V) : Multiset V) = {v} := by
        rw [Finset.sum_eq_single j]
        · simp
        · intro i _ hij
          rw [if_neg (Ne.symm hij)]
          rfl
        · exact fun hj => absurd (Finset.mem_univ j) hj
      simp only [poppedBy_pop, ← Multiset.coe_add]
      rw [hpushed, ih, Finset.sum_add_distrib, hone, ← Multiset.cons_coe, ← Multiset.singleton_add]
      ac_rfl

/-- No value is returned more often than it was pushed, if each thread returns no more than it
has popped. -/
theorem Lifo.returned_le [Fintype ι] (hl : Lifo h l) {returned : ι → List V}
    (hpre : ∀ i, returned i <+: poppedBy i h) :
    ∑ i, (returned i : Multiset V) ≤ (pushed h : Multiset V) := by
  rw [hl.pushed_eq]
  refine le_trans (Finset.sum_le_sum fun i _ => ?_) (Multiset.le_add_left _ _)
  exact Multiset.coe_le.mpr (hpre i).sublist.subperm

end History

end BoostNet.LockFreeStack
