/-
The stacks of Concurrent/day17-LockFreeStack with split reference counts,
`ref_count_stack` (RefCountStack.h) and `single_ref_stack` (SingleRefStack.h).

`head` is a pointer and a count of the references taken through it. A `pop` first takes a
reference, by a CAS that adds 1 to the count; then it tries to replace `head` by what is behind
the node. Who succeeds folds the count into the node's own, who fails takes 1 off that, and who
makes it 0 deletes the node. The pointer to a node that another is pushed upon is kept, with its
count, in the `next` of that one, and comes back from there.

The classes differ in one place: `single_ref_stack` takes its reference by a weak CAS, which may
fail although it compares equal. A thread is where it is in the source (`Pc`), with the locals it
still needs; one atomic operation, one access to a node, and one deletion is one step each. An
allocation may take any address that is not in use, one that has been freed among them: a local
pointer is a `Ref`, and every comparison is of addresses and counts. A node stays readable when
it is freed, and `Safe` says that nobody reads it.

The counts are integers without bounds, and that of a new node starts at 0. `popped` and
`deleted` are the nodes that the CASes on `head` have popped and those that were deleted;
`history` and `returned` are as for the stack that counts the threads in `pop`.
-/
import BoostNet.LockFreeStack

set_option autoImplicit false

namespace BoostNet.RefCountStack

open Heap
open LockFreeStack (Ev Lifo pushed poppedBy)

/-! ## Nodes and threads -/

inductive Kind
  | ref_count_stack | single_ref_stack
  deriving DecidableEq

structure CountedNodePtr (A : Type*) where
  external_count : Int
  ptr : Option A
  deriving DecidableEq

structure Node (A V : Type*) where
  data : Option V
  internal_count : Int
  next : CountedNodePtr A

/-- What a thread does next. `count` is `old_head.external_count` once the reference is taken. -/
inductive Pc (A V : Type*) where
  | idle
  -- `push`
  | push_next (data : V) (new_node : Ref A)
  | push_cas (data : V) (new_node : Ref A)
  -- `pop`
  | load_head
  | inc (old_head : CountedNodePtr A)
  | read_next (count : Int) (ptr : Ref A)
  | cas_head (count : Int) (ptr : Ref A) (next : CountedNodePtr A)
  | swap (count : Int) (ptr : Ref A)
  | fetch_add (count : Int) (ptr : Ref A) (res : Option V)
  | delete_old (ptr : Ref A) (res : Option V)
  | fetch_sub (ptr : Ref A) (old_head : CountedNodePtr A)
  -- `ref_count_stack` loads the count before the `delete`, and has no use for it
  | delete_ptr (ptr : Ref A) (old_head : CountedNodePtr A)

/-! ## The stack -/

structure Stack (ι A V : Type*) where
  head : CountedNodePtr A := ⟨0, none⟩
  heap : A → Cell (Node A V) := fun _ => { live := false, gen := 0, val := ⟨none, 0, ⟨0, none⟩⟩ }
  popped : List (Ref A) := []
  deleted : List (Ref A) := []
  history : List (Ev ι V) := []
  returned : ι → List V := fun _ => []
  pc : ι → Pc A V := fun _ => .idle

inductive Action (ι A V : Type*) where
  /-- `push`, and the address of its `new node`. -/
  | push (i : ι) (data : V) (a : A)
  | pop (i : ι)
  | step (i : ι)
  /-- A weak CAS fails although it compares equal. -/
  | spurious (i : ι)

variable {ι A V : Type*}

def Stack.next (s : Stack ι A V) (a : A) : CountedNodePtr A := (s.heap a).val.next

def Stack.data (s : Stack ι A V) (a : A) : Option V := (s.heap a).val.data

def Stack.internal (s : Stack ι A V) (a : A) : Int := (s.heap a).val.internal_count

variable [DecidableEq ι] [DecidableEq A]

def Stack.goto (s : Stack ι A V) (i : ι) (p : Pc A V) : Stack ι A V :=
  { s with pc := Function.update s.pc i p }

/-- `pop` returns. -/
def Stack.ret (s : Stack ι A V) (i : ι) (res : Option V) : Stack ι A V :=
  { s.goto i .idle with
    returned := Function.update s.returned i (s.returned i ++ res.toList) }

omit [DecidableEq ι] in
/-- `a->next = p`. -/
def Stack.setNext (s : Stack ι A V) (a : A) (p : CountedNodePtr A) : A → Cell (Node A V) :=
  store s.heap a { (s.heap a).val with next := p }

omit [DecidableEq ι] in
/-- `a->internal_count = n`. -/
def Stack.setInternal (s : Stack ι A V) (a : A) (n : Int) : A → Cell (Node A V) :=
  store s.heap a { (s.heap a).val with internal_count := n }

/-- The next step of a thread. -/
def Stack.stepThread (s : Stack ι A V) (i : ι) : Option (Stack ι A V) :=
  match s.pc i with
  | .idle => none
  | .push_next data new_node =>
      some { s.goto i (.push_cas data new_node) with heap := s.setNext new_node.addr s.head }
  | .push_cas data new_node =>
      if s.head = s.next new_node.addr then
        some { s.goto i .idle with
          head := ⟨1, some new_node.addr⟩
          history := s.history ++ [.push data] }
      else
        some { s.goto i (.push_cas data new_node) with heap := s.setNext new_node.addr s.head }
  | .load_head => some (s.goto i (.inc s.head))
  | .inc old_head =>
      if s.head = old_head then
        let t := { s with head := { old_head with external_count := old_head.external_count + 1 } }
        match old_head.ptr with
        | none => some (t.ret i none)
        | some a => some (t.goto i (.read_next (old_head.external_count + 1) (ref s.heap a)))
      else some (s.goto i (.inc s.head))
  | .read_next count ptr => some (s.goto i (.cas_head count ptr (s.next ptr.addr)))
  | .cas_head count ptr next =>
      if s.head = ⟨count, some ptr.addr⟩ then
        some { s.goto i (.swap count ptr) with
          head := next
          popped := ptr :: s.popped
          history := s.history ++ [.pop i (s.data ptr.addr)] }
      else some (s.goto i (.fetch_sub ptr s.head))
  | .swap count ptr =>
      some { s.goto i (.fetch_add count ptr (s.data ptr.addr)) with
        heap := store s.heap ptr.addr { (s.heap ptr.addr).val with data := none } }
  | .fetch_add count ptr res =>
      let t := { s with heap := s.setInternal ptr.addr (s.internal ptr.addr + (count - 2)) }
      some (if s.internal ptr.addr = -(count - 2) then t.goto i (.delete_old ptr res)
        else t.ret i res)
  | .delete_old ptr res =>
      some { s.ret i res with
        heap := free s.heap ptr.addr
        deleted := ptr :: s.deleted }
  | .fetch_sub ptr old_head =>
      some { s.goto i (if s.internal ptr.addr = 1 then .delete_ptr ptr old_head
          else .inc old_head) with
        heap := s.setInternal ptr.addr (s.internal ptr.addr - 1) }
  | .delete_ptr ptr old_head =>
      some { s.goto i (.inc old_head) with
        heap := free s.heap ptr.addr
        deleted := ptr :: s.deleted }

def Stack.step (kind : Kind) (s : Stack ι A V) : Action ι A V → Option (Stack ι A V)
  | .push i data a =>
      match s.pc i with
      | .idle =>
          if (s.heap a).live then none
          else
            let heap := alloc s.heap a ⟨some data, 0, ⟨0, none⟩⟩
            some { s.goto i (.push_next data (ref heap a)) with heap := heap }
      | _ => none
  | .pop i =>
      match s.pc i with
      | .idle => some (s.goto i .load_head)
      | _ => none
  | .step i => s.stepThread i
  | .spurious i =>
      match s.pc i with
      | .push_cas data new_node =>
          some { s.goto i (.push_cas data new_node) with heap := s.setNext new_node.addr s.head }
      | .inc _ => if kind = .single_ref_stack then some (s.goto i (.inc s.head)) else none
      | _ => none

def system (kind : Kind) (ι A V : Type*) [DecidableEq ι] [DecidableEq A] :
    Lts (Stack ι A V) (Action ι A V) where
  init := {}
  step := Stack.step kind

/-! ## The properties -/

/-- The node that the next step of the thread reads, writes or deletes. -/
def Pc.uses : Pc A V → Option (Ref A)
  | .push_next _ r | .push_cas _ r | .read_next _ r | .swap _ r | .fetch_add _ r _
  | .delete_old r _ | .fetch_sub r _ | .delete_ptr r _ => some r
  | .idle | .load_head | .inc _ | .cas_head _ _ _ => none

/-- Nobody dereferences or deletes a node that has been deleted. -/
def Stack.Safe (s : Stack ι A V) : Prop := ∀ i r, (s.pc i).uses = some r → Valid s.heap r

/-- Only nodes that were popped are deleted, once each, and when all operations have finished
all of them have been. -/
structure Stack.Reclaimed (s : Stack ι A V) : Prop where
  popped_once : s.popped.Nodup
  deleted_once : s.deleted.Nodup
  deleted_popped : s.deleted ⊆ s.popped
  finished : (∀ i, s.pc i = .idle) → s.deleted.Perm s.popped

end BoostNet.RefCountStack
