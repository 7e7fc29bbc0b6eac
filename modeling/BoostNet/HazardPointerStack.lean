/-
`hazard_pointer_stack` of Concurrent/day17-LockFreeStack (HazardPointerStack.h).

A thread in `pop` publishes the head in its slot of `hazard_pointers` and looks at `head` again
before it reads `next` of the node. Who has popped a node looks through all slots for it, one
after the other, and deletes it if it is in none; else it puts it on the list
`nodes_to_reclaim`. After that it takes the whole list, looks for each of its nodes in the same
way, and deletes it or puts it back.

A thread is where it is in the source (`Pc`), with the locals it still needs; one atomic
operation, one access to a node, and one deletion is one step each. A weak CAS may fail although
it compares equal. An allocation may take any address that is not in use, one that has been freed
among them: a local pointer is a `Ref`, so that the model can say which node it was loaded for,
and every comparison is of addresses. Nodes and `data_to_reclaim` have addresses of their own,
for no pointer to the one is compared with a pointer to the other. What is freed stays readable,
and `Safe` says that nobody reads it.

The first `pop` of a thread finds it a slot, and throws if there is none; a thread that ends
gives it back. The atomics start out null. `popped` and `deleted` are the nodes that the CASes
on `head` have popped and those that were deleted; `history` and `returned` are as for the stack
that counts the threads in `pop`, and `thrown` are the threads whose `pop` has thrown.
-/
import BoostNet.LockFreeStack

set_option autoImplicit false

namespace BoostNet.HazardPointerStack

open Heap
open LockFreeStack (Ev Lifo pushed poppedBy)

/-! ## Nodes and threads -/

def max_hazard_pointers : Nat := 100

/-- An index of `hazard_pointers`. -/
abbrev Slot := Fin max_hazard_pointers

def Slot.first : Slot := ⟨0, by decide⟩

/-- `++i`, and `i < max_hazard_pointers`. -/
def Slot.next (k : Slot) : Option Slot :=
  if h : k.val + 1 < max_hazard_pointers then some ⟨k.val + 1, h⟩ else none

structure HazardPointer (ι A : Type*) where
  id : Option ι
  pointer : Option A

structure Node (A V : Type*) where
  data : Option V
  next : Option A

structure DataToReclaim (A B : Type*) where
  data : Option A
  next : Option B

/-- What follows `add_to_reclaim_list`: the end of `reclaim_later(old_head)`, or `current = next`
in the loop of `delete_nodes_with_no_hazards`. -/
inductive After (A B : Type*) where
  | later (old_head : Ref A)
  | loop (next : Option (Ref B))

/-- What a thread does next. -/
inductive Pc (A B V : Type*) where
  | idle
  -- `push`
  | push_next (data : V) (new_node : Ref A)
  | push_cas (data : V) (new_node : Ref A)
  -- `hp_owner`
  | bind (i : Slot)
  | unbind_pointer (hp : Slot)
  | unbind_id (hp : Slot)
  | ended
  -- `pop`
  | load_head (hp : Slot)
  | publish (hp : Slot) (old_head : Option A)
  | recheck (hp : Slot) (temp : Option A)
  | read_next (hp : Slot) (old_head : Ref A)
  | cas_head (hp : Slot) (old_head : Ref A) (next : Option A)
  | clear (hp : Slot) (old_head : Option (Ref A))
  | swap (old_head : Ref A)
  | check_old (old_head : Ref A) (i : Slot) (res : Option V)
  | delete_old (old_head : Ref A) (res : Option V)
  | new_reclaim (old_head : Ref A) (res : Option V)
  -- `add_to_reclaim_list`
  | add_next (reclaim_node : Ref B) (k : After A B) (res : Option V)
  | add_cas (reclaim_node : Ref B) (k : After A B) (res : Option V)
  -- `delete_nodes_with_no_hazards`
  | exchange (res : Option V)
  | loop_next (current : Ref B) (res : Option V)
  | loop_data (current : Ref B) (next : Option (Ref B)) (res : Option V)
  | check_data (data : Option (Ref A)) (i : Slot) (current : Ref B) (next : Option (Ref B))
      (res : Option V)
  | delete_data (data : Option (Ref A)) (current : Ref B) (next : Option (Ref B)) (res : Option V)
  | delete_current (current : Ref B) (next : Option (Ref B)) (res : Option V)

/-! ## The stack -/

structure Stack (ι A B V : Type*) where
  head : Option A := none
  nodes_to_reclaim : Option B := none
  hazard_pointers : Slot → HazardPointer ι A := fun _ => ⟨none, none⟩
  /-- The slot of the `hp_owner` of the thread, once it has one. -/
  hazzard : ι → Option Slot := fun _ => none
  heap : A → Cell (Node A V) := fun _ => { live := false, gen := 0, val := ⟨none, none⟩ }
  cells : B → Cell (DataToReclaim A B) := fun _ => { live := false, gen := 0, val := ⟨none, none⟩ }
  popped : List (Ref A) := []
  deleted : List (Ref A) := []
  history : List (Ev ι V) := []
  returned : ι → List V := fun _ => []
  thrown : List ι := []
  pc : ι → Pc A B V := fun _ => .idle

inductive Action (ι A B V : Type*) where
  /-- `push`, and the address of its `new node`. -/
  | push (i : ι) (data : V) (a : A)
  | pop (i : ι)
  /-- The address of the `new data_to_reclaim`. -/
  | reclaim (i : ι) (b : B)
  /-- The thread ends, and destroys its `hp_owner`. -/
  | exit (i : ι)
  | step (i : ι)
  /-- A weak CAS fails although it compares equal. -/
  | spurious (i : ι)

variable {ι A B V : Type*}

def Stack.next (s : Stack ι A B V) (a : A) : Option A := (s.heap a).val.next

def Stack.data (s : Stack ι A B V) (a : A) : Option V := (s.heap a).val.data

def Stack.cellNext (s : Stack ι A B V) (b : B) : Option B := (s.cells b).val.next

def Stack.cellData (s : Stack ι A B V) (b : B) : Option A := (s.cells b).val.data

def Stack.pointer (s : Stack ι A B V) (k : Slot) : Option A := (s.hazard_pointers k).pointer

def Stack.setPointer (s : Stack ι A B V) (k : Slot) (p : Option A) : Slot → HazardPointer ι A :=
  Function.update s.hazard_pointers k { s.hazard_pointers k with pointer := p }

def Stack.setId (s : Stack ι A B V) (k : Slot) (id : Option ι) : Slot → HazardPointer ι A :=
  Function.update s.hazard_pointers k { s.hazard_pointers k with id := id }

variable [DecidableEq A]

/-- `a->next = p`. -/
def Stack.setNext (s : Stack ι A B V) (a : A) (p : Option A) : A → Cell (Node A V) :=
  store s.heap a { (s.heap a).val with next := p }

/-- One round of the loop of `outstanding_hazard_pointers_for(p)`. -/
def Stack.check (s : Stack ι A B V) (p : Option A) (k : Slot) (found : Pc A B V)
    (again : Slot → Pc A B V) (unused : Pc A B V) : Pc A B V :=
  if s.pointer k = p then found
  else
    match k.next with
    | some k' => again k'
    | none => unused

variable [DecidableEq B]

omit [DecidableEq A] in
/-- `b->next = p`. -/
def Stack.setCellNext (s : Stack ι A B V) (b : B) (p : Option B) : B → Cell (DataToReclaim A B) :=
  store s.cells b { (s.cells b).val with next := p }

variable [DecidableEq ι]

omit [DecidableEq A] [DecidableEq B] in
def Stack.goto (s : Stack ι A B V) (i : ι) (p : Pc A B V) : Stack ι A B V :=
  { s with pc := Function.update s.pc i p }

omit [DecidableEq A] [DecidableEq B] in
/-- `pop` returns. -/
def Stack.ret (s : Stack ι A B V) (i : ι) (res : Option V) : Stack ι A B V :=
  { s.goto i .idle with
    returned := Function.update s.returned i (s.returned i ++ res.toList) }

omit [DecidableEq A] [DecidableEq B] in
/-- `while (current)`, and what follows it. -/
def Stack.loop (s : Stack ι A B V) (i : ι) (current : Option (Ref B)) (res : Option V) :
    Stack ι A B V :=
  match current with
  | none => s.ret i res
  | some c => s.goto i (.loop_next c res)

omit [DecidableEq A] [DecidableEq B] in
/-- The end of `add_to_reclaim_list`. -/
def Stack.added (s : Stack ι A B V) (i : ι) (k : After A B) (res : Option V) : Stack ι A B V :=
  match k with
  | .later _ => s.goto i (.exchange res)
  | .loop next => s.loop i next res

/-- The next step of a thread. -/
def Stack.stepThread (s : Stack ι A B V) (i : ι) : Option (Stack ι A B V) :=
  match s.pc i with
  | .idle | .ended | .new_reclaim _ _ => none
  | .push_next data new_node =>
      some { s.goto i (.push_cas data new_node) with heap := s.setNext new_node.addr s.head }
  | .push_cas data new_node =>
      if s.head = s.next new_node.addr then
        some { s.goto i .idle with
          head := some new_node.addr
          history := s.history ++ [.push data] }
      else
        some { s.goto i (.push_cas data new_node) with heap := s.setNext new_node.addr s.head }
  | .bind k =>
      if (s.hazard_pointers k).id = none then
        some { s.goto i (.load_head k) with
          hazard_pointers := s.setId k (some i)
          hazzard := Function.update s.hazzard i (some k) }
      else
        match k.next with
        | some k' => some (s.goto i (.bind k'))
        | none => some { s.goto i .idle with thrown := i :: s.thrown }
  | .unbind_pointer hp =>
      some { s.goto i (.unbind_id hp) with hazard_pointers := s.setPointer hp none }
  | .unbind_id hp => some { s.goto i .ended with hazard_pointers := s.setId hp none }
  | .load_head hp => some (s.goto i (.publish hp s.head))
  | .publish hp old_head =>
      some { s.goto i (.recheck hp old_head) with hazard_pointers := s.setPointer hp old_head }
  | .recheck hp temp =>
      if s.head = temp then
        match temp with
        | none => some (s.goto i (.clear hp none))
        | some a => some (s.goto i (.read_next hp (ref s.heap a)))
      else some (s.goto i (.publish hp s.head))
  | .read_next hp old_head => some (s.goto i (.cas_head hp old_head (s.next old_head.addr)))
  | .cas_head hp old_head next =>
      if s.head = some old_head.addr then
        some { s.goto i (.clear hp (some old_head)) with
          head := next
          popped := old_head :: s.popped
          history := s.history ++ [.pop i (s.data old_head.addr)] }
      else some (s.goto i (.publish hp s.head))
  | .clear hp old_head =>
      let t := { s with hazard_pointers := s.setPointer hp none }
      match old_head with
      | none => some (t.ret i none)
      | some r => some (t.goto i (.swap r))
  | .swap old_head =>
      some { s.goto i (.check_old old_head Slot.first (s.data old_head.addr)) with
        heap := store s.heap old_head.addr { (s.heap old_head.addr).val with data := none } }
  | .check_old old_head k res =>
      some (s.goto i (s.check (some old_head.addr) k (.new_reclaim old_head res)
        (fun k' => .check_old old_head k' res) (.delete_old old_head res)))
  | .delete_old old_head res =>
      some { s.goto i (.exchange res) with
        heap := free s.heap old_head.addr
        deleted := old_head :: s.deleted }
  | .add_next reclaim_node k res =>
      some { s.goto i (.add_cas reclaim_node k res) with
        cells := s.setCellNext reclaim_node.addr s.nodes_to_reclaim }
  | .add_cas reclaim_node k res =>
      if s.nodes_to_reclaim = s.cellNext reclaim_node.addr then
        some { s.added i k res with nodes_to_reclaim := some reclaim_node.addr }
      else
        some { s.goto i (.add_cas reclaim_node k res) with
          cells := s.setCellNext reclaim_node.addr s.nodes_to_reclaim }
  | .exchange res =>
      some { s.loop i (s.nodes_to_reclaim.map (ref s.cells)) res with nodes_to_reclaim := none }
  | .loop_next current res =>
      some (s.goto i (.loop_data current ((s.cellNext current.addr).map (ref s.cells)) res))
  | .loop_data current next res =>
      some (s.goto i (.check_data ((s.cellData current.addr).map (ref s.heap)) Slot.first current
        next res))
  | .check_data data k current next res =>
      some (s.goto i (s.check (data.map Ref.addr) k (.add_next current (.loop next) res)
        (fun k' => .check_data data k' current next res) (.delete_data data current next res)))
  | .delete_data data current next res =>
      let t := s.goto i (.delete_current current next res)
      match data with
      | none => some t
      | some r => some { t with heap := free s.heap r.addr, deleted := r :: s.deleted }
  | .delete_current current next res =>
      some { s.loop i next res with cells := free s.cells current.addr }

def Stack.step (s : Stack ι A B V) : Action ι A B V → Option (Stack ι A B V)
  | .push i data a =>
      match s.pc i with
      | .idle =>
          if (s.heap a).live then none
          else
            let heap := alloc s.heap a ⟨some data, none⟩
            some { s.goto i (.push_next data (ref heap a)) with heap := heap }
      | _ => none
  | .pop i =>
      match s.pc i with
      | .idle =>
          match s.hazzard i with
          | some hp => some (s.goto i (.load_head hp))
          | none => some (s.goto i (.bind Slot.first))
      | _ => none
  | .reclaim i b =>
      match s.pc i with
      | .new_reclaim old_head res =>
          if (s.cells b).live then none
          else
            let cells := alloc s.cells b ⟨some old_head.addr, none⟩
            some { s.goto i (.add_next (ref cells b) (.later old_head) res) with cells := cells }
      | _ => none
  | .exit i =>
      match s.pc i with
      | .idle =>
          match s.hazzard i with
          | some hp => some (s.goto i (.unbind_pointer hp))
          | none => some (s.goto i .ended)
      | _ => none
  | .step i => s.stepThread i
  | .spurious i =>
      match s.pc i with
      | .push_cas data new_node =>
          some { s.goto i (.push_cas data new_node) with heap := s.setNext new_node.addr s.head }
      | .add_cas reclaim_node k res =>
          some { s.goto i (.add_cas reclaim_node k res) with
            cells := s.setCellNext reclaim_node.addr s.nodes_to_reclaim }
      | _ => none

def system (ι A B V : Type*) [DecidableEq ι] [DecidableEq A] [DecidableEq B] :
    Lts (Stack ι A B V) (Action ι A B V) where
  init := {}
  step := Stack.step

/-! ## The properties -/

/-- The node that the next step of the thread reads, writes or deletes. -/
def Pc.uses : Pc A B V → Option (Ref A)
  | .push_next _ r | .push_cas _ r | .read_next _ r | .swap r | .delete_old r _ => some r
  | .delete_data data _ _ _ => data
  | _ => none

/-- The `data_to_reclaim` that the next step of the thread reads, writes or deletes. -/
def Pc.usesCell : Pc A B V → Option (Ref B)
  | .add_next c _ _ | .add_cas c _ _ | .loop_next c _ | .loop_data c _ _ | .delete_data _ c _ _
  | .delete_current c _ _ => some c
  | _ => none

/-- Nobody dereferences or deletes what has been deleted. -/
def Stack.Safe (s : Stack ι A B V) : Prop :=
  ∀ i, (∀ r, (s.pc i).uses = some r → Valid s.heap r) ∧
    ∀ c, (s.pc i).usesCell = some c → Valid s.cells c

/-- The node that the thread has popped, and neither put on the list nor deleted. -/
def Pc.old : Pc A B V → Option (Ref A)
  | .clear _ o => o
  | .swap r | .check_old r _ _ | .delete_old r _ | .new_reclaim r _ => some r
  | .add_next _ k _ | .add_cas _ k _ =>
      match k with
      | .later r => some r
      | .loop _ => none
  | _ => none

/-- The cells of the list that the thread has taken, and neither put back nor deleted. -/
def Pc.Detached (next : B → Option B) (l : List B) : Pc A B V → Prop
  | .loop_next c _ => Path next (some c.addr) l none
  | .loop_data c rest _ | .check_data _ _ c rest _ | .delete_data _ c rest _ =>
      ∃ m, l = c.addr :: m ∧ Path next (rest.map Ref.addr) m none
  | .add_next c k _ | .add_cas c k _ =>
      match k with
      | .later _ => l = []
      | .loop rest => ∃ m, l = c.addr :: m ∧ Path next (rest.map Ref.addr) m none
  | .delete_current _ rest _ => Path next (rest.map Ref.addr) l none
  | _ => l = []

/-- Who has a node that was popped. -/
inductive Owner (ι : Type*) where
  | pop (i : ι)
  | nodes_to_reclaim
  | detached (i : ι)

/-- The owner has the node `a`. -/
def Stack.Has (s : Stack ι A B V) (reclaim : List B) (detached : ι → List B) (a : A) :
    Owner ι → Prop
  | .pop i => (s.pc i).old.map Ref.addr = some a
  | .nodes_to_reclaim => some a ∈ reclaim.map s.cellData
  | .detached i => some a ∈ (detached i).map s.cellData

/-- Nodes are deleted once, after they were popped, and a node that was popped and is not deleted
has one owner, and is there once on a list. -/
structure Stack.Owned (s : Stack ι A B V) (reclaim : List B) (detached : ι → List B) : Prop where
  deleted_once : s.deleted.Nodup
  deleted_popped : s.deleted ⊆ s.popped
  listed : Path s.cellNext s.nodes_to_reclaim reclaim none
  listed_once : (reclaim.map s.cellData).Nodup
  taken : ∀ i, (s.pc i).Detached s.cellNext (detached i)
  taken_once : ∀ i, ((detached i).map s.cellData).Nodup
  owner : ∀ r ∈ s.popped, r ∉ s.deleted → ∃! o, s.Has reclaim detached r.addr o

/-- While there are not more threads than slots, no `pop` throws. -/
def Stack.Slots [Fintype ι] (s : Stack ι A B V) : Prop :=
  Fintype.card ι ≤ max_hazard_pointers → s.thrown = []

end BoostNet.HazardPointerStack
