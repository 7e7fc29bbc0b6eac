/-
The lock-free queue of Concurrent/day18-LockFreeQue (lockfreeque.h): split reference
counts, and pushes that help each other to advance the tail.

The queue is a chain of nodes from `head` to `tail`; the last node holds no value.
`push` sets the data of the tail node, links a node of its own behind it and advances
`tail`; a push that finds the data already set links its own node and advances `tail`
for the other. `pop` advances `head` and takes the data of the node it has passed.

A thread is where it is in the source (`Pc`), with the locals it still needs; one
atomic load, CAS or exchange is one step, together with the allocations and
deletions before the next one. `increase_external_count`, `set_new_tail`,
`free_external_counter` and `release_ref` are inlined into their callers, and `After`
and `SetTail` say what the caller does next.

A node is an address, 0 is `nullptr`, and `data`, `next` and `count` are the memory;
an address is not used twice. `deleted` records what was deleted and nothing reads
it, so a node keeps its content when it is deleted. A value stands for the `T*` to
it. `internal_count` and `external_counters` have the widths of their bit-fields, and
`external_count` is an integer without bounds. `destruct_count`, `construct_count`
and the output are left out. `pushes` and `pops` are the values of the calls that
have returned.
-/
import BoostNet.Lts
import Mathlib.Logic.Function.Basic
import Mathlib.Tactic.Common

set_option autoImplicit false

namespace BoostNet.LockFreeQue

/-! ## Nodes and counters -/

/-- `counted_node_ptr`; the default is that of its constructor. -/
structure CountedNodePtr where
  external_count : Int := 0
  ptr : Nat := 0
  deriving DecidableEq

/-- `node_counter`; the default is that of `node`'s constructor. -/
structure NodeCounter where
  internal_count : BitVec 30 := 0
  external_counters : BitVec 2 := 2
  deriving DecidableEq

/-- `increase_external_count`'s new value. -/
def CountedNodePtr.increase (p : CountedNodePtr) : CountedNodePtr :=
  { p with external_count := p.external_count + 1 }

/-- `release_ref`'s new value. -/
def NodeCounter.release (c : NodeCounter) : NodeCounter :=
  { c with internal_count := c.internal_count - 1 }

/-- `free_external_counter`'s new value. -/
def NodeCounter.free (c : NodeCounter) (external_count : Int) : NodeCounter where
  internal_count := c.internal_count + BitVec.ofInt 30 (external_count - 2)
  external_counters := c.external_counters - 1

/-! ## Threads -/

/-- What a thread does after `release_ref` or `free_external_counter`: return from
`push`, go round `push`'s loop, return from `pop` with or without a value, go round
`pop`'s loop. -/
inductive After (V : Type*) where
  | push_done (new_value : V)
  | push_again (new_value : V) (new_next old_tail : CountedNodePtr)
  | pop_done (res : Option V)
  | pop_empty
  | pop_again (old_head : CountedNodePtr)

/-- Which call of `set_new_tail` it is: that of a push that has set the data, or that
of a push that helps and has still to push its value. -/
inductive SetTail (V : Type*) where
  | done (new_value : V)
  | again (new_value : V) (new_next : CountedNodePtr)

/-- What follows `set_new_tail`, with the `old_tail` it leaves. -/
def SetTail.after {V : Type*} (old_tail : CountedNodePtr) : SetTail V → After V
  | .done new_value => .push_done new_value
  | .again new_value new_next => .push_again new_value new_next old_tail

/-- What a thread does next. `push_data` and `push_next_cas` are the CASes numbered 6
and 7 in the source, `help_next` is number 11. -/
inductive Pc (V : Type*) where
  | idle
  | push_load (new_value : V) (new_next : CountedNodePtr)
  | push_inc (new_value : V) (new_next old_tail : CountedNodePtr)
  | push_data (new_value : V) (new_next old_tail : CountedNodePtr)
  | push_next_load (new_value : V) (new_next old_tail : CountedNodePtr)
  | push_next_cas (new_value : V) (new_next old_tail : CountedNodePtr)
  | help_next (new_value : V) (new_next old_tail : CountedNodePtr)
  | set_new_tail (current_tail_ptr : Nat) (old_tail new_tail : CountedNodePtr) (k : SetTail V)
  | free_load (old_node_ptr : CountedNodePtr) (k : After V)
  | free_cas (old_node_ptr : CountedNodePtr) (old_counter : NodeCounter) (k : After V)
  | release_load (ptr : Nat) (k : After V)
  | release_cas (ptr : Nat) (old_counter : NodeCounter) (k : After V)
  | pop_load
  | pop_inc (old_head : CountedNodePtr)
  | pop_tail (old_head : CountedNodePtr)
  | pop_next (old_head : CountedNodePtr)
  | pop_cas (old_head next : CountedNodePtr)
  | pop_exchange (old_head : CountedNodePtr)

/-- The end of `set_new_tail`. -/
def setTailEnd {V : Type*} (current_tail_ptr : Nat) (old_tail : CountedNodePtr)
    (k : SetTail V) : Pc V :=
  if old_tail.ptr = current_tail_ptr then .free_load old_tail (k.after old_tail)
  else .release_load current_tail_ptr (k.after old_tail)

/-! ## The queue -/

variable {ι V : Type*}

/-- The members, the memory, the threads and the calls that have returned. The
constructor has allocated node 1. -/
structure Que (ι V : Type*) where
  head : CountedNodePtr := ⟨1, 1⟩
  tail : CountedNodePtr := ⟨1, 1⟩
  data : Nat → Option V := fun _ => none
  next : Nat → CountedNodePtr := fun _ => {}
  count : Nat → NodeCounter := fun _ => {}
  deleted : Nat → Bool := fun _ => false
  /-- The next address to be allocated. -/
  fresh : Nat := 2
  pc : ι → Pc V := fun _ => .idle
  pushes : List V := []
  pops : List V := []

/-- A thread calls `push` or `pop`, takes its next step, or finds that
`compare_exchange_weak` fails. -/
inductive Action (ι V : Type*) where
  | push (i : ι) (new_value : V)
  | pop (i : ι)
  | step (i : ι)
  | spurious (i : ι)

variable [DecidableEq ι]

def Que.goto (s : Que ι V) (i : ι) (p : Pc V) : Que ι V :=
  { s with pc := Function.update s.pc i p }

/-- `new node`, at the address `s.fresh`. -/
def Que.alloc (s : Que ι V) : Que ι V :=
  { s with
    data := Function.update s.data s.fresh none
    next := Function.update s.next s.fresh {}
    count := Function.update s.count s.fresh {}
    fresh := s.fresh + 1 }

/-- The successful CAS on the count of a node, which deletes it when it is the last. -/
def Que.setCount (s : Que ι V) (ptr : Nat) (new_counter : NodeCounter) : Que ι V :=
  { s with
    count := Function.update s.count ptr new_counter
    deleted :=
      if new_counter.internal_count = 0 ∧ new_counter.external_counters = 0 then
        Function.update s.deleted ptr true
      else s.deleted }

def Que.resume (s : Que ι V) (i : ι) : After V → Que ι V
  | .push_done new_value => { s.goto i .idle with pushes := s.pushes ++ [new_value] }
  | .push_again new_value new_next old_tail => s.goto i (.push_inc new_value new_next old_tail)
  | .pop_done res => { s.goto i .idle with pops := s.pops ++ res.toList }
  | .pop_empty => s.goto i .idle
  | .pop_again old_head => s.goto i (.pop_inc old_head)

/-- `set_new_tail`'s CAS fails and has loaded `tail`: once more, or the end. -/
def Que.setTailFail (s : Que ι V) (i : ι) (current_tail_ptr : Nat) (new_tail : CountedNodePtr)
    (k : SetTail V) : Que ι V :=
  if s.tail.ptr = current_tail_ptr then
    s.goto i (.set_new_tail current_tail_ptr s.tail new_tail k)
  else s.goto i (setTailEnd current_tail_ptr s.tail k)

/-- One step of a thread inside `push` or `pop`. -/
def Que.stepThread (s : Que ι V) (i : ι) : Option (Que ι V) :=
  match s.pc i with
  | .idle => none
  | .push_load v new_next => some (s.goto i (.push_inc v new_next s.tail))
  | .push_inc v new_next old_tail =>
      if s.tail = old_tail then
        some { s.goto i (.push_data v new_next old_tail.increase) with
          tail := old_tail.increase }
      else some (s.goto i (.push_inc v new_next s.tail))
  | .push_data v new_next old_tail =>
      match s.data old_tail.ptr with
      | none =>
          some { s.goto i (.push_next_load v new_next old_tail) with
            data := Function.update s.data old_tail.ptr (some v) }
      | some _ => some (s.goto i (.help_next v new_next old_tail))
  -- `now_next` is loaded and not used
  | .push_next_load v new_next old_tail => some (s.goto i (.push_next_cas v new_next old_tail))
  | .push_next_cas v new_next old_tail =>
      if s.next old_tail.ptr = {} then
        some { s.goto i (.set_new_tail old_tail.ptr old_tail new_next (.done v)) with
          next := Function.update s.next old_tail.ptr new_next }
      else
        some { s.goto i (.set_new_tail old_tail.ptr old_tail (s.next old_tail.ptr) (.done v)) with
          deleted := Function.update s.deleted new_next.ptr true }
  | .help_next v new_next old_tail =>
      if s.next old_tail.ptr = {} then
        some { s.alloc.goto i (.set_new_tail old_tail.ptr old_tail new_next
            (.again v { new_next with ptr := s.fresh })) with
          next := Function.update s.alloc.next old_tail.ptr new_next }
      else
        some (s.goto i (.set_new_tail old_tail.ptr old_tail (s.next old_tail.ptr)
          (.again v new_next)))
  | .set_new_tail current_tail_ptr old_tail new_tail k =>
      if s.tail = old_tail then
        some { s.goto i (setTailEnd current_tail_ptr old_tail k) with tail := new_tail }
      else some (s.setTailFail i current_tail_ptr new_tail k)
  | .free_load old_node_ptr k =>
      some (s.goto i (.free_cas old_node_ptr (s.count old_node_ptr.ptr) k))
  | .free_cas old_node_ptr old_counter k =>
      if s.count old_node_ptr.ptr = old_counter then
        some ((s.setCount old_node_ptr.ptr
          (old_counter.free old_node_ptr.external_count)).resume i k)
      else some (s.goto i (.free_cas old_node_ptr (s.count old_node_ptr.ptr) k))
  | .release_load ptr k => some (s.goto i (.release_cas ptr (s.count ptr) k))
  | .release_cas ptr old_counter k =>
      if s.count ptr = old_counter then
        some ((s.setCount ptr old_counter.release).resume i k)
      else some (s.goto i (.release_cas ptr (s.count ptr) k))
  | .pop_load => some (s.goto i (.pop_inc s.head))
  | .pop_inc old_head =>
      if s.head = old_head then
        some { s.goto i (.pop_tail old_head.increase) with head := old_head.increase }
      else some (s.goto i (.pop_inc s.head))
  | .pop_tail old_head =>
      if old_head.ptr = s.tail.ptr then some (s.goto i (.release_load old_head.ptr .pop_empty))
      else some (s.goto i (.pop_next old_head))
  | .pop_next old_head => some (s.goto i (.pop_cas old_head (s.next old_head.ptr)))
  | .pop_cas old_head next =>
      if s.head = old_head then some { s.goto i (.pop_exchange old_head) with head := next }
      else some (s.goto i (.release_load old_head.ptr (.pop_again s.head)))
  | .pop_exchange old_head =>
      some { s.goto i (.free_load old_head (.pop_done (s.data old_head.ptr))) with
        data := Function.update s.data old_head.ptr none }

def Que.step (s : Que ι V) : Action ι V → Option (Que ι V)
  | .push i v =>
      match s.pc i with
      | .idle => some (s.alloc.goto i (.push_load v ⟨1, s.fresh⟩))
      | _ => none
  | .pop i =>
      match s.pc i with
      | .idle => some (s.goto i .pop_load)
      | _ => none
  | .step i => s.stepThread i
  | .spurious i =>
      match s.pc i with
      | .set_new_tail current_tail_ptr _ new_tail k =>
          some (s.setTailFail i current_tail_ptr new_tail k)
      | _ => none

def system (ι V : Type*) [DecidableEq ι] : Lts (Que ι V) (Action ι V) where
  init := {}
  step := Que.step

end BoostNet.LockFreeQue
