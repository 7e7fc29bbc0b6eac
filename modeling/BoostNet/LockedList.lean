/-
The two lists with a mutex in every node, `threadsafe_list` and `double_push_list`, and any
threads that use them.

Both are a head node that holds no value, and nodes linked from it by `next`. A traversal
goes hand over hand: it locks the next node before it gives up the one it stands on. Both
classes have the same `push_front`, `for_each`, `find_first_if` and `remove_if`;
`double_push_list` has `remove_first`, `insert_if` and `push_back` besides, and keeps in
`last_node_ptr`, under `last_ptr_mtx`, where `push_back` is to append. One model is given
for both; `Kind` says which of them it is.

Every lock, every unlock and every read or write of a pointer is one step. Nodes are numbered
in the order in which they are allocated, the head is node `0`. `std::lock` takes both mutexes
in one step: the locks it takes and gives back on the way only delay other threads, whatever
their order.
-/
import Mathlib.Data.List.Basic
import BoostNet.Lts

set_option autoImplicit false

namespace BoostNet

namespace LockedList

inductive Kind
  | threadsafe_list | double_push_list
  deriving DecidableEq

/-- The traversals. A predicate is given the value of a node. -/
inductive Op (T : Type*)
  | for_each
  | find_first_if (p : T → Bool)
  | remove_if (p : T → Bool)
  | remove_first (p : T → Bool)
  | insert_if (p : T → Bool) (value : T)

inductive Call (T : Type*)
  | push_front (value : T)
  | push_back (value : T)
  | traverse (op : Op T)

/-- Who updates `last_node_ptr`: a `push_front` of the node `n`, or a removal of `nxt`
behind `cur`. -/
inductive After (T : Type*)
  | push (n : Nat)
  | remove (op : Op T) (cur nxt : Nat)

/-- Where a thread is. `n` is a new node, `cur` and `nxt` are `current` and `next`. -/
inductive Pc (T : Type*)
  | idle
  -- push_front
  | new_front (value : T)
  | front_lock (n : Nat)
  | front_next (n : Nat)
  | front_head (n : Nat)
  | front_last (n : Nat)
  | front_unlock
  -- push_back: `p` is `last_node_ptr` as `std::lock` was given it, `q` as it is read afterwards
  | new_back (value : T)
  | back_read (n : Nat)
  | back_lock (n p : Nat)
  | back_adopt (n p : Nat)
  | back_next (n p q : Nat)
  | back_last (n p q : Nat)
  | back_unlock_last (p q : Nat)
  | back_unlock (p q : Nat)
  -- the loops
  | head_lock (op : Op T)
  | next (op : Op T) (cur : Nat)
  | next_lock (op : Op T) (cur nxt : Nat)
  | locked (op : Op T) (cur nxt : Nat)
  | visit (op : Op T) (nxt : Nat)
  | pass (op : Op T) (cur nxt : Nat)
  -- remove_if, remove_first
  | unlink (op : Op T) (cur nxt : Nat)
  | relink (op : Op T) (cur nxt : Nat)
  | removed_last (op : Op T) (cur nxt : Nat)
  | unlock_next (op : Op T) (cur nxt : Nat)
  | destroy (op : Op T) (cur nxt : Nat)
  -- insert_if
  | insert_new (op : Op T) (value : T) (cur nxt : Nat)
  | insert_old (op : Op T) (n cur nxt : Nat)
  | insert_next (op : Op T) (n cur nxt : Nat)
  | insert_head (op : Op T) (n cur nxt : Nat)
  | insert_unlock (op : Op T) (cur nxt : Nat)
  -- last_ptr_mtx
  | last_lock (k : After T)
  | last_set (k : After T)
  | last_unlock (k : After T)
  -- the guard of the last node is destroyed, `found` is what a search returns
  | unlock (op : Op T) (found : Option T) (cur : Nat)

end LockedList

open LockedList

/-- The list: the fields of its nodes, the pointer to its last node, and where the threads
are. `pushed` are the nodes that have been put into the list, the latest first, `removed` those
that have been taken out. A `for_each` has `snapshot`, the nodes of the list when it locked
the head, and `visited`, those whose value it has given to `f`. -/
structure LockedList (ι T : Type*) where
  count : Nat
  live : Nat → Bool
  data : Nat → Option T
  next : Nat → Option Nat
  m : Nat → Option ι
  last_node_ptr : Nat
  last_ptr_mtx : Option ι
  pc : ι → Pc T
  pushed : List Nat
  removed : List Nat
  snapshot : ι → List Nat
  visited : ι → List Nat

namespace LockedList

variable {ι T : Type*}

inductive Event (ι T : Type*)
  | call (i : ι) (c : Call T)
  | run (i : ι)

/-- The nodes whose fields the next step of a thread reads or writes. -/
def Pc.derefs : Pc T → List Nat
  | .front_lock _ | .front_head _ | .front_unlock | .head_lock _ => [0]
  | .front_next n | .front_last n => [0, n]
  | .back_lock _ p => [p]
  | .back_next _ _ q | .back_last _ _ q | .back_unlock _ q => [q]
  | .next _ cur | .pass _ cur _ | .unlink _ cur _ | .removed_last _ cur _ => [cur]
  | .next_lock _ _ nxt | .visit _ nxt | .unlock_next _ _ nxt | .destroy _ _ nxt => [nxt]
  | .locked _ cur nxt | .relink _ cur nxt => [cur, nxt]
  | .insert_old _ _ cur _ | .insert_head _ _ cur _ => [cur]
  | .insert_next _ n _ _ => [n]
  | .insert_unlock _ _ nxt => [nxt]
  | .last_set (.push _) => [0]
  | .unlock _ _ cur => [cur]
  | _ => []

/-- The node whose mutex a thread waits for. -/
def Pc.waits : Pc T → Option Nat
  | .front_lock _ | .head_lock _ => some 0
  | .back_lock _ p => some p
  | .next_lock _ _ nxt => some nxt
  | _ => none

/-- The nodes that are in the list, in the order in which `push_front` leaves them. -/
def present (s : LockedList ι T) : List Nat := s.pushed.filter (· ∉ s.removed)

/-- The destructor of a node frees the nodes behind it. -/
def release (next : Nat → Option Nat) : Nat → Option Nat → (Nat → Bool) → (Nat → Bool)
  | 0, _, live => live
  | _, none, live => live
  | k + 1, some a, live => release next k (next a) (Function.update live a false)

@[simp] theorem release_none (next : Nat → Option Nat) (k : Nat) (live : Nat → Bool) :
    release next k none live = live := by
  cases k <;> rfl

variable [DecidableEq ι]

def goto (s : LockedList ι T) (i : ι) (p : Pc T) : LockedList ι T :=
  { s with pc := Function.update s.pc i p }

/-- `new node(value)`. -/
def new_node (s : LockedList ι T) (value : T) : LockedList ι T :=
  { s with
    count := s.count + 1
    live := Function.update s.live s.count true
    data := Function.update s.data s.count (some value)
    next := Function.update s.next s.count none
    m := Function.update s.m s.count none }

/-- `m.lock()` of the node `a`. -/
def lock (s : LockedList ι T) (i : ι) (a : Nat) (t : LockedList ι T) : Option (LockedList ι T) :=
  if s.m a = none then some { t with m := Function.update s.m a (some i) } else none

/-- `m.unlock()` of the node `a`. -/
def unlock_m (s : LockedList ι T) (a : Nat) : LockedList ι T :=
  { s with m := Function.update s.m a none }

def set_next (s : LockedList ι T) (a : Nat) (b : Option Nat) : LockedList ι T :=
  { s with next := Function.update s.next a b }

/-- What the loop does with a node it has locked: `for_each` and `find_first_if` unlock the
one before it, the others ask the predicate first. -/
def locked_step (s : LockedList ι T) (i : ι) (op : Op T) (cur nxt : Nat) :
    Option (LockedList ι T) :=
  match op with
  | .for_each | .find_first_if _ => some ((s.unlock_m cur).goto i (.visit op nxt))
  | .remove_if p | .remove_first p =>
      (s.data nxt).map fun v => s.goto i (if p v then .unlink op cur nxt else .pass op cur nxt)
  | .insert_if p value =>
      (s.data nxt).map fun v =>
        s.goto i (if p v then .insert_new op value cur nxt else .pass op cur nxt)

/-- `f(*next->data)`, or the test of `find_first_if`. -/
def visit_step (s : LockedList ι T) (i : ι) (op : Op T) (nxt : Nat) : Option (LockedList ι T) :=
  match op with
  | .for_each => (s.data nxt).map fun _ =>
      { s.goto i (.next op nxt) with
        visited := Function.update s.visited i (s.visited i ++ [nxt]) }
  | .find_first_if p => (s.data nxt).map fun v =>
      s.goto i (if p v then .unlock op (some v) nxt else .next op nxt)
  | _ => none

/-- Behind the node of a `push_front`, or behind `next_lk.unlock()`. -/
def After.rest : After T → Pc T
  | .push _ => .front_unlock
  | .remove op cur nxt => .unlock_next op cur nxt

def run_step (kind : Kind) (s : LockedList ι T) (i : ι) : Option (LockedList ι T) :=
  match s.pc i with
  | .idle => none
  -- std::unique_ptr<node> new_node(new node(value)); std::lock_guard<std::mutex> lk(head.m);
  | .new_front value => some ((s.new_node value).goto i (.front_lock s.count))
  | .front_lock n => s.lock i 0 (s.goto i (.front_next n))
  -- new_node->next = std::move(head.next); head.next = std::move(new_node);
  | .front_next n =>
      some (((s.set_next n (s.next 0)).set_next 0 none).goto i (.front_head n))
  | .front_head n =>
      some { (s.set_next 0 (some n)).goto i
              (if kind = .double_push_list then .front_last n else .front_unlock) with
             pushed := n :: s.pushed }
  -- if (head.next->next == nullptr)
  | .front_last n =>
      (s.next 0).map fun a =>
        s.goto i (if s.next a = none then .last_lock (.push n) else .front_unlock)
  | .front_unlock => some ((s.unlock_m 0).goto i .idle)
  | .new_back value => some ((s.new_node value).goto i (.back_read s.count))
  -- std::lock(last_node_ptr->m, last_ptr_mtx);
  | .back_read n => some (s.goto i (.back_lock n s.last_node_ptr))
  | .back_lock n p =>
      if s.last_ptr_mtx = none then
        s.lock i p { s.goto i (.back_adopt n p) with last_ptr_mtx := some i }
      else none
  -- std::unique_lock<std::mutex> lk(last_node_ptr->m, std::adopt_lock);
  | .back_adopt n p => some (s.goto i (.back_next n p s.last_node_ptr))
  -- last_node_ptr->next = std::move(new_node);
  | .back_next n p q =>
      some { (s.set_next q (some n)).goto i (.back_last n p q) with
             live := release s.next s.count (s.next q) s.live
             pushed := n :: s.pushed }
  -- last_node_ptr = last_node_ptr->next.get();
  | .back_last _ p q =>
      (s.next q).map fun a =>
        { s.goto i (.back_unlock_last p q) with last_node_ptr := a }
  | .back_unlock_last p q => some { s.goto i (.back_unlock p q) with last_ptr_mtx := none }
  | .back_unlock _ q => some ((s.unlock_m q).goto i .idle)
  -- std::unique_lock<std::mutex> lk(head.m);
  | .head_lock op =>
      s.lock i 0 { s.goto i (.next op 0) with
        snapshot := Function.update s.snapshot i s.present
        visited := Function.update s.visited i [] }
  -- while (node* const next = current->next.get())
  | .next op cur =>
      some (s.goto i (match s.next cur with
        | none => .unlock op none cur
        | some nxt => .next_lock op cur nxt))
  | .next_lock op cur nxt => s.lock i nxt (s.goto i (.locked op cur nxt))
  | .locked op cur nxt => s.locked_step i op cur nxt
  | .visit op nxt => s.visit_step i op nxt
  | .pass op cur nxt => some ((s.unlock_m cur).goto i (.next op nxt))
  -- std::unique_ptr<node> old_next = std::move(current->next);
  | .unlink op cur nxt => some ((s.set_next cur none).goto i (.relink op cur nxt))
  -- current->next = std::move(next->next);
  | .relink op cur nxt =>
      some { ((s.set_next cur (s.next nxt)).set_next nxt none).goto i
              (if kind = .double_push_list then .removed_last op cur nxt
                else .unlock_next op cur nxt) with
             removed := nxt :: s.removed }
  -- if (current->next == nullptr)
  | .removed_last op cur nxt =>
      some (s.goto i (if s.next cur = none then .last_lock (.remove op cur nxt)
        else .unlock_next op cur nxt))
  | .unlock_next op cur nxt => some ((s.unlock_m nxt).goto i (.destroy op cur nxt))
  -- old_next goes out of scope
  | .destroy op cur nxt =>
      some { s.goto i (match op with
              | .remove_first _ => .unlock op (s.data nxt) cur
              | _ => .next op cur) with
             live := Function.update s.live nxt false }
  | .insert_new op value cur nxt =>
      some ((s.new_node value).goto i (.insert_old op s.count cur nxt))
  -- auto old_next = std::move(current->next);
  | .insert_old op n cur nxt => some ((s.set_next cur none).goto i (.insert_next op n cur nxt))
  -- new_node->next = std::move(old_next); current->next = std::move(new_node);
  | .insert_next op n cur nxt =>
      some ((s.set_next n (some nxt)).goto i (.insert_head op n cur nxt))
  | .insert_head op n cur nxt =>
      some { (s.set_next cur (some n)).goto i (.insert_unlock op cur nxt) with
             pushed := n :: s.pushed }
  | .insert_unlock op cur nxt =>
      some ((s.unlock_m nxt).goto i (.unlock op (s.data nxt) cur))
  -- std::lock_guard<std::mutex> last_lk(last_ptr_mtx);
  | .last_lock k =>
      if s.last_ptr_mtx = none then
        some { s.goto i (.last_set k) with last_ptr_mtx := some i }
      else none
  -- last_node_ptr = head.next.get(), or last_node_ptr = current
  | .last_set k =>
      match k with
      | .push _ => (s.next 0).map fun a =>
          { s.goto i (.last_unlock k) with last_node_ptr := a }
      | .remove _ cur _ => some { s.goto i (.last_unlock k) with last_node_ptr := cur }
  | .last_unlock k => some { s.goto i k.rest with last_ptr_mtx := none }
  | .unlock _ _ cur => some ((s.unlock_m cur).goto i .idle)

/-- `push_back`, `remove_first` and `insert_if` are of `double_push_list`. -/
def Call.start (kind : Kind) : Call T → Option (Pc T)
  | .push_front value => some (.new_front value)
  | .push_back value => if kind = .double_push_list then some (.new_back value) else none
  | .traverse op =>
      match op with
      | .remove_first _ | .insert_if _ _ =>
          if kind = .double_push_list then some (.head_lock op) else none
      | _ => some (.head_lock op)

/-- A node that has been destroyed is not to be touched: there is no step that does. -/
def step (kind : Kind) (s : LockedList ι T) : Event ι T → Option (LockedList ι T)
  | .call i c =>
      match s.pc i with
      | .idle => (c.start kind).map (s.goto i)
      | _ => none
  | .run i => if ∀ a ∈ (s.pc i).derefs, s.live a = true then run_step kind s i else none

/-- The empty list: `last_node_ptr = &head`. -/
def init : LockedList ι T where
  count := 1
  live := fun a => a == 0
  data := fun _ => none
  next := fun _ => none
  m := fun _ => none
  last_node_ptr := 0
  last_ptr_mtx := none
  pc := fun _ => .idle
  pushed := []
  removed := []
  snapshot := fun _ => []
  visited := fun _ => []

def lts (kind : Kind) : Lts (LockedList ι T) (Event ι T) where
  init := init
  step := step kind

end LockedList

end BoostNet
