/-
`threadsafe_queue` of Concurrent/day22-ThreadPool as a double-ended queue: `push` at the
back, the pops at the front, and `try_steal` that takes from the back.

The nodes are linked in both directions; `tail` is a node without a value. A pop holds
`head_mutex` from its test to its end, and reads `tail` under `tail_mutex` in between
(`get_tail`); `push` holds `tail_mutex` only; `try_steal` takes both. What is done under
`tail_mutex`, or under both, is one step. A node that has been popped belongs to the thread that
destroys it, and addresses are used again.

A wait ends at any time, so notifications are left out; a timed one may give up. `bstop`
stays false. `try_pop_value` and `wait_and_pop_value` are the two that move the value out
before they unlink the node, `try_pop` and `wait_and_pop` read it from the node they have
unlinked.

The log has what the threads do to the queue, what they find empty, and what they return.

* `steal_queue_refines`: the nodes, the log and the results, after any run. The log is compared
  with the calls too, as they stand in the list of actions: a push that has returned is in it.
-/
import BoostNet.Heap
import BoostNet.History
import BoostNet.Lts
import BoostNet.Threads

set_option autoImplicit false

namespace BoostNet.StealQueue

variable {A ι T : Type*}

/-! ## The double-ended queue -/

inductive Event (ι T : Type*) where
  | push (i : ι) (v : T)
  | front (i : ι) (v : T)
  | back (i : ι) (v : T)
  /-- The thread finds the queue empty. -/
  | empty (i : ι)
  | ret (i : ι) (result : Option T)

def Event.thread : Event ι T → ι
  | .push i _ | .front i _ | .back i _ | .empty i | .ret i _ => i

/-- What an event makes of the queue. -/
def Event.Applies (contents contents' : List T) : Event ι T → Prop
  | .push _ v => contents' = contents ++ [v]
  | .front _ v => contents = v :: contents'
  | .back _ v => contents = contents' ++ [v]
  | .empty _ => contents = [] ∧ contents' = []
  | .ret _ _ => contents' = contents

/-- The log is one of a double-ended queue, that has these contents at its end. -/
inductive Deque : List (Event ι T) → List T → Prop where
  | init : Deque [] []
  | step {log : List (Event ι T)} {e : Event ι T} {contents contents' : List T}
      (h : Deque log contents) (happlies : e.Applies contents contents') :
      Deque (log ++ [e]) contents'

def pushed (log : List (Event ι T)) : List T :=
  log.filterMap fun
    | .push _ v => some v
    | _ => none

def taken (log : List (Event ι T)) : List T :=
  log.filterMap fun
    | .front _ v | .back _ v => some v
    | _ => none

/-! ## The queue -/

structure Node (A T : Type*) where
  data : Option T := none
  next : Option A := none
  prev : Option A := none

inductive Op where
  | try_pop
  | try_pop_value
  | wait_and_pop
  | wait_and_pop_value
  | wait_and_pop_timeout
  deriving DecidableEq

/-- The operation waits when the queue is empty. `timed_out` says that the time of
`wait_for` is over. -/
def Op.waits (timed_out : Bool) : Op → Bool
  | .try_pop | .try_pop_value => false
  | .wait_and_pop | .wait_and_pop_value => true
  | .wait_and_pop_timeout => !timed_out

/-- Where a thread is. -/
inductive Pc (A T : Type*) where
  | idle
  | push_alloc (v : T)
  | push (v : T) (p : A)
  | lock (op : Op) (timed_out : Bool)
  | get_tail (op : Op) (timed_out : Bool)
  | pop (op : Op)
  | blocked (op : Op)
  /-- The node that has been unlinked, and the value if it has been moved out. -/
  | destroy (old_head : A) (value : Option T)
  | try_steal
  | ret (result : Option T)

def next (h : A → Cell (Node A T)) (a : A) : Option A := (h a).val.next

def prev (h : A → Cell (Node A T)) (a : A) : Option A := (h a).val.prev

def data (h : A → Cell (Node A T)) (a : A) : Option T := (h a).val.data

structure Sys (A ι T : Type*) where
  heap : A → Cell (Node A T)
  head : A
  tail : A
  head_mutex : Option ι := none
  pc : ι → Pc A T := fun _ => .idle
  log : List (Event ι T) := []

variable [DecidableEq A] [DecidableEq ι]

/-- A node is written. -/
def write (h : A → Cell (Node A T)) (a : A) (f : Node A T → Node A T) : A → Cell (Node A T) :=
  Heap.store h a (f (h a).val)

omit [DecidableEq ι] in
@[simp] theorem write_self (h : A → Cell (Node A T)) (a : A) (f : Node A T → Node A T) :
    write h a f a = { h a with val := f (h a).val } := Function.update_self ..

omit [DecidableEq ι] in
@[simp] theorem write_of_ne {h : A → Cell (Node A T)} {a b : A} {f : Node A T → Node A T}
    (hb : b ≠ a) : write h a f b = h b := Function.update_of_ne hb ..

def Sys.goto (s : Sys A ι T) (i : ι) (p : Pc A T) : Sys A ι T :=
  { s with pc := Function.update s.pc i p }

/-- The section of `push`, with the new node `p`. -/
def Sys.push (s : Sys A ι T) (i : ι) (v : T) (p : A) : Sys A ι T :=
  { s.goto i .idle with
    heap := write (write s.heap s.tail fun n => { n with data := some v, next := some p }) p
      fun n => { n with prev := some s.tail }
    tail := p
    log := s.log ++ [.push i v] }

/-- `pop_head`, with the value that is read before it, and the rest of the section. -/
def Sys.pop (s : Sys A ι T) (i : ι) (op : Op) : Option (Sys A ι T) :=
  match data s.heap s.head, next s.heap s.head with
  | some v, some new_head =>
      match op with
      | .try_pop | .wait_and_pop =>
          some { s.goto i (.destroy s.head none) with
            heap := write s.heap s.head fun n => { n with next := none }
            head := new_head
            head_mutex := none
            log := s.log ++ [.front i v] }
      | .try_pop_value | .wait_and_pop_value =>
          some { s.goto i (.destroy s.head (some v)) with
            heap := write s.heap s.head fun n => { n with next := none }
            head := new_head
            head_mutex := none
            log := s.log ++ [.front i v] }
      | .wait_and_pop_timeout =>
          some { s.goto i (.ret (some v)) with
            heap := Heap.free s.heap s.head
            head := new_head
            head_mutex := none
            log := s.log ++ [.front i v] }
  | _, _ => none

/-- The section of `try_steal`. -/
def Sys.try_steal (s : Sys A ι T) (i : ι) : Option (Sys A ι T) :=
  if s.head = s.tail then some { s.goto i (.ret none) with log := s.log ++ [.empty i] }
  else
    match prev s.heap s.tail with
    | none => none
    | some prev_node =>
        match data s.heap prev_node with
        | none => none
        | some v =>
            some { s.goto i (.ret (some v)) with
              heap := Heap.free (write s.heap prev_node fun n => { n with next := none }) s.tail
              tail := prev_node
              log := s.log ++ [.back i v] }

/-- A step of a thread, but for the allocation of a node. -/
def Sys.run (s : Sys A ι T) (i : ι) : Option (Sys A ι T) :=
  match s.pc i with
  | .idle | .push_alloc _ | .blocked _ => none
  | .push v p => some (s.push i v p)
  | .lock op timed_out =>
      match s.head_mutex with
      | none => some { s.goto i (.get_tail op timed_out) with head_mutex := some i }
      | some _ => none
  | .get_tail op timed_out =>
      if s.head = s.tail then
        some { s.goto i (if op.waits timed_out then .blocked op else .ret none) with
          head_mutex := none
          log := s.log ++ [.empty i] }
      else some (s.goto i (.pop op))
  | .pop op => s.pop i op
  | .destroy old_head value =>
      some { s.goto i (.ret (value <|> data s.heap old_head)) with
        heap := Heap.free s.heap old_head }
  | .try_steal =>
      match s.head_mutex with
      | none => s.try_steal i
      | some _ => none
  | .ret result => some { s.goto i .idle with log := s.log ++ [.ret i result] }

inductive Call (T : Type*) where
  | push (v : T)
  | pop (op : Op)
  | try_steal

def Call.start : Call T → Pc A T
  | .push v => .push_alloc v
  | .pop op => .lock op false
  | .try_steal => .try_steal

inductive Action (A ι T : Type*) where
  | call (i : ι) (c : Call T)
  | run (i : ι)
  /-- `new node`, at a free address. -/
  | alloc (i : ι) (p : A)
  /-- A wait ends, because of the time if `timed_out`. -/
  | wake (i : ι) (timed_out : Bool)

def Sys.step (s : Sys A ι T) : Action A ι T → Option (Sys A ι T)
  | .call i c =>
      match s.pc i with
      | .idle => some (s.goto i c.start)
      | _ => none
  | .run i => s.run i
  | .alloc i p =>
      match s.pc i with
      | .push_alloc v =>
          if (s.heap p).live then none
          else some { s.goto i (.push v p) with heap := Heap.alloc s.heap p {} }
      | _ => none
  | .wake i timed_out =>
      match s.pc i with
      | .blocked op =>
          if timed_out && op != .wait_and_pop_timeout then none
          else some (s.goto i (.lock op timed_out))
      | _ => none

/-- The queue as it is constructed, with its node at `first`. -/
def initial (first : A) : Sys A ι T where
  heap a := { live := a = first, gen := 0, val := {} }
  head := first
  tail := first

def system (ι T : Type*) [DecidableEq ι] (first : A) : Lts (Sys A ι T) (Action A ι T) where
  init := initial first
  step := Sys.step

/-! ## What should hold -/

/-- The last event of the thread. -/
def lastOf (i : ι) (log : List (Event ι T)) : Option (Event ι T) :=
  (log.filter fun e => e.thread = i).getLast?

/-- The thread may return the result: it has taken that, or has found the queue empty, and has
done nothing since. -/
def Returns (log : List (Event ι T)) (i : ι) : Option T → Prop
  | some v => lastOf i log = some (.front i v) ∨ lastOf i log = some (.back i v)
  | none => lastOf i log = some (.empty i)

def Event.Right (log : List (Event ι T)) : Event ι T → Prop
  | .ret i result => Returns log i result
  | .push _ _ | .front _ _ | .back _ _ | .empty _ => True

/-- The nodes are linked from `head` to `tail`, and have the contents. -/
structure Holds (h : A → Cell (Node A T)) (head tail : A) (nodes : List A)
    (contents : List T) : Prop where
  linked : Heap.Linked (next h) (prev h) head nodes tail
  last : next h tail = none
  live : ∀ a ∈ nodes ++ [tail], (h a).live = true
  nodup : (nodes ++ [tail]).Nodup
  data : nodes.map (data h) = contents.map some

structure Refines (s : Sys A ι T) : Prop where
  /-- The log is one of a double-ended queue, and the nodes have its contents. -/
  deque : ∃ nodes contents, Holds s.heap s.head s.tail nodes contents ∧ Deque s.log contents ∧
    (pushed s.log).Perm (taken s.log ++ contents)
  results : ∀ log e later, s.log = log ++ e :: later → e.Right log
  tail_prev : s.head ≠ s.tail →
    ∃ a, prev s.heap s.tail = some a ∧ (s.heap a).live = true ∧ next s.heap a = some s.tail
  /-- No null pointer is read from. -/
  pop_defined : ∀ i op, s.pc i = .pop op → (s.pop i op).isSome = true
  steal_defined : ∀ i, s.head_mutex = none → (s.try_steal i).isSome = true

/-! ## The calls

What a run was asked to do is read off its actions, which the steps do not write. -/

def Action.pushes (i : ι) : Action A ι T → List T
  | .call j (.push v) => if j = i then [v] else []
  | .call _ (.pop _) | .call _ .try_steal | .run _ | .alloc _ _ | .wake _ _ => []

/-- A pop or a `try_steal` is called. -/
def Action.takes (i : ι) : Action A ι T → Bool
  | .call j (.pop _) | .call j .try_steal => j = i
  | .call _ (.push _) | .run _ | .alloc _ _ | .wake _ _ => false

def Event.pushes (i : ι) : Event ι T → List T
  | .push j v => if j = i then [v] else []
  | .front _ _ | .back _ _ | .empty _ | .ret _ _ => []

def Event.returns (i : ι) : Event ι T → Bool
  | .ret j _ => j = i
  | .push _ _ | .front _ _ | .back _ _ | .empty _ => false

/-- The value of a push that has not come to its section. -/
def Pc.pushes : Pc A T → List T
  | .push_alloc v | .push v _ => [v]
  | .idle | .lock _ _ | .get_tail _ _ | .pop _ | .blocked _ | .destroy _ _ | .try_steal
  | .ret _ => []

/-- A pop or a `try_steal` that has not returned. -/
def Pc.takes : Pc A T → Bool
  | .lock _ _ | .get_tail _ _ | .pop _ | .blocked _ | .destroy _ _ | .try_steal | .ret _ => true
  | .idle | .push_alloc _ | .push _ _ => false

/-- What thread `i` was told to push it has pushed, each value once and in this order, but for the
push it is in; and each call that takes has returned, once, but for the one it is in. -/
structure Answers (as : List (Action A ι T)) (s : Sys A ι T) (i : ι) : Prop where
  pushes : as.flatMap (Action.pushes i) = s.log.flatMap (Event.pushes i) ++ (s.pc i).pushes
  takes : as.countP (Action.takes i) = s.log.countP (Event.returns i) + (s.pc i).takes.toNat

/-! ## The nodes -/

section Nodes

variable {h h' : A → Cell (Node A T)} {head tail p : A} {nodes : List A} {contents : List T} {v : T}

omit [DecidableEq A] [DecidableEq ι] in
/-- The list depends on its own nodes only. -/
theorem Holds.congr (hh : Holds h head tail nodes contents)
    (heq : ∀ a ∈ nodes ++ [tail], h' a = h a) : Holds h' head tail nodes contents where
  linked := by
    refine hh.linked.congr (fun a ha => ?_) fun a ha => ?_
    · rw [next, heq a (List.mem_append_left _ ha), next]
    · rw [prev, heq a ha, prev]
  last := by
    rw [next, heq tail (List.mem_append_right _ List.mem_cons_self)]
    exact hh.last
  live a ha := by
    rw [heq a ha]
    exact hh.live a ha
  nodup := hh.nodup
  data := by
    rw [← hh.data]
    refine List.map_congr_left fun a ha => ?_
    rw [StealQueue.data, heq a (List.mem_append_left _ ha), StealQueue.data]

omit [DecidableEq A] [DecidableEq ι] in
/-- The dummy node is not one of those with a value. -/
theorem Holds.tail_notMem (hh : Holds h head tail nodes contents) : tail ∉ nodes := by
  intro hmem
  exact (List.nodup_append.mp hh.nodup).2.2 tail hmem tail List.mem_cons_self rfl

omit [DecidableEq A] [DecidableEq ι] in
/-- The queue is empty when `head` and `tail` are the same. -/
theorem Holds.nil_iff (hh : Holds h head tail nodes contents) : nodes = [] ↔ head = tail := by
  constructor
  · rintro rfl
    exact hh.linked
  · intro heq
    by_contra hne
    obtain ⟨a, rest, rfl⟩ := List.exists_cons_of_ne_nil hne
    refine hh.tail_notMem ?_
    rw [← heq, hh.linked.1]
    exact List.mem_cons_self

omit [DecidableEq A] [DecidableEq ι] in
/-- The queue is empty where `head` has come to `tail`. -/
theorem Holds.contents_nil_iff (hh : Holds h head tail nodes contents) :
    contents = [] ↔ head = tail := by
  rw [← hh.nil_iff, ← List.map_eq_nil_iff (f := (some : T → Option T)), ← hh.data,
    List.map_eq_nil_iff]

omit [DecidableEq A] [DecidableEq ι] in
/-- The first node, and what is left without it. -/
theorem Holds.pop (hh : Holds h head tail nodes contents) (hne : nodes ≠ []) :
    ∃ v new_head rest contents', nodes = head :: rest ∧ contents = v :: contents' ∧
      StealQueue.data h head = some v ∧ next h head = some new_head ∧
      Holds h new_head tail rest contents' := by
  obtain ⟨a, rest, rfl⟩ := List.exists_cons_of_ne_nil hne
  obtain ⟨rfl, new_head, hnext, -, hlinked⟩ := hh.linked
  have hdata := hh.data
  cases contents with
  | nil => cases hdata
  | cons v contents' =>
      rw [List.map_cons, List.map_cons, List.cons.injEq] at hdata
      exact ⟨v, new_head, rest, contents', rfl, rfl, hdata.1, hnext, hlinked, hh.last,
        fun b hb => hh.live b (List.mem_cons_of_mem _ hb), (List.nodup_cons.mp hh.nodup).2, hdata.2⟩

omit [DecidableEq ι] in
/-- A node is added, and the value stored in the one that was the last. -/
theorem Holds.push (hh : Holds h head tail nodes contents) (hlive : (h p).live = true)
    (hp : p ∉ nodes ++ [tail]) (hnext : next h p = none) :
    Holds (write (write h tail fun n => { n with data := some v, next := some p }) p
      fun n => { n with prev := some tail }) head p (nodes ++ [tail]) (contents ++ [v]) := by
  have hne : tail ≠ p := by
    rintro rfl
    exact hp (List.mem_append_right _ List.mem_cons_self)
  have hnodes : ∀ a ∈ nodes, a ≠ tail ∧ a ≠ p := by
    intro a ha
    constructor
    · rintro rfl
      exact hh.tail_notMem ha
    · rintro rfl
      exact hp (List.mem_append_left _ ha)
  refine ⟨Heap.linked_concat.mpr ⟨hh.linked.congr (fun a ha => ?_) (fun a ha => ?_), ?_, ?_⟩,
    ?_, fun a ha => ?_, List.nodup_append.mpr ⟨hh.nodup, List.nodup_singleton p, ?_⟩, ?_⟩
  · rw [next, write_of_ne (hnodes a ha).2, write_of_ne (hnodes a ha).1, next]
  · rcases List.mem_append.mp ha with ha | ha
    · rw [prev, write_of_ne (hnodes a ha).2, write_of_ne (hnodes a ha).1, prev]
    · rw [List.mem_singleton.mp ha, prev, write_of_ne hne, write_self, prev]
  · rw [next, write_of_ne hne, write_self]
  · rw [prev, write_self]
  · rw [next, write_self, write_of_ne hne.symm]
    exact hnext
  · rcases List.mem_append.mp ha with ha | ha
    · rcases List.mem_append.mp ha with hmem | hmem
      · rw [write_of_ne (hnodes a hmem).2, write_of_ne (hnodes a hmem).1]
        exact hh.live a ha
      · rw [List.mem_singleton.mp hmem, write_of_ne hne, write_self]
        exact hh.live tail (List.mem_append_right _ List.mem_cons_self)
    · rw [List.mem_singleton.mp ha, write_self, write_of_ne hne.symm]
      exact hlive
  · rintro a ha b hb rfl
    rw [List.mem_singleton] at hb
    exact hp (hb ▸ ha)
  · rw [List.map_append, List.map_append, List.map_singleton, List.map_singleton, ← hh.data]
    congr 1
    · refine List.map_congr_left fun a ha => ?_
      rw [StealQueue.data, write_of_ne (hnodes a ha).2, write_of_ne (hnodes a ha).1,
        StealQueue.data]
    · rw [StealQueue.data, write_of_ne hne, write_self]

omit [DecidableEq ι] in
/-- The last node, and what is left when the one behind it is freed. -/
theorem Holds.steal (hh : Holds h head tail nodes contents) (hne : nodes ≠ []) :
    ∃ v prev_node before contents', nodes = before ++ [prev_node] ∧ contents = contents' ++ [v] ∧
      prev h tail = some prev_node ∧ next h prev_node = some tail ∧
      StealQueue.data h prev_node = some v ∧
      Holds (Heap.free (write h prev_node fun n => { n with next := none }) tail) head prev_node
        before contents' := by
  rcases List.eq_nil_or_concat nodes with rfl | ⟨before, x, rfl⟩
  · exact absurd rfl hne
  rw [List.concat_eq_append] at hh ⊢
  obtain ⟨hlinked, hnext, hprev⟩ := Heap.linked_concat.mp hh.linked
  rcases List.eq_nil_or_concat contents with rfl | ⟨contents', v, rfl⟩
  · have hdata := congrArg List.length hh.data
    rw [List.length_map, List.length_append] at hdata
    cases hdata
  rw [List.concat_eq_append] at hh ⊢
  have hdata := hh.data
  rw [List.map_append, List.map_append, List.map_singleton, List.map_singleton] at hdata
  obtain ⟨hbefore, hx⟩ := List.append_inj' hdata rfl
  have hxt : x ≠ tail := by
    rintro rfl
    exact hh.tail_notMem (List.mem_append_right _ List.mem_cons_self)
  have hnodup := (List.nodup_append.mp hh.nodup).1
  have hnodes : ∀ a ∈ before, a ≠ tail ∧ a ≠ x := by
    intro a ha
    constructor
    · rintro rfl
      exact hh.tail_notMem (List.mem_append_left _ ha)
    · rintro rfl
      exact (List.nodup_append.mp hnodup).2.2 a ha a List.mem_cons_self rfl
  refine ⟨v, x, before, contents', rfl, rfl, hprev, hnext, (List.cons.inj hx).1,
    hlinked.congr (fun a ha => ?_) (fun a ha => ?_), ?_, fun a ha => ?_, hnodup, ?_⟩
  · rw [next, Heap.free_of_ne (hnodes a ha).1, write_of_ne (hnodes a ha).2, next]
  · rcases List.mem_append.mp ha with ha | ha
    · rw [prev, Heap.free_of_ne (hnodes a ha).1, write_of_ne (hnodes a ha).2, prev]
    · rw [List.mem_singleton.mp ha, prev, Heap.free_of_ne hxt, write_self, prev]
  · rw [next, Heap.free_of_ne hxt, write_self]
  · have hlive := hh.live a (List.mem_append_left _ ha)
    rcases List.mem_append.mp ha with ha | ha
    · rw [Heap.free_of_ne (hnodes a ha).1, write_of_ne (hnodes a ha).2]
      exact hlive
    · rw [List.mem_singleton.mp ha] at hlive ⊢
      rw [Heap.free_of_ne hxt, write_self]
      exact hlive
  · rw [← hbefore]
    refine List.map_congr_left fun a ha => ?_
    rw [StealQueue.data, Heap.free_of_ne (hnodes a ha).1, write_of_ne (hnodes a ha).2,
      StealQueue.data]

end Nodes

/-! ## The log -/

omit [DecidableEq ι] in
/-- What has been pushed has been taken or is still there, each value once. -/
theorem Deque.perm {log : List (Event ι T)} {contents : List T} (h : Deque log contents) :
    (pushed log).Perm (taken log ++ contents) := by
  induction h with
  | init => exact List.Perm.refl _
  | @step log e contents contents' _ happlies ih =>
      rw [show pushed (log ++ [e]) = pushed log ++ pushed [e] from List.filterMap_append,
        show taken (log ++ [e]) = taken log ++ taken [e] from List.filterMap_append]
      match e, happlies with
      | .push _ v, happlies =>
          rw [happlies, show taken [(.push _ v : Event ι T)] = [] from rfl, List.append_nil,
            ← List.append_assoc]
          exact ih.append_right [v]
      | .front _ v, happlies =>
          rw [happlies] at ih
          rw [show pushed [(.front _ v : Event ι T)] = [] from rfl, List.append_nil,
            List.append_assoc]
          exact ih
      | .back _ v, happlies =>
          rw [happlies] at ih
          rw [show pushed [(.back _ v : Event ι T)] = [] from rfl, List.append_nil,
            List.append_assoc]
          exact ih.trans (List.perm_append_comm.append_left _)
      | .empty _, ⟨hnil, hnil'⟩ =>
          rw [hnil] at ih
          rw [hnil', show pushed [(.empty _ : Event ι T)] = [] from rfl,
            show taken [(.empty _ : Event ι T)] = [] from rfl, List.append_nil, List.append_nil]
          exact ih
      | .ret _ result, happlies =>
          rw [happlies, show pushed [(.ret _ result : Event ι T)] = [] from rfl,
            show taken [(.ret _ result : Event ι T)] = [] from rfl, List.append_nil,
            List.append_nil]
          exact ih

theorem lastOf_append_self (log : List (Event ι T)) (e : Event ι T) :
    lastOf e.thread (log ++ [e]) = some e := by
  rw [lastOf, List.filter_append,
    show [e].filter (fun e' => e'.thread = e.thread) = [e] from
      List.filter_cons_of_pos (decide_eq_true rfl)]
  exact List.getLast?_concat ..

theorem lastOf_append_of_ne (log : List (Event ι T)) {e : Event ι T} {j : ι} (hj : e.thread ≠ j) :
    lastOf j (log ++ [e]) = lastOf j log := by
  rw [lastOf, List.filter_append, List.filter_cons_of_neg (by simpa using hj)]
  exact congrArg List.getLast? (List.append_nil _)

/-! ## The invariant -/

/-- The node that belongs to the thread. -/
def Pc.owns : Pc A T → Option A
  | .push _ p => some p
  | .destroy old_head _ => some old_head
  | .idle | .push_alloc _ | .lock _ _ | .get_tail _ _ | .pop _ | .blocked _ | .try_steal
  | .ret _ => none

/-- The thread holds `head_mutex`. -/
def Pc.inside : Pc A T → Bool
  | .get_tail _ _ | .pop _ => true
  | .idle | .push_alloc _ | .push _ _ | .lock _ _ | .blocked _ | .destroy _ _ | .try_steal
  | .ret _ => false

/-- What a thread knows. -/
def Pc.Knows (h : A → Cell (Node A T)) (nodes : List A) (log : List (Event ι T)) (i : ι) :
    Pc A T → Prop
  | .push _ p => next h p = none
  | .pop _ => nodes ≠ []
  | .destroy old_head value => ∃ v, (value <|> data h old_head) = some v ∧
      lastOf i log = some (.front i v)
  | .ret result => Returns log i result
  | .idle | .push_alloc _ | .lock _ _ | .get_tail _ _ | .blocked _ | .try_steal => True

structure Inv (s : Sys A ι T) (nodes : List A) (contents : List T) : Prop where
  holds : Holds s.heap s.head s.tail nodes contents
  deque : Deque s.log contents
  results : ∀ log e later, s.log = log ++ e :: later → e.Right log
  mutex : Guarded Pc.inside s.head_mutex s.pc
  owned : ∀ i a, (s.pc i).owns = some a → (s.heap a).live = true ∧ a ∉ nodes ++ [s.tail]
  unique : Unique Pc.owns s.pc
  knows : ∀ i, (s.pc i).Knows s.heap nodes s.log i

variable {s t : Sys A ι T} {nodes nodes' : List A} {contents contents' : List T} {i : ι}
  {p : Pc A T}

/-- The invariant has all that is to be shown. -/
theorem Inv.refines (h : Inv s nodes contents) : Refines s where
  deque := ⟨nodes, contents, h.holds, h.deque, h.deque.perm⟩
  results := h.results
  tail_prev := by
    intro hne
    obtain ⟨v, a, before, contents', hnodes, -, hprev, hnext, -, -⟩ :=
      h.holds.steal fun hnil => hne (h.holds.nil_iff.mp hnil)
    refine ⟨a, hprev, h.holds.live a ?_, hnext⟩
    rw [hnodes]
    exact List.mem_append_left _ (List.mem_append_right _ List.mem_cons_self)
  pop_defined := by
    intro i op hpc
    have hne := h.knows i
    rw [hpc] at hne
    obtain ⟨v, new_head, rest, contents', -, -, hdata, hnext, -⟩ := h.holds.pop hne
    cases op <;> simp only [Sys.pop, hdata, hnext, Option.isSome_some]
  steal_defined := by
    intro i _
    by_cases heq : s.head = s.tail
    · simp only [Sys.try_steal, heq, if_true, Option.isSome_some]
    · obtain ⟨v, a, before, contents', -, -, hprev, -, hdata, -⟩ :=
        h.holds.steal fun hnil => heq (h.holds.nil_iff.mp hnil)
      simp only [Sys.try_steal, heq, if_false, hprev, hdata, Option.isSome_some]

/-! ## The steps -/

omit [DecidableEq A] in
/-- What another thread knows, when its node, the queue as it may see it and its last event are
as they were. -/
theorem Pc.Knows.frame {h h' : A → Cell (Node A T)} {log log' : List (Event ι T)} {j : ι}
    (hknows : p.Knows h nodes log j) (hheap : ∀ a, p.owns = some a → h' a = h a)
    (hpop : p.inside = true → nodes ≠ [] → nodes' ≠ [])
    (hlog : lastOf j log' = lastOf j log) : p.Knows h' nodes' log' j := by
  cases p with
  | push v a =>
      show next h' a = none
      rw [next, hheap a rfl]
      exact hknows
  | pop op => exact hpop rfl hknows
  | destroy old_head value =>
      obtain ⟨v, hvalue, hlast⟩ := hknows
      refine ⟨v, ?_, hlog.trans hlast⟩
      rw [data, hheap old_head rfl]
      exact hvalue
  | ret result =>
      cases result with
      | some v => exact hknows.imp hlog.trans hlog.trans
      | none => exact hlog.trans hknows
  | _ => trivial

omit [DecidableEq A] in
/-- A step of one thread. -/
theorem Inv.update (h : Inv s nodes contents) {heap : A → Cell (Node A T)} {head tail : A}
    {head_mutex : Option ι} {log : List (Event ι T)}
    (hholds : Holds heap head tail nodes' contents') (hdeque : Deque log contents')
    (hresults : ∀ log' e later, log = log' ++ e :: later → e.Right log')
    (hmutex : Guarded Pc.inside head_mutex (Function.update s.pc i p))
    (hself : ∀ a, p.owns = some a → (heap a).live = true ∧ a ∉ nodes' ++ [tail] ∧
      ∀ j, j ≠ i → (s.pc j).owns ≠ some a)
    (hother : ∀ j a, j ≠ i → (s.pc j).owns = some a → heap a = s.heap a ∧ a ∉ nodes' ++ [tail])
    (hpop : ∀ j, j ≠ i → (s.pc j).inside = true → nodes ≠ [] → nodes' ≠ [])
    (hlog : ∀ j, j ≠ i → lastOf j log = lastOf j s.log) (hknows : p.Knows heap nodes' log i) :
    Inv { heap := heap, head := head, tail := tail, head_mutex := head_mutex,
          pc := Function.update s.pc i p, log := log } nodes' contents' where
  holds := hholds
  deque := hdeque
  results := hresults
  mutex := hmutex
  owned := by
    intro j a ha
    change (Function.update s.pc i p j).owns = some a at ha
    by_cases hj : j = i
    · rw [hj, Function.update_self] at ha
      obtain ⟨hlive, hnot, -⟩ := hself a ha
      exact ⟨hlive, hnot⟩
    · rw [Function.update_of_ne hj] at ha
      obtain ⟨heq, hnot⟩ := hother j a hj ha
      exact ⟨(congrArg Cell.live heq).trans (h.owned j a ha).1, hnot⟩
  unique := h.unique.update fun a ha j hj => (hself a ha).2.2 j hj
  knows := by
    intro j
    show (Function.update s.pc i p j).Knows heap nodes' log j
    by_cases hj : j = i
    · rw [hj, Function.update_self]
      exact hknows
    · rw [Function.update_of_ne hj]
      exact (h.knows j).frame (fun a ha => (hother j a hj ha).1) (hpop j hj) (hlog j hj)

omit [DecidableEq A] in
/-- A step that leaves the queue and the log alone. -/
theorem Inv.goto (h : Inv s nodes contents) {head_mutex : Option ι}
    (hmutex : Guarded Pc.inside head_mutex (Function.update s.pc i p)) (howns : p.owns = none)
    (hknows : p.Knows s.heap nodes s.log i) :
    Inv { s.goto i p with head_mutex := head_mutex } nodes contents := by
  refine h.update h.holds h.deque h.results hmutex (fun a ha => ?_) (fun j a _ ha => ?_)
    (fun _ _ _ => id) (fun _ _ => rfl) hknows
  · rw [howns] at ha
    cases ha
  · exact ⟨rfl, (h.owned j a ha).2⟩

omit [DecidableEq A] in
/-- A step that leaves the queue alone, with an event of its own. -/
theorem Inv.event (h : Inv s nodes contents) {head_mutex : Option ι} {e : Event ι T}
    (he : e.thread = i) (happlies : e.Applies contents contents) (hright : e.Right s.log)
    (hmutex : Guarded Pc.inside head_mutex (Function.update s.pc i p)) (howns : p.owns = none)
    (hknows : p.Knows s.heap nodes (s.log ++ [e]) i) :
    Inv { s.goto i p with head_mutex := head_mutex, log := s.log ++ [e] } nodes contents := by
  refine h.update h.holds (h.deque.step happlies) (forall_split_append h.results hright) hmutex
    (fun a ha => ?_) (fun j a _ ha => ?_) (fun _ _ _ => id) (fun j hj => ?_) hknows
  · rw [howns] at ha
    cases ha
  · exact ⟨rfl, (h.owned j a ha).2⟩
  · exact lastOf_append_of_ne s.log (he.trans_ne hj.symm)

/-- The section of `push`. -/
theorem Inv.push (h : Inv s nodes contents) {v : T} {q : A} (hpc : s.pc i = .push v q) :
    Inv (s.push i v q) (nodes ++ [s.tail]) (contents ++ [v]) := by
  obtain ⟨hlive, hnot⟩ := h.owned i q (by rw [hpc]; rfl)
  have hnext := h.knows i
  rw [hpc] at hnext
  refine h.update (h.holds.push hlive hnot hnext) (h.deque.step (e := .push i v) rfl)
    (forall_split_append h.results trivial) (h.mutex.move (by rw [hpc]; rfl)) (by rintro a ⟨⟩)
    (fun j a hj ha => ?_) (fun _ _ _ _ => List.append_ne_nil_of_right_ne_nil _ (by rintro ⟨⟩))
    (fun j hj => lastOf_append_of_ne s.log hj.symm) trivial
  have ha_not := (h.owned j a ha).2
  have hne : a ≠ q := by
    rintro rfl
    exact hj (h.unique j i a ha (by rw [hpc]; rfl))
  have htail : a ≠ s.tail := by
    rintro rfl
    exact ha_not (List.mem_append_right _ List.mem_cons_self)
  refine ⟨by rw [write_of_ne hne, write_of_ne htail], fun hmem => ?_⟩
  rcases List.mem_append.mp hmem with hmem | hmem
  · exact ha_not hmem
  · exact hne (List.mem_singleton.mp hmem)

/-- The section of a pop. -/
theorem Inv.pop (h : Inv s nodes contents) {op : Op} (hpc : s.pc i = .pop op)
    (hstep : s.pop i op = some t) : ∃ nodes' contents', Inv t nodes' contents' := by
  have hne := h.knows i
  rw [hpc] at hne
  obtain ⟨v, new_head, rest, contents', rfl, rfl, hdata, hnext, hrest⟩ := h.holds.pop hne
  have hi : (s.pc i).inside = true := by rw [hpc]; rfl
  have hhead : s.head ∉ rest ++ [s.tail] := (List.nodup_cons.mp h.holds.nodup).1
  -- the nodes of the others are not in the queue, and nobody else holds the mutex
  have hother : ∀ j a, j ≠ i → (s.pc j).owns = some a → a ≠ s.head ∧ a ∉ rest ++ [s.tail] := by
    intro j a _ ha
    have hnot := (h.owned j a ha).2
    constructor
    · rintro rfl
      exact hnot List.mem_cons_self
    · exact fun hmem => hnot (List.mem_cons_of_mem _ hmem)
  have hpop : ∀ j, j ≠ i → (s.pc j).inside = true → s.head :: rest ≠ [] → rest ≠ [] :=
    fun j hj hinside => absurd (h.mutex.eq hinside hi) hj
  have hdeque : Deque (s.log ++ [.front i v]) contents' := h.deque.step rfl
  have hresults : ∀ log e later, s.log ++ [.front i v] = log ++ e :: later → e.Right log :=
    forall_split_append h.results trivial
  have hlog : ∀ j, j ≠ i → lastOf j (s.log ++ [.front i v]) = lastOf j s.log :=
    fun j hj => lastOf_append_of_ne s.log hj.symm
  have hself : lastOf i (s.log ++ [.front i v]) = some (.front i v) :=
    lastOf_append_self s.log (.front i v)
  -- the node that is unlinked
  have hwrite : ∀ f : Node A T → Node A T,
      Holds (write s.heap s.head f) new_head s.tail rest contents' := by
    intro f
    refine hrest.congr fun a ha => write_of_ne ?_
    rintro rfl
    exact hhead ha
  have howned : ∀ f : Node A T → Node A T, ∀ a, some s.head = some a →
      (write s.heap s.head f a).live = true ∧ a ∉ rest ++ [s.tail] ∧
        ∀ j, j ≠ i → (s.pc j).owns ≠ some a := by
    rintro f a ⟨⟩
    refine ⟨?_, hhead, fun j hj ha => (hother j s.head hj ha).1 rfl⟩
    rw [write_self]
    exact h.holds.live s.head List.mem_cons_self
  refine ⟨rest, contents', ?_⟩
  cases op with
  | try_pop | wait_and_pop =>
      simp only [Sys.pop, hdata, hnext, Option.some.injEq] at hstep
      subst hstep
      refine h.update (hwrite _) hdeque hresults (h.mutex.unlock hi rfl) (howned _)
        (fun j a hj ha => ?_) hpop hlog ⟨v, ?_, hself⟩
      · exact ⟨write_of_ne (hother j a hj ha).1, (hother j a hj ha).2⟩
      · rw [data, write_self]
        exact hdata
  | try_pop_value | wait_and_pop_value =>
      simp only [Sys.pop, hdata, hnext, Option.some.injEq] at hstep
      subst hstep
      refine h.update (hwrite _) hdeque hresults (h.mutex.unlock hi rfl) (howned _)
        (fun j a hj ha => ?_) hpop hlog ⟨v, rfl, hself⟩
      exact ⟨write_of_ne (hother j a hj ha).1, (hother j a hj ha).2⟩
  | wait_and_pop_timeout =>
      simp only [Sys.pop, hdata, hnext, Option.some.injEq] at hstep
      subst hstep
      refine h.update (hrest.congr fun a ha => Heap.free_of_ne ?_) hdeque hresults
        (h.mutex.unlock hi rfl) (by rintro a ⟨⟩) (fun j a hj ha => ?_) hpop hlog (Or.inl hself)
      · rintro rfl
        exact hhead ha
      · exact ⟨Heap.free_of_ne (hother j a hj ha).1, (hother j a hj ha).2⟩

/-- The section of `try_steal`. Nobody holds `head_mutex`. -/
theorem Inv.try_steal (h : Inv s nodes contents) (hpc : s.pc i = .try_steal)
    (hmutex : s.head_mutex = none) (hstep : s.try_steal i = some t) :
    ∃ nodes' contents', Inv t nodes' contents' := by
  have hout : ∀ {q : Pc A T}, q.inside = false → q.inside = (s.pc i).inside := by
    rw [hpc]
    exact id
  by_cases heq : s.head = s.tail
  · have hnil := h.holds.contents_nil_iff.mpr heq
    simp only [Sys.try_steal, heq, if_true, Option.some.injEq] at hstep
    subst hstep
    exact ⟨nodes, contents, h.event (e := .empty i) rfl ⟨hnil, hnil⟩ trivial
      (h.mutex.move (hout rfl)) rfl (lastOf_append_self s.log (.empty i))⟩
  · obtain ⟨v, prev_node, before, contents', rfl, rfl, hprev, -, hdata, hholds⟩ :=
      h.holds.steal fun hnil => heq (h.holds.nil_iff.mp hnil)
    simp only [Sys.try_steal, heq, if_false, hprev, hdata, Option.some.injEq] at hstep
    subst hstep
    refine ⟨before, contents', h.update hholds (h.deque.step (e := .back i v) rfl)
      (forall_split_append h.results trivial) (h.mutex.move (hout rfl)) (by rintro a ⟨⟩)
      (fun j a _ ha => ?_) (fun j _ hinside => ?_) (fun j hj => lastOf_append_of_ne s.log hj.symm)
      (Or.inr (lastOf_append_self s.log (.back i v)))⟩
    · have hnot := (h.owned j a ha).2
      have htail : a ≠ s.tail := by
        rintro rfl
        exact hnot (List.mem_append_right _ List.mem_cons_self)
      have hne : a ≠ prev_node := by
        rintro rfl
        exact hnot (List.mem_append_left _ (List.mem_append_right _ List.mem_cons_self))
      exact ⟨by rw [Heap.free_of_ne htail, write_of_ne hne],
        fun hmem => hnot (List.mem_append_left _ hmem)⟩
    · have hholder := (h.mutex j).mp hinside
      rw [hmutex] at hholder
      cases hholder

/-- The node that was popped is destroyed. -/
theorem Inv.destroy (h : Inv s nodes contents) {old_head : A} {value : Option T}
    (hpc : s.pc i = .destroy old_head value) :
    Inv { s.goto i (.ret (value <|> data s.heap old_head)) with
      heap := Heap.free s.heap old_head } nodes contents := by
  obtain ⟨-, hnot⟩ := h.owned i old_head (by rw [hpc]; rfl)
  have hknows := h.knows i
  rw [hpc] at hknows
  obtain ⟨v, hvalue, hlast⟩ := hknows
  refine h.update (h.holds.congr fun a ha => Heap.free_of_ne ?_) h.deque h.results
    (h.mutex.move (by rw [hpc]; rfl)) (by rintro a ⟨⟩) (fun j a hj ha => ⟨Heap.free_of_ne ?_, ?_⟩)
    (fun _ _ _ => id) (fun _ _ => rfl) ?_
  · rintro rfl
    exact hnot ha
  · rintro rfl
    exact hj (h.unique j i a ha (by rw [hpc]; rfl))
  · exact (h.owned j a ha).2
  · show Returns s.log i _
    rw [hvalue]
    exact Or.inl hlast

/-- `push` has its node. -/
theorem Inv.alloc (h : Inv s nodes contents) {v : T} {q : A} (hpc : s.pc i = .push_alloc v)
    (hfree : (s.heap q).live = false) :
    Inv { s.goto i (.push v q) with heap := Heap.alloc s.heap q {} } nodes contents := by
  have hne : ∀ a, (s.heap a).live = true → a ≠ q := by
    rintro a hlive rfl
    rw [hfree] at hlive
    cases hlive
  refine h.update (h.holds.congr fun a ha => Heap.alloc_of_ne (hne a (h.holds.live a ha)))
    h.deque h.results (h.mutex.move (by rw [hpc]; rfl)) ?_
    (fun j a _ ha => ⟨Heap.alloc_of_ne (hne a (h.owned j a ha).1), (h.owned j a ha).2⟩)
    (fun _ _ _ => id) (fun _ _ => rfl) ?_
  · rintro a ⟨⟩
    refine ⟨by rw [Heap.alloc_self], fun hmem => hne q (h.holds.live q hmem) rfl, ?_⟩
    exact fun j _ hj => hne q (h.owned j q hj).1 rfl
  · show next _ q = none
    rw [next, Heap.alloc_self]

/-- A step of a thread that is in a call. -/
theorem inv_run (h : Inv s nodes contents) (hstep : s.run i = some t) :
    ∃ nodes' contents', Inv t nodes' contents' := by
  unfold Sys.run at hstep
  cases hpc : s.pc i with
  | idle | push_alloc | blocked => simp only [hpc, reduceCtorEq] at hstep
  | push v q =>
      simp only [hpc, Option.some.injEq] at hstep
      subst hstep
      exact ⟨_, _, h.push hpc⟩
  | lock op timed_out =>
      cases hmutex : s.head_mutex <;>
        simp only [hpc, hmutex, reduceCtorEq, Option.some.injEq] at hstep
      subst hstep
      have hguard := h.mutex
      rw [hmutex] at hguard
      exact ⟨_, _, h.goto (hguard.lock rfl) rfl trivial⟩
  | get_tail op timed_out =>
      simp only [hpc] at hstep
      split at hstep <;> cases hstep
      · next heq =>
          have hnil := h.holds.contents_nil_iff.mpr heq
          have hi : (s.pc i).inside = true := by rw [hpc]; rfl
          refine ⟨_, _, h.event (e := .empty i) rfl ⟨hnil, hnil⟩ trivial
            (h.mutex.unlock hi ?_) ?_ ?_⟩
          · split <;> rfl
          · split <;> rfl
          · split
            · trivial
            · exact lastOf_append_self s.log (.empty i)
      · next hne =>
          refine ⟨_, _, h.goto (h.mutex.move (by rw [hpc]; rfl)) rfl ?_⟩
          exact fun hnil => hne (h.holds.nil_iff.mp hnil)
  | pop op =>
      simp only [hpc] at hstep
      exact h.pop hpc hstep
  | destroy old_head value =>
      simp only [hpc, Option.some.injEq] at hstep
      subst hstep
      exact ⟨_, _, h.destroy hpc⟩
  | try_steal =>
      cases hmutex : s.head_mutex <;> simp only [hpc, hmutex, reduceCtorEq] at hstep
      exact h.try_steal hpc hmutex hstep
  | ret result =>
      simp only [hpc, Option.some.injEq] at hstep
      subst hstep
      have hknows := h.knows i
      rw [hpc] at hknows
      exact ⟨_, _, h.event (e := .ret i result) rfl rfl hknows (h.mutex.move (by rw [hpc]; rfl)) rfl
        trivial⟩

/-- A step, or the beginning of a call. -/
theorem inv_step {first : A} {a : Action A ι T} (h : Inv s nodes contents)
    (hstep : (system ι T first).step s a = some t) :
    ∃ nodes' contents', Inv t nodes' contents' := by
  change Sys.step s a = some t at hstep
  cases a with
  | call i c =>
      cases hpc : s.pc i <;> simp only [Sys.step, hpc, reduceCtorEq, Option.some.injEq] at hstep
      subst hstep
      refine ⟨_, _, h.goto (h.mutex.move ?_) ?_ ?_⟩
      · rw [hpc]
        cases c <;> rfl
      · cases c <;> rfl
      · cases c <;> trivial
  | run i => exact inv_run h hstep
  | alloc i q =>
      cases hpc : s.pc i <;> simp only [Sys.step, hpc, reduceCtorEq] at hstep
      split at hstep <;> cases hstep
      next hfree => exact ⟨_, _, h.alloc hpc (Bool.not_eq_true _ ▸ hfree)⟩
  | wake i timed_out =>
      cases hpc : s.pc i <;> simp only [Sys.step, hpc, reduceCtorEq] at hstep
      split at hstep <;> cases hstep
      exact ⟨_, _, h.goto (h.mutex.move (by rw [hpc]; rfl)) rfl trivial⟩

/-- The queue begins with its dummy node. -/
theorem inv_init (first : A) : Inv (initial first : Sys A ι T) [] [] where
  holds := by
    refine ⟨rfl, rfl, ?_, List.nodup_singleton _, rfl⟩
    intro a ha
    exact decide_eq_true (List.mem_singleton.mp ha)
  deque := .init
  results := forall_split_nil
  mutex _ := iff_of_false (by rintro ⟨⟩) (by rintro ⟨⟩)
  owned := by rintro _ _ ⟨⟩
  unique := by rintro _ _ _ ⟨⟩
  knows _ := trivial

/-! ## The calls are in the log -/

def Action.thread : Action A ι T → ι
  | .call i _ | .run i | .alloc i _ | .wake i _ => i

/-- From `s` to `t` the events `es` are logged. They are those of the call that thread `a.thread`
is in, as far as it comes with this step, and none of another thread. -/
structure Goes (a : Action A ι T) (es : List (Event ι T)) (s t : Sys A ι T) : Prop where
  pc : ∀ i, i ≠ a.thread → t.pc i = s.pc i
  log : t.log = s.log ++ es
  own : ∀ e ∈ es, e.thread = a.thread
  pushes : es.flatMap (Event.pushes a.thread) ++ (t.pc a.thread).pushes =
    (s.pc a.thread).pushes ++ a.pushes a.thread
  takes : es.countP (Event.returns a.thread) + (t.pc a.thread).takes.toNat =
    (s.pc a.thread).takes.toNat + (a.takes a.thread).toNat

omit [DecidableEq A] in
theorem Action.other {a : Action A ι T} (hi : i ≠ a.thread) :
    a.pushes i = [] ∧ a.takes i = false := by
  cases a with
  | call j c =>
      cases c with
      | push v => exact ⟨if_neg (Ne.symm hi), rfl⟩
      | pop _ | try_steal => exact ⟨rfl, decide_eq_false (Ne.symm hi)⟩
  | run _ | alloc _ _ | wake _ _ => exact ⟨rfl, rfl⟩

omit [DecidableEq A] in
theorem Event.other {e : Event ι T} (hi : i ≠ e.thread) :
    e.pushes i = [] ∧ e.returns i = false := by
  cases e with
  | push j v => exact ⟨if_neg (Ne.symm hi), rfl⟩
  | ret j _ => exact ⟨rfl, decide_eq_false (Ne.symm hi)⟩
  | front _ _ | back _ _ | empty _ => exact ⟨rfl, rfl⟩

omit [DecidableEq A] in
/-- What is logged of a thread is what it was told, also over one more step. -/
theorem Goes.answers {a : Action A ι T} {es : List (Event ι T)} (h : Goes a es s t) (i : ι) :
    t.log.flatMap (Event.pushes i) ++ (t.pc i).pushes =
        s.log.flatMap (Event.pushes i) ++ ((s.pc i).pushes ++ a.pushes i) ∧
      t.log.countP (Event.returns i) + (t.pc i).takes.toNat =
        s.log.countP (Event.returns i) + ((s.pc i).takes.toNat + (a.takes i).toNat) := by
  rw [h.log, List.flatMap_append, List.countP_append, List.append_assoc, Nat.add_assoc]
  by_cases hi : i = a.thread
  · rw [hi, h.pushes, h.takes]
    exact ⟨rfl, rfl⟩
  · -- another thread: none of the events is its own
    obtain ⟨hpushes, htakes⟩ := Action.other hi
    have hnone : es.flatMap (Event.pushes i) = [] :=
      List.flatMap_eq_nil_iff.mpr fun e he => (Event.other (h.own e he ▸ hi)).1
    have hzero : es.countP (Event.returns i) = 0 :=
      List.countP_eq_zero.mpr fun e he => by
        rw [(Event.other (h.own e he ▸ hi)).2]
        exact Bool.false_ne_true
    rw [h.pc i hi, hpushes, htakes, hnone, hzero, List.append_nil, List.nil_append]
    exact ⟨rfl, by rw [Bool.toNat_false]; omega⟩

omit [DecidableEq A] in
/-- A step that takes a thread from `p` to `q`. -/
theorem goes {a : Action A ι T} {es : List (Event ι T)} {q : Pc A T} (hp : s.pc a.thread = p)
    (hpc : t.pc = Function.update s.pc a.thread q) (hlog : t.log = s.log ++ es)
    (hown : ∀ e ∈ es, e.thread = a.thread)
    (hpushes : es.flatMap (Event.pushes a.thread) ++ q.pushes = p.pushes ++ a.pushes a.thread)
    (htakes : es.countP (Event.returns a.thread) + q.takes.toNat =
      p.takes.toNat + (a.takes a.thread).toNat) : Goes a es s t := by
  subst hp
  refine ⟨fun j hj => ?_, hlog, hown, ?_, ?_⟩
  · rw [hpc, Function.update_of_ne hj]
  · rw [hpc, Function.update_self]
    exact hpushes
  · rw [hpc, Function.update_self]
    exact htakes

/-- A pop logs that it has taken its value; it has not returned yet. -/
theorem goes_pop {op : Op} (hpc : s.pc i = .pop op) (hstep : s.pop i op = some t) :
    ∃ es, Goes (.run i) es s t := by
  unfold Sys.pop at hstep
  split at hstep
  next v new_head _ _ =>
    refine ⟨[.front i v], ?_⟩
    cases op <;> obtain rfl := Option.some.inj hstep <;>
      exact goes hpc rfl rfl (fun e he => List.mem_singleton.mp he ▸ rfl) rfl rfl
  next => cases hstep

/-- Where `try_steal` returns it leaves one result, and otherwise none. -/
theorem goes_try_steal (hpc : s.pc i = .try_steal) (hstep : s.try_steal i = some t) :
    ∃ es, Goes (.run i) es s t := by
  unfold Sys.try_steal at hstep
  split at hstep
  next =>
    obtain rfl := Option.some.inj hstep
    exact ⟨[.empty i], goes hpc rfl rfl (fun e he => List.mem_singleton.mp he ▸ rfl) rfl rfl⟩
  next =>
    split at hstep
    next => cases hstep
    next =>
      split at hstep
      next => cases hstep
      next v _ =>
        obtain rfl := Option.some.inj hstep
        exact ⟨[.back i v], goes hpc rfl rfl (fun e he => List.mem_singleton.mp he ▸ rfl) rfl rfl⟩

/-- The same for all steps of a thread. -/
theorem goes_run (hstep : s.run i = some t) : ∃ es, Goes (.run i) es s t := by
  have hnone : ∀ e ∈ ([] : List (Event ι T)), e.thread = i := fun e he => absurd he List.not_mem_nil
  unfold Sys.run at hstep
  cases hpc : s.pc i with
  | idle | push_alloc | blocked => simp only [hpc, reduceCtorEq] at hstep
  | push v q =>
      simp only [hpc, Option.some.injEq] at hstep
      subst hstep
      -- the section: what was to be pushed is in the log now
      refine ⟨[.push i v], goes hpc rfl rfl (fun e he => List.mem_singleton.mp he ▸ rfl) ?_ ?_⟩
      · exact congrArg (· ++ []) ((List.flatMap_singleton _ _).trans (if_pos rfl))
      · rfl
  | lock op timed_out =>
      cases hmutex : s.head_mutex <;>
        simp only [hpc, hmutex, reduceCtorEq, Option.some.injEq] at hstep
      subst hstep
      exact ⟨[], goes hpc rfl (List.append_nil _).symm hnone rfl rfl⟩
  | get_tail op timed_out =>
      simp only [hpc] at hstep
      split at hstep <;> cases hstep
      · refine ⟨[.empty i], goes hpc rfl rfl (fun e he => List.mem_singleton.mp he ▸ rfl) ?_ ?_⟩
        · split <;> rfl
        · split <;> rfl
      · exact ⟨[], goes hpc rfl (List.append_nil _).symm hnone rfl rfl⟩
  | pop op =>
      simp only [hpc] at hstep
      exact goes_pop hpc hstep
  | destroy old_head value =>
      simp only [hpc, Option.some.injEq] at hstep
      subst hstep
      exact ⟨[], goes hpc rfl (List.append_nil _).symm hnone rfl rfl⟩
  | try_steal =>
      cases hmutex : s.head_mutex <;> simp only [hpc, hmutex, reduceCtorEq] at hstep
      exact goes_try_steal hpc hstep
  | ret result =>
      simp only [hpc, Option.some.injEq] at hstep
      subst hstep
      refine ⟨[.ret i result], goes hpc rfl rfl (fun e he => List.mem_singleton.mp he ▸ rfl) ?_ ?_⟩
      · rfl
      · exact congrArg (· + 0) (List.countP_singleton.trans (if_pos (decide_eq_true rfl)))

/-- An event of a call is logged by a step of its own thread, and by one step only. -/
theorem goes_step {a : Action A ι T} (hstep : s.step a = some t) : ∃ es, Goes a es s t := by
  have hnone : ∀ i, ∀ e ∈ ([] : List (Event ι T)), e.thread = i :=
    fun i e he => absurd he List.not_mem_nil
  cases a with
  | call i c =>
      cases hpc : s.pc i <;> simp only [Sys.step, hpc, reduceCtorEq, Option.some.injEq] at hstep
      subst hstep
      refine ⟨[], goes hpc rfl (List.append_nil _).symm (hnone i) ?_ ?_⟩
      · cases c with
        | push v => exact (if_pos rfl).symm
        | pop _ | try_steal => rfl
      · cases c with
        | push v => rfl
        | pop _ | try_steal => exact congrArg (0 + Bool.toNat ·) (decide_eq_true rfl).symm
  | run i => exact goes_run hstep
  | alloc i q =>
      cases hpc : s.pc i <;> simp only [Sys.step, hpc, reduceCtorEq] at hstep
      split at hstep <;> cases hstep
      exact ⟨[], goes hpc rfl (List.append_nil _).symm (hnone i) rfl rfl⟩
  | wake i timed_out =>
      cases hpc : s.pc i <;> simp only [Sys.step, hpc, reduceCtorEq] at hstep
      split at hstep <;> cases hstep
      exact ⟨[], goes hpc rfl (List.append_nil _).symm (hnone i) rfl rfl⟩

/-- The calls of a run are in its log, on top of what there was. -/
theorem answers_exec {first : A} {as : List (Action A ι T)}
    (h : (system ι T first).exec s as = some t) (i : ι) :
    t.log.flatMap (Event.pushes i) ++ (t.pc i).pushes =
        s.log.flatMap (Event.pushes i) ++ ((s.pc i).pushes ++ as.flatMap (Action.pushes i)) ∧
      t.log.countP (Event.returns i) + (t.pc i).takes.toNat =
        s.log.countP (Event.returns i) +
          ((s.pc i).takes.toNat + as.countP (Action.takes i)) := by
  induction as generalizing s with
  | nil =>
      obtain rfl := Option.some.inj h
      rw [List.flatMap_nil, List.append_nil, List.countP_nil, Nat.add_zero]
      exact ⟨rfl, rfl⟩
  | cons a as ih =>
      obtain ⟨u, hu, hrest⟩ := (system ι T first).exec_cons_some.mp h
      obtain ⟨es, hgoes⟩ := goes_step hu
      obtain ⟨hpushes, htakes⟩ := hgoes.answers i
      obtain ⟨hpushes', htakes'⟩ := ih hrest
      constructor
      · rw [hpushes', ← List.append_assoc, hpushes, List.flatMap_cons]
        simp only [List.append_assoc]
      · have hcount : (a :: as).countP (Action.takes i) =
            as.countP (Action.takes i) + (a.takes i).toNat := by
          rw [List.countP_cons]
          cases a.takes i <;> rfl
        omega

/-- **The queue is a double-ended one.** After any run of any threads the log is one of a
double-ended queue, the nodes have its contents, and the results are those of the log; and the log
is what the threads were told to do: a push that has returned is in it once, and so is the result
of a pop or a `try_steal` that has returned. -/
theorem steal_queue_refines (first : A) (as : List (Action A ι T)) :
    (system ι T first).Along Refines (system ι T first).init as ∧
      ∀ s, (system ι T first).exec (system ι T first).init as = some s → ∀ i, Answers as s i := by
  refine ⟨(system ι T first).along_of_inv (I := fun s => ∃ nodes contents, Inv s nodes contents)
    (fun _ ⟨_, _, h⟩ => h.refines) (fun _ _ _ ⟨_, _, h⟩ hstep => inv_step h hstep)
    ⟨[], [], inv_init first⟩, fun s hrun i => ?_⟩
  obtain ⟨hpushes, htakes⟩ := answers_exec hrun i
  have hinit : (0 : Nat) + (0 + as.countP (Action.takes i)) = as.countP (Action.takes i) := by
    rw [Nat.zero_add, Nat.zero_add]
  exact ⟨hpushes.symm, (htakes.trans hinit).symm⟩

/-- A push, a `try_steal` of what was pushed, and a pop that finds the queue empty. -/
def stolen_run : List (Action Nat Bool Nat) :=
  [.call true (.push 7), .alloc true 1, .run true] ++
    [.call false .try_steal, .run false, .run false] ++
    [.call true (.pop .try_pop), .run true, .run true, .run true]

def stolen : Sys Nat Bool Nat :=
  ((system Bool Nat 0).exec (system Bool Nat 0).init stolen_run).get rfl

theorem steal_queue_refines_stolen :
    stolen.log = [.push true 7, .back false 7, .ret false (some 7), .empty true, .ret true none] ∧
      Refines stolen ∧ ∀ i, Answers stolen_run stolen i := by
  have hrun : (system Bool Nat 0).exec (system Bool Nat 0).init stolen_run = some stolen :=
    (Option.some_get _).symm
  exact ⟨rfl, (steal_queue_refines 0 stolen_run).1.last _ hrun,
    (steal_queue_refines 0 stolen_run).2 stolen hrun⟩

end BoostNet.StealQueue
