/-
The chain of nodes of the lock-free queue (Concurrent/day18-LockFreeQue), over every
run.

The chain is the sequence of all nodes ever linked. `Inv` says where `head`, `tail`
and the last node are in it, and what each suspended thread still knows about it. It
holds in every reachable state, because `next` is set once per node and a `head` or
`tail` that a thread has loaded does not become current again once it is passed.

* `Move` lists what a step does to the chain and the memory, and `move_step` says
  that every step of every thread is a move.
* `inv_move`: the moves keep the invariant, one lemma per kind of move.
-/
import BoostNet.LockFreeQue
import BoostNet.Threads
import Mathlib.Data.Multiset.AddSub

set_option autoImplicit false

namespace BoostNet.LockFreeQue

/-! ## What a thread holds -/

variable {ι V : Type*}

/-- The node a push has allocated and not linked. -/
def After.own : After V → Option CountedNodePtr
  | .push_again _ new_next _ => some new_next
  | .push_done _ | .pop_done _ | .pop_empty | .pop_again _ => none

def SetTail.own : SetTail V → Option CountedNodePtr
  | .again _ new_next => some new_next
  | .done _ => none

def Pc.own : Pc V → Option CountedNodePtr
  | .push_load _ new_next | .push_inc _ new_next _ | .push_data _ new_next _
  | .push_next_load _ new_next _ | .push_next_cas _ new_next _ | .help_next _ new_next _ =>
      some new_next
  | .set_new_tail _ _ _ k => k.own
  | .free_load _ k | .free_cas _ _ k | .release_load _ k | .release_cas _ _ k => k.own
  | .idle | .pop_load | .pop_inc _ | .pop_tail _ | .pop_next _ | .pop_cas _ _
  | .pop_exchange _ => none

/-- The node a pop has passed and whose data it has still to take. -/
def Pc.taking : Pc V → Option Nat
  | .pop_exchange old_head => some old_head.ptr
  | .idle | .push_load _ _ | .push_inc _ _ _ | .push_data _ _ _ | .push_next_load _ _ _
  | .push_next_cas _ _ _ | .help_next _ _ _ | .set_new_tail _ _ _ _ | .free_load _ _
  | .free_cas _ _ _ | .release_load _ _ | .release_cas _ _ _ | .pop_load | .pop_inc _
  | .pop_tail _ | .pop_next _ | .pop_cas _ _ => none

/-- The node whose data a push has set and which it has still to see passed by
`tail`. -/
def Pc.advancing : Pc V → Option Nat
  | .push_next_load _ _ old_tail | .push_next_cas _ _ old_tail => some old_tail.ptr
  | .set_new_tail current_tail_ptr _ _ (.done _) => some current_tail_ptr
  | .set_new_tail _ _ _ (.again _ _) | .idle | .push_load _ _ | .push_inc _ _ _
  | .push_data _ _ _ | .help_next _ _ _ | .free_load _ _ | .free_cas _ _ _
  | .release_load _ _ | .release_cas _ _ _ | .pop_load | .pop_inc _ | .pop_tail _
  | .pop_next _ | .pop_cas _ _ | .pop_exchange _ => none

/-- The value a push has put in a node without having returned. -/
def After.pushing : After V → Option V
  | .push_done v => some v
  | .push_again _ _ _ | .pop_done _ | .pop_empty | .pop_again _ => none

def SetTail.pushing : SetTail V → Option V
  | .done v => some v
  | .again _ _ => none

def Pc.pushing : Pc V → Option V
  | .push_next_load v _ _ | .push_next_cas v _ _ => some v
  | .set_new_tail _ _ _ k => k.pushing
  | .free_load _ k | .free_cas _ _ k | .release_load _ k | .release_cas _ _ k => k.pushing
  | .idle | .push_load _ _ | .push_inc _ _ _ | .push_data _ _ _ | .help_next _ _ _
  | .pop_load | .pop_inc _ | .pop_tail _ | .pop_next _ | .pop_cas _ _ | .pop_exchange _ => none

/-- The value a pop has taken out of a node without having returned. -/
def After.popping : After V → Option V
  | .pop_done res => res
  | .push_done _ | .push_again _ _ _ | .pop_empty | .pop_again _ => none

def Pc.popping : Pc V → Option V
  | .free_load _ k | .free_cas _ _ k | .release_load _ k | .release_cas _ _ k => k.popping
  | .idle | .push_load _ _ | .push_inc _ _ _ | .push_data _ _ _ | .push_next_load _ _ _
  | .push_next_cas _ _ _ | .help_next _ _ _ | .set_new_tail _ _ _ _ | .pop_load | .pop_inc _
  | .pop_tail _ | .pop_next _ | .pop_cas _ _ | .pop_exchange _ => none

/-- After `set_new_tail` a thread holds the node that the continuation says. -/
@[simp] theorem SetTail.after_own (old_tail : CountedNodePtr) (k : SetTail V) :
    (k.after old_tail).own = k.own := by
  cases k <;> rfl

/-- A value that is being pushed is still to be pushed after the helping CAS. -/
@[simp] theorem SetTail.after_pushing (old_tail : CountedNodePtr) (k : SetTail V) :
    (k.after old_tail).pushing = k.pushing := by
  cases k <;> rfl

@[simp] theorem SetTail.after_popping (old_tail : CountedNodePtr) (k : SetTail V) :
    (k.after old_tail).popping = none := by
  cases k <;> rfl

/-! ## The chain -/

/-- The nodes in the order in which they were linked, and the positions of `head`,
`tail` and the last node. -/
structure Chain where
  node : Nat → Nat
  head : Nat
  tail : Nat
  last : Nat

structure Shape (g : Chain) (s : Que ι V) : Prop where
  inj : ∀ i j, i ≤ g.last → j ≤ g.last → g.node i = g.node j → i = j
  alloc : ∀ i, i ≤ g.last → g.node i < s.fresh
  head_le : g.head ≤ g.tail
  tail_le : g.tail ≤ g.last
  last_le : g.last ≤ g.tail + 1
  head_ptr : s.head.ptr = g.node g.head
  tail_ptr : s.tail.ptr = g.node g.tail
  link : ∀ i, i < g.last → s.next (g.node i) = ⟨1, g.node (i + 1)⟩
  stop : s.next (g.node g.last) = {}
  full : ∀ i, g.head ≤ i → i < g.tail → s.data (g.node i) ≠ none
  set : g.tail < g.last → s.data (g.node g.tail) ≠ none
  ahead : g.tail < g.last → s.data (g.node g.last) = none
  outside : ∀ a, (∀ i, i ≤ g.last → a ≠ g.node i) → s.data a = none
  unused : ∀ a, s.fresh ≤ a → s.next a = {}

/-- A node that is not linked. -/
structure Private (g : Chain) (s : Que ι V) (p : CountedNodePtr) : Prop where
  count : p.external_count = 1
  alloc : p.ptr < s.fresh
  next : s.next p.ptr = {}
  outside : ∀ i, i ≤ g.last → p.ptr ≠ g.node i

/-- What a thread knows of the pointers it holds. -/
def Pc.Ok (g : Chain) (s : Que ι V) : Pc V → Prop
  | .push_data _ _ old_tail => ∃ i, i ≤ g.tail ∧ old_tail.ptr = g.node i
  | .push_next_load _ _ old_tail | .push_next_cas _ _ old_tail | .help_next _ _ old_tail =>
      ∃ i, i ≤ g.tail ∧ old_tail.ptr = g.node i ∧ (i = g.tail → s.data (g.node i) ≠ none)
  | .set_new_tail current_tail_ptr old_tail new_tail _ =>
      ∃ i, i ≤ g.tail ∧ i < g.last ∧ current_tail_ptr = g.node i ∧
        new_tail = ⟨1, g.node (i + 1)⟩ ∧ old_tail.ptr = g.node i
  | .pop_tail old_head => ∃ i, i ≤ g.head ∧ old_head.ptr = g.node i
  | .pop_next old_head => ∃ i, i < g.tail ∧ old_head.ptr = g.node i
  | .pop_cas old_head next =>
      ∃ i, i < g.tail ∧ old_head.ptr = g.node i ∧ next = ⟨1, g.node (i + 1)⟩
  | .pop_exchange old_head =>
      ∃ i, i < g.head ∧ old_head.ptr = g.node i ∧ s.data (g.node i) ≠ none
  | .idle | .push_load _ _ | .push_inc _ _ _ | .free_load _ _ | .free_cas _ _ _
  | .release_load _ _ | .release_cas _ _ _ | .pop_load | .pop_inc _ => True

structure Inv (g : Chain) (s : Que ι V) : Prop extends Shape g s where
  threads : ∀ j, (s.pc j).Ok g s
  own : ∀ j p, (s.pc j).own = some p → Private g s p
  own_unique : Unique Pc.own s.pc
  taking_unique : Unique Pc.taking s.pc
  advanced : s.data (g.node g.tail) ≠ none → ∃ j, (s.pc j).advancing = some (g.node g.tail)

/-- The chain of the constructor. -/
def Chain.init : Chain := ⟨fun _ => 1, 0, 0, 0⟩

/-- A queue that was just made: a dummy node, which the head and the tail point to. -/
theorem inv_init [DecidableEq ι] : Inv Chain.init (system ι V).init where
  inj i j hi hj _ := by
    rw [Nat.le_zero.mp hi, Nat.le_zero.mp hj]
  alloc _ _ := Nat.one_lt_two
  head_le := Nat.le_refl 0
  tail_le := Nat.le_refl 0
  last_le := Nat.zero_le 1
  head_ptr := rfl
  tail_ptr := rfl
  link i hi := absurd hi (Nat.not_lt_zero i)
  stop := rfl
  full i _ hi := absurd hi (Nat.not_lt_zero i)
  set h := absurd h (Nat.lt_irrefl 0)
  ahead _ := rfl
  outside _ _ := rfl
  unused _ _ := rfl
  threads _ := trivial
  own j p h := by cases h
  own_unique j j' b h := by cases h
  taking_unique j j' b h := by cases h
  advanced h := absurd rfl h

/-- The chain has only grown, and `head` and `tail` have only advanced. -/
structure Chain.Grows (g g' : Chain) : Prop where
  node : ∀ i, i ≤ g.last → g'.node i = g.node i
  head : g.head ≤ g'.head
  tail : g.tail ≤ g'.tail
  last : g.last ≤ g'.last

/-- A chain that stays as it is has grown by nothing. -/
theorem Chain.Grows.refl (g : Chain) : g.Grows g :=
  ⟨fun _ _ => rfl, Nat.le_refl _, Nat.le_refl _, Nat.le_refl _⟩

/-- What a suspended thread knows survives the moves of the others. -/
theorem Pc.Ok.mono {g g' : Chain} {s t : Que ι V} {p : Pc V} (h : p.Ok g s)
    (hs : Shape g s) (hg : g.Grows g')
    (hset : g'.tail = g.tail → s.data (g.node g.tail) ≠ none → t.data (g.node g.tail) ≠ none)
    (htake : ∀ a, p.taking = some a → s.data a ≠ none → t.data a ≠ none) : p.Ok g' t := by
  have hlast := hs.tail_le
  have hhead := hs.head_le
  -- the push that has set, or found set, the data of the node at `i`
  have hpush : ∀ n : Nat, (∃ i, i ≤ g.tail ∧ n = g.node i ∧
        (i = g.tail → s.data (g.node i) ≠ none)) →
      ∃ i, i ≤ g'.tail ∧ n = g'.node i ∧ (i = g'.tail → t.data (g'.node i) ≠ none) := by
    rintro n ⟨i, hi, rfl, hdata⟩
    refine ⟨i, Nat.le_trans hi hg.tail, (hg.node i (by omega)).symm, fun heq => ?_⟩
    have htail : g'.tail = g.tail := by
      have := hg.tail
      omega
    obtain rfl : i = g.tail := heq.trans htail
    rw [hg.node g.tail hlast]
    exact hset htail (hdata rfl)
  cases p with
  | push_data v new_next old_tail =>
      obtain ⟨i, hi, hptr⟩ := h
      exact ⟨i, Nat.le_trans hi hg.tail, by rw [hg.node i (by omega), hptr]⟩
  | push_next_load v new_next old_tail => exact hpush old_tail.ptr h
  | push_next_cas v new_next old_tail => exact hpush old_tail.ptr h
  | help_next v new_next old_tail => exact hpush old_tail.ptr h
  | set_new_tail current_tail_ptr old_tail new_tail k =>
      obtain ⟨i, hi, hlt, hcur, hnew, hold⟩ := h
      refine ⟨i, Nat.le_trans hi hg.tail, Nat.lt_of_lt_of_le hlt hg.last, ?_, ?_, ?_⟩
      · rw [hg.node i (by omega), hcur]
      · rw [hg.node (i + 1) hlt, hnew]
      · rw [hg.node i (by omega), hold]
  | pop_tail old_head =>
      obtain ⟨i, hi, hptr⟩ := h
      exact ⟨i, Nat.le_trans hi hg.head, by rw [hg.node i (by omega), hptr]⟩
  | pop_next old_head =>
      obtain ⟨i, hi, hptr⟩ := h
      exact ⟨i, Nat.lt_of_lt_of_le hi hg.tail, by rw [hg.node i (by omega), hptr]⟩
  | pop_cas old_head next =>
      obtain ⟨i, hi, hptr, hnext⟩ := h
      refine ⟨i, Nat.lt_of_lt_of_le hi hg.tail, ?_, ?_⟩
      · rw [hg.node i (by omega), hptr]
      · rw [hg.node (i + 1) (by omega), hnext]
  | pop_exchange old_head =>
      obtain ⟨i, hi, hptr, hdata⟩ := h
      refine ⟨i, Nat.lt_of_lt_of_le hi hg.head, ?_, ?_⟩
      · rw [hg.node i (by omega), hptr]
      · rw [hg.node i (by omega)]
        exact htake (g.node i) (by rw [← hptr]; rfl) hdata
  | _ => trivial

/-- A new node is written where nothing was. -/
theorem Shape.alloc_eq {g : Chain} {s : Que ι V} (h : Shape g s) :
    s.alloc.data = s.data ∧ s.alloc.next = s.next := by
  constructor
  · refine Function.update_eq_self_iff.mpr (h.outside s.fresh fun j hj heq => ?_).symm
    have hlt := h.alloc j hj
    omega
  · exact Function.update_eq_self_iff.mpr (h.unused s.fresh (Nat.le_refl _)).symm

/-- The chain depends on the data, `next`, and the two pointers only. -/
theorem Shape.congr {g : Chain} {s t : Que ι V} (h : Shape g s) (hdata : t.data = s.data)
    (hnext : t.next = s.next) (hfresh : s.fresh ≤ t.fresh) (hhead : t.head.ptr = s.head.ptr)
    (htail : t.tail.ptr = s.tail.ptr) : Shape g t where
  inj := h.inj
  alloc j hj := Nat.lt_of_lt_of_le (h.alloc j hj) hfresh
  head_le := h.head_le
  tail_le := h.tail_le
  last_le := h.last_le
  head_ptr := hhead.trans h.head_ptr
  tail_ptr := htail.trans h.tail_ptr
  link := by rw [hnext]; exact h.link
  stop := by rw [hnext]; exact h.stop
  full := by rw [hdata]; exact h.full
  set := by rw [hdata]; exact h.set
  ahead := by rw [hdata]; exact h.ahead
  outside := by rw [hdata]; exact h.outside
  unused a ha := by rw [hnext]; exact h.unused a (Nat.le_trans hfresh ha)

/-- `next` of a node that was once the tail: null if it is the last, and then it is
the tail, or else the node behind it. -/
theorem Shape.next_cases {g : Chain} {s : Que ι V} (h : Shape g s) {n : Nat} (hn : n ≤ g.tail) :
    (s.next (g.node n) = {} ∧ n = g.tail ∧ g.last = g.tail) ∨
      (s.next (g.node n) = ⟨1, g.node (n + 1)⟩ ∧ n < g.last) := by
  have htail := h.tail_le
  rcases Nat.lt_or_ge n g.last with hlt | hge
  · exact Or.inr ⟨h.link n hlt, hlt⟩
  · obtain rfl : n = g.last := by omega
    exact Or.inl ⟨h.stop, by omega, by omega⟩

/-- The node of a thread stays its own as long as the chain and the node's `next` stay. -/
theorem Private.congr {g g' : Chain} {s t : Que ι V} {p : CountedNodePtr} (h : Private g s p)
    (hnode : g'.node = g.node) (hlast : g'.last = g.last) (hnext : t.next = s.next)
    (hfresh : s.fresh ≤ t.fresh) : Private g' t p where
  count := h.count
  alloc := Nat.lt_of_lt_of_le h.alloc hfresh
  next := by rw [hnext]; exact h.next
  outside := by rw [hnode, hlast]; exact h.outside

section Moves

variable [DecidableEq ι]

/-- The invariant after a move of thread `i` to `p`, from what the move does to the
chain and the data. -/
theorem Inv.update {g g' : Chain} {s t : Que ι V} {i : ι} {p : Pc V} (h : Inv g s)
    (hpc : t.pc = Function.update s.pc i p) (hshape : Shape g' t) (hg : g.Grows g')
    (hp : p.Ok g' t)
    (hset : g'.tail = g.tail → s.data (g.node g.tail) ≠ none → t.data (g.node g.tail) ≠ none)
    (htake : ∀ j, j ≠ i → ∀ a, (s.pc j).taking = some a → s.data a ≠ none → t.data a ≠ none)
    (hown : ∀ q, p.own = some q → Private g' t q ∧ ∀ j, j ≠ i → (s.pc j).own ≠ some q)
    (hpriv : ∀ j, j ≠ i → ∀ q, (s.pc j).own = some q → Private g' t q)
    (htaking : ∀ a, p.taking = some a → ∀ j, j ≠ i → (s.pc j).taking ≠ some a)
    (hadv : t.data (g'.node g'.tail) ≠ none → p.advancing = some (g'.node g'.tail) ∨
      ∃ j, j ≠ i ∧ (s.pc j).advancing = some (g'.node g'.tail)) : Inv g' t where
  toShape := hshape
  threads := hpc ▸ forall_update hp fun j hj =>
    (h.threads j).mono h.toShape hg hset (htake j hj)
  own := hpc ▸ forall_update (P := fun p : Pc V => ∀ q, p.own = some q → Private g' t q)
    (fun q hq => (hown q hq).1) hpriv
  own_unique := hpc ▸ h.own_unique.update fun q hq => (hown q hq).2
  taking_unique := hpc ▸ h.taking_unique.update htaking
  advanced hne := by
    rcases hadv hne with hp | ⟨j, hj, hadv⟩
    · exact ⟨i, by rw [hpc, Function.update_self, hp]⟩
    · exact ⟨j, by rw [hpc, Function.update_of_ne hj, hadv]⟩

/-! ### The kinds of move -/

/-- The value under an option, as a multiset. -/
def bag (o : Option V) : Multiset V := (o.toList : List V)

/-- `new_next` is linked behind the last node. -/
def Chain.link (g : Chain) (new_next : CountedNodePtr) : Chain :=
  { g with node := Function.update g.node (g.last + 1) new_next.ptr, last := g.last + 1 }

/-- A new node at the end leaves the nodes before it at their places. -/
theorem Chain.link_node {g : Chain} (new_next : CountedNodePtr) {n : Nat} (hn : n ≤ g.last) :
    (g.link new_next).node n = g.node n :=
  Function.update_of_ne (by omega) _ _

/-- What a step of thread `i` does to the chain and the memory. -/
inductive Move (g : Chain) (s : Que ι V) (i : ι) : Chain → Que ι V → Prop where
  /-- It reads, or changes counts only; it may return. -/
  | stay {t : Que ι V} (p : Pc V) (hpc : t.pc = Function.update s.pc i p)
      (hdata : t.data = s.data) (hnext : t.next = s.next) (hfresh : t.fresh = s.fresh)
      (hhead : t.head.ptr = s.head.ptr) (htail : t.tail.ptr = s.tail.ptr)
      (hp : p.Ok g s) (hown : p.own = none ∨ p.own = (s.pc i).own) (htaking : p.taking = none)
      (htaken : (s.pc i).taking = none)
      (hadv : (s.pc i).advancing = some (g.node g.tail) → p.advancing = some (g.node g.tail))
      (hpush : (t.pushes : Multiset V) + bag p.pushing = s.pushes + bag (s.pc i).pushing)
      (hpop : (t.pops : Multiset V) + bag p.popping = s.pops + bag (s.pc i).popping) :
      Move g s i g t
  | call (v : V) (hpc : s.pc i = .idle) :
      Move g s i g (s.alloc.goto i (.push_load v ⟨1, s.fresh⟩))
  | write (v : V) (new_next old_tail : CountedNodePtr)
      (hpc : s.pc i = .push_data v new_next old_tail) (hdata : s.data old_tail.ptr = none) :
      Move g s i g { s.goto i (.push_next_load v new_next old_tail) with
        data := Function.update s.data old_tail.ptr (some v) }
  | link {t : Que ι V} (new_next old_tail : CountedNodePtr) (k : SetTail V)
      (hown : (s.pc i).own = some new_next) (hlast : g.last = g.tail)
      (hold : old_tail.ptr = g.node g.tail) (hset : s.data (g.node g.tail) ≠ none)
      (hpc : t.pc = Function.update s.pc i (.set_new_tail old_tail.ptr old_tail new_next k))
      (hdata : t.data = s.data) (hnext : t.next = Function.update s.next old_tail.ptr new_next)
      (hhead : t.head = s.head) (htail : t.tail = s.tail)
      (hfresh : (t.fresh = s.fresh ∧ k.own = none) ∨
        (t.fresh = s.fresh + 1 ∧ k.own = some ⟨1, s.fresh⟩))
      (hadv : (s.pc i).advancing =
        (Pc.set_new_tail old_tail.ptr old_tail new_next k).advancing)
      (hpushes : t.pushes = s.pushes) (hpops : t.pops = s.pops)
      (hpush : k.pushing = (s.pc i).pushing) (hpop : (s.pc i).popping = none) :
      Move g s i (g.link new_next) t
  | swing (old_tail new_tail : CountedNodePtr) (k : SetTail V)
      (hpc : s.pc i = .set_new_tail old_tail.ptr old_tail new_tail k) (htail : s.tail = old_tail)
      (hlt : g.tail < g.last) (hnew : new_tail.ptr = g.node (g.tail + 1)) :
      Move g s i { g with tail := g.tail + 1 }
        { s.goto i (.free_load old_tail (k.after old_tail)) with tail := new_tail }
  | take (old_head next : CountedNodePtr) (hpc : s.pc i = .pop_cas old_head next)
      (hhead : s.head = old_head) (hlt : g.head < g.tail)
      (hnext : next.ptr = g.node (g.head + 1)) :
      Move g s i { g with head := g.head + 1 }
        { s.goto i (.pop_exchange old_head) with head := next }
  | exchange (old_head : CountedNodePtr) (hpc : s.pc i = .pop_exchange old_head) :
      Move g s i g { s.goto i (.free_load old_head (.pop_done (s.data old_head.ptr))) with
        data := Function.update s.data old_head.ptr none }

variable {g : Chain} {s : Que ι V} {i : ι}

/-- If the tail's data is set, then by the thread that moves or by another. -/
theorem Inv.advanced_other (h : Inv g s) (i : ι) (hset : s.data (g.node g.tail) ≠ none) :
    (s.pc i).advancing = some (g.node g.tail) ∨
      ∃ j, j ≠ i ∧ (s.pc j).advancing = some (g.node g.tail) := by
  obtain ⟨j, hj⟩ := h.advanced hset
  by_cases hji : j = i
  · exact Or.inl (hji ▸ hj)
  · exact Or.inr ⟨j, hji, hj⟩

/-- A step that moves neither the head nor the tail, links nothing and writes no data keeps the
invariant; what is left to check is the new program counter. -/
theorem inv_stay (h : Inv g s) {t : Que ι V} {p : Pc V}
    (hpc : t.pc = Function.update s.pc i p) (hdata : t.data = s.data) (hnext : t.next = s.next)
    (hfresh : t.fresh = s.fresh) (hhead : t.head.ptr = s.head.ptr)
    (htail : t.tail.ptr = s.tail.ptr) (hp : p.Ok g s)
    (hown : p.own = none ∨ p.own = (s.pc i).own) (htaking : p.taking = none)
    (hadv : (s.pc i).advancing = some (g.node g.tail) → p.advancing = some (g.node g.tail)) :
    Inv g t := by
  have hle : s.fresh ≤ t.fresh := Nat.le_of_eq hfresh.symm
  have hsame : ∀ a, s.data a ≠ none → t.data a ≠ none := by
    intro a ha
    rwa [hdata]
  refine h.update hpc (h.toShape.congr hdata hnext hle hhead htail) (.refl g) ?_
    (fun _ => hsame _) (fun _ _ a _ => hsame a) ?_ ?_ ?_ ?_
  · exact hp.mono h.toShape (.refl g) (fun _ => hsame _) (fun a _ => hsame a)
  · intro q hq
    rcases hown with hnone | hsome
    · rw [hnone] at hq
      cases hq
    · rw [hsome] at hq
      exact ⟨(h.own i q hq).congr rfl rfl hnext hle, fun j hj hjq => hj (h.own_unique j i q hjq hq)⟩
  · exact fun j _ q hq => (h.own j q hq).congr rfl rfl hnext hle
  · intro a ha
    rw [htaking] at ha
    cases ha
  · rw [hdata]
    exact fun hset => (h.advanced_other i hset).imp_left hadv

/-- A push allocates its node first, and nobody else knows the node. -/
theorem inv_call (h : Inv g s) {v : V} (hpc : s.pc i = .idle) :
    Inv g (s.alloc.goto i (.push_load v ⟨1, s.fresh⟩)) := by
  obtain ⟨hdata, hnext⟩ := h.toShape.alloc_eq
  have hsame : ∀ a, s.data a ≠ none → s.alloc.data a ≠ none := by
    intro a ha
    rwa [hdata]
  refine h.update rfl (h.toShape.congr hdata hnext (Nat.le_succ _) rfl rfl) (.refl g) trivial
    (fun _ => hsame _) (fun _ _ a _ => hsame a) ?_ ?_ ?_ ?_
  · intro q hq
    obtain rfl : ⟨1, s.fresh⟩ = q := Option.some.inj hq
    refine ⟨⟨rfl, Nat.lt_succ_self _, ?_, fun j hj heq => ?_⟩, fun j _ hj => ?_⟩
    · show s.alloc.next s.fresh = {}
      rw [hnext]
      exact h.unused s.fresh (Nat.le_refl _)
    · have hlt := h.alloc j hj
      rw [← heq] at hlt
      exact Nat.lt_irrefl _ hlt
    · exact Nat.lt_irrefl _ (h.own j _ hj).alloc
  · exact fun j _ q hq => (h.own j q hq).congr rfl rfl hnext (Nat.le_succ _)
  · intro a ha
    cases ha
  · intro hset
    have hset' : s.data (g.node g.tail) ≠ none := by
      rw [← hdata]
      exact hset
    rcases h.advanced_other i hset' with hi | hj
    · rw [hpc] at hi
      cases hi
    · exact Or.inr hj

/-- A push sets the data of a node it has got from `tail`. -/
theorem inv_write (h : Inv g s) {v : V} {new_next old_tail : CountedNodePtr}
    (hpc : s.pc i = .push_data v new_next old_tail) :
    Inv g { s.goto i (.push_next_load v new_next old_tail) with
      data := Function.update s.data old_tail.ptr (some v) } := by
  obtain ⟨n, hn, hptr⟩ : (Pc.push_data v new_next old_tail).Ok g s := hpc ▸ h.threads i
  have htail := h.tail_le
  have hself : Function.update s.data old_tail.ptr (some v) old_tail.ptr ≠ none := by
    rw [Function.update_self]
    exact Option.some_ne_none v
  have hsame : ∀ a, s.data a ≠ none →
      Function.update s.data old_tail.ptr (some v) a ≠ none := by
    intro a ha
    by_cases heq : a = old_tail.ptr
    · rw [heq]
      exact hself
    · rwa [Function.update_of_ne heq]
  have hne : ∀ a, a ≠ old_tail.ptr → Function.update s.data old_tail.ptr (some v) a = s.data a :=
    fun a ha => Function.update_of_ne ha _ _
  refine h.update rfl ⟨h.inj, h.alloc, h.head_le, h.tail_le, h.last_le, h.head_ptr, h.tail_ptr,
    h.link, h.stop, fun j hj hj' => hsame _ (h.full j hj hj'), fun hlt => hsame _ (h.set hlt),
    fun hlt => ?_, fun a ha => ?_, h.unused⟩ (.refl g) ⟨n, hn, hptr, fun _ => ?_⟩
    (fun _ => hsame _) (fun _ _ a _ => hsame a) ?_ ?_ ?_ ?_
  · rw [← h.ahead hlt]
    apply hne _
    intro heq
    have := h.inj g.last n (Nat.le_refl _) (by omega) (heq.trans hptr)
    omega
  · rw [← h.outside a ha]
    exact hne a fun heq => ha n (by omega) (heq.trans hptr)
  · show Function.update s.data old_tail.ptr (some v) (g.node n) ≠ none
    rw [← hptr]
    exact hself
  · intro q hq
    have hq' : (s.pc i).own = some q := by
      rw [hpc]
      exact hq
    exact ⟨(h.own i q hq').congr rfl rfl rfl (Nat.le_refl _),
      fun j hj hjq => hj (h.own_unique j i q hjq hq')⟩
  · exact fun j _ q hq => (h.own j q hq).congr rfl rfl rfl (Nat.le_refl _)
  · intro a ha
    cases ha
  · intro hset
    by_cases heq : g.node g.tail = old_tail.ptr
    · exact Or.inl (by rw [heq]; rfl)
    · have hset' : s.data (g.node g.tail) ≠ none := by
        rw [← hne _ heq]
        exact hset
      rcases h.advanced_other i hset' with hi | hj
      · rw [hpc] at hi
        cases hi
      · exact Or.inr hj

/-- A position of the longer chain is an old one or the new one. -/
theorem Chain.link_cases {g : Chain} (new_next : CountedNodePtr) {n : Nat}
    (hn : n ≤ (g.link new_next).last) :
    (n ≤ g.last ∧ (g.link new_next).node n = g.node n) ∨
      (n = g.last + 1 ∧ (g.link new_next).node n = new_next.ptr) := by
  have hn : n ≤ g.last + 1 := hn
  rcases Nat.lt_or_ge g.last n with hlt | hge
  · obtain rfl : n = g.last + 1 := by omega
    exact Or.inr ⟨rfl, Function.update_self _ _ _⟩
  · exact Or.inl ⟨hge, g.link_node new_next hge⟩

omit [DecidableEq ι] in
/-- The chain after a private node is linked behind the tail, which was the last. -/
theorem Shape.link_node (h : Shape g s) {t : Que ι V} {new_next old_tail : CountedNodePtr}
    (hpriv : Private g s new_next) (hlast : g.last = g.tail) (hold : old_tail.ptr = g.node g.tail)
    (hset : s.data (g.node g.tail) ≠ none) (hdata : t.data = s.data)
    (hnext : t.next = Function.update s.next old_tail.ptr new_next) (hhead : t.head = s.head)
    (htail : t.tail = s.tail) (hle : s.fresh ≤ t.fresh) : Shape (g.link new_next) t where
  inj := by
    -- the new node is no old one
    intro j j' hj hj' heq
    rcases g.link_cases new_next hj with ⟨hj, hnode⟩ | ⟨rfl, hnode⟩
    · rcases g.link_cases new_next hj' with ⟨hj', hnode'⟩ | ⟨rfl, hnode'⟩
      · rw [hnode, hnode'] at heq
        exact h.inj j j' hj hj' heq
      · rw [hnode, hnode'] at heq
        exact absurd heq.symm (hpriv.outside j hj)
    · rcases g.link_cases new_next hj' with ⟨hj', hnode'⟩ | ⟨rfl, hnode'⟩
      · rw [hnode, hnode'] at heq
        exact absurd heq (hpriv.outside j' hj')
      · rfl
  alloc := by
    intro j hj
    refine Nat.lt_of_lt_of_le ?_ hle
    rcases g.link_cases new_next hj with ⟨hj, hnode⟩ | ⟨rfl, hnode⟩
    · rw [hnode]
      exact h.alloc j hj
    · rw [hnode]
      exact hpriv.alloc
  head_le := h.head_le
  tail_le := Nat.le_succ_of_le h.tail_le
  last_le := Nat.succ_le_succ (Nat.le_of_eq hlast)
  head_ptr := by
    rw [hhead, h.head_ptr]
    exact (g.link_node new_next (Nat.le_trans h.head_le h.tail_le)).symm
  tail_ptr := by
    rw [htail, h.tail_ptr]
    exact (g.link_node new_next h.tail_le).symm
  link := by
    intro j hj
    have hj : j < g.last + 1 := hj
    rw [g.link_node new_next (by omega)]
    by_cases hjl : j = g.last
    · -- the new link
      subst hjl
      have hnode : (g.link new_next).node (g.last + 1) = new_next.ptr :=
        Function.update_self _ _ _
      rw [hnode, hnext, hlast, ← hold, Function.update_self, ← hpriv.count]
    · have hne : g.node j ≠ old_tail.ptr := by
        intro heq
        exact hjl (by rw [hlast]; exact h.inj j g.tail (by omega) h.tail_le (heq.trans hold))
      rw [g.link_node new_next (show j + 1 ≤ g.last by omega), hnext, Function.update_of_ne hne,
        h.link j (by omega)]
  stop := by
    have hnode : (g.link new_next).node (g.last + 1) = new_next.ptr := Function.update_self _ _ _
    show t.next ((g.link new_next).node (g.last + 1)) = {}
    rw [hnode, hnext, Function.update_of_ne (hold ▸ hpriv.outside g.tail h.tail_le), hpriv.next]
  full := by
    intro j hj hj'
    have hj' : j < g.tail := hj'
    have htail_le := h.tail_le
    rw [g.link_node new_next (by omega), hdata]
    exact h.full j hj hj'
  set := by
    intro _
    have hnode : (g.link new_next).node g.tail = g.node g.tail := g.link_node new_next h.tail_le
    show t.data ((g.link new_next).node g.tail) ≠ none
    rw [hnode, hdata]
    exact hset
  ahead := by
    intro _
    have hnode : (g.link new_next).node (g.last + 1) = new_next.ptr := Function.update_self _ _ _
    show t.data ((g.link new_next).node (g.last + 1)) = none
    rw [hnode, hdata]
    exact h.outside _ hpriv.outside
  outside := by
    intro a ha
    rw [hdata]
    apply h.outside a
    intro j hj
    rw [← g.link_node new_next hj]
    exact ha j (Nat.le_succ_of_le hj)
  unused := by
    intro a ha
    have hlt := h.alloc g.tail h.tail_le
    rw [hnext, Function.update_of_ne (by omega)]
    exact h.unused a (Nat.le_trans hle ha)

omit [DecidableEq ι] in
/-- A node that no one had linked is still private, unless it is the one linked now. -/
theorem Private.link_node {p : CountedNodePtr} (hp : Private g s p) (h : Shape g s)
    {t : Que ι V} {new_next old_tail : CountedNodePtr} (hne : p.ptr ≠ new_next.ptr)
    (hold : old_tail.ptr = g.node g.tail)
    (hnext : t.next = Function.update s.next old_tail.ptr new_next) (hle : s.fresh ≤ t.fresh) :
    Private (g.link new_next) t p where
  count := hp.count
  alloc := Nat.lt_of_lt_of_le hp.alloc hle
  next := by
    rw [hnext, Function.update_of_ne (hold ▸ hp.outside g.tail h.tail_le), hp.next]
  outside := by
    intro j hj heq
    rcases g.link_cases new_next hj with ⟨hj, hnode⟩ | ⟨rfl, hnode⟩
    · exact hp.outside j hj (heq.trans hnode)
    · exact hne (heq.trans hnode)

omit [DecidableEq ι] in
/-- The node allocated next is private. -/
theorem Shape.private_fresh (h : Shape g s) {t : Que ι V} {new_next old_tail : CountedNodePtr}
    (hpriv : Private g s new_next) (hold : old_tail.ptr = g.node g.tail)
    (hnext : t.next = Function.update s.next old_tail.ptr new_next)
    (hlt : s.fresh < t.fresh) : Private (g.link new_next) t ⟨1, s.fresh⟩ where
  count := rfl
  alloc := hlt
  next := by
    have hlt' := h.alloc g.tail h.tail_le
    rw [hnext, Function.update_of_ne (show s.fresh ≠ old_tail.ptr by omega)]
    exact h.unused s.fresh (Nat.le_refl _)
  outside := by
    intro j hj heq
    have heq : s.fresh = (g.link new_next).node j := heq
    rcases g.link_cases new_next hj with ⟨hj, hnode⟩ | ⟨rfl, hnode⟩
    · have hlt' := h.alloc j hj
      omega
    · have hlt' := hpriv.alloc
      omega

omit [DecidableEq ι] in
/-- No two threads have allocated the same node. -/
theorem Inv.own_ptr (h : Inv g s) {j j' : ι} {q q' : CountedNodePtr} (hj : (s.pc j).own = some q)
    (hj' : (s.pc j').own = some q') (hptr : q.ptr = q'.ptr) : j = j' := by
  have hcount : q.external_count = q'.external_count :=
    (h.own j q hj).count.trans (h.own j' q' hj').count.symm
  obtain rfl : q = q' := by
    cases q
    cases q'
    exact (CountedNodePtr.mk.injEq _ _ _ _).mpr ⟨hcount, hptr⟩
  exact h.own_unique j j' q hj hj'

/-- The CAS on `next` makes the node the last one of the chain; only the tail may still be behind.
-/
theorem inv_link (h : Inv g s) {t : Que ι V} {new_next old_tail : CountedNodePtr}
    {k : SetTail V} (hown : (s.pc i).own = some new_next) (hlast : g.last = g.tail)
    (hold : old_tail.ptr = g.node g.tail) (hset : s.data (g.node g.tail) ≠ none)
    (hpc : t.pc = Function.update s.pc i (.set_new_tail old_tail.ptr old_tail new_next k))
    (hdata : t.data = s.data) (hnext : t.next = Function.update s.next old_tail.ptr new_next)
    (hhead : t.head = s.head) (htail : t.tail = s.tail)
    (hfresh : (t.fresh = s.fresh ∧ k.own = none) ∨
      (t.fresh = s.fresh + 1 ∧ k.own = some ⟨1, s.fresh⟩))
    (hadv : (s.pc i).advancing =
      (Pc.set_new_tail old_tail.ptr old_tail new_next k).advancing) :
    Inv (g.link new_next) t := by
  have hpriv := h.own i new_next hown
  have hle : s.fresh ≤ t.fresh := by
    rcases hfresh with ⟨heq, -⟩ | ⟨heq, -⟩ <;> omega
  have hgrows : g.Grows (g.link new_next) :=
    ⟨fun _ hj => g.link_node new_next hj, Nat.le_refl _, Nat.le_refl _, Nat.le_succ _⟩
  have htail_node : (g.link new_next).node g.tail = g.node g.tail :=
    g.link_node new_next h.tail_le
  have hnew_node : (g.link new_next).node (g.tail + 1) = new_next.ptr := by
    rw [← hlast]
    exact Function.update_self _ _ _
  have hsame : ∀ a, s.data a ≠ none → t.data a ≠ none := by
    intro a ha
    rwa [hdata]
  have hshape := h.toShape.link_node hpriv hlast hold hset hdata hnext hhead htail hle
  refine h.update hpc hshape hgrows ?_ (fun _ => hsame _) (fun _ _ a _ => hsame a) ?_ ?_ ?_ ?_
  · -- the thread holds the old tail and the node behind it
    refine ⟨g.tail, Nat.le_refl _, ?_, ?_, ?_, ?_⟩
    · show g.tail < g.last + 1
      omega
    · rw [htail_node, hold]
    · rw [hnew_node, ← hpriv.count]
    · rw [htail_node, hold]
  · -- it owns the node it has allocated, if it is to help once more
    intro q hq
    have hq : k.own = some q := hq
    rcases hfresh with ⟨-, hk⟩ | ⟨heq, hk⟩
    · rw [hk] at hq
      cases hq
    · obtain rfl : ⟨1, s.fresh⟩ = q := Option.some.inj (hk.symm.trans hq)
      refine ⟨h.toShape.private_fresh hpriv hold hnext (by omega), fun j _ hj => ?_⟩
      exact absurd (h.own j _ hj).alloc (Nat.lt_irrefl _)
  · intro j hj q hq
    have hq' := h.own j q hq
    exact hq'.link_node h.toShape (fun hptr => hj (h.own_ptr hq hown hptr)) hold hnext hle
  · intro a ha
    cases ha
  · rw [show (g.link new_next).node (g.link new_next).tail = g.node g.tail from htail_node, hdata,
      ← hadv]
    exact h.advanced_other i

/-- The tail goes on by one node, whichever thread it is that helps. -/
theorem inv_swing (h : Inv g s) {old_tail new_tail : CountedNodePtr} {k : SetTail V}
    (hpc : s.pc i = .set_new_tail old_tail.ptr old_tail new_tail k)
    (hlt : g.tail < g.last) (hnew : new_tail.ptr = g.node (g.tail + 1)) :
    Inv { g with tail := g.tail + 1 }
      { s.goto i (.free_load old_tail (k.after old_tail)) with tail := new_tail } := by
  have hlast := h.last_le
  have hahead : s.data (g.node (g.tail + 1)) = none := by
    rw [show g.tail + 1 = g.last by omega]
    exact h.ahead hlt
  refine h.update rfl ⟨h.inj, h.alloc, Nat.le_succ_of_le h.head_le, hlt, by simp only; omega,
    h.head_ptr, hnew, h.link, h.stop, fun j hj hj' => ?_, fun hlt' => ?_, fun hlt' => ?_,
    h.outside, h.unused⟩ ⟨fun _ _ => rfl, Nat.le_refl _, Nat.le_succ _, Nat.le_refl _⟩ trivial
    (fun heq => absurd heq (by simp)) (fun _ _ _ _ => id) ?_ ?_ ?_ ?_
  · have hj' : j < g.tail + 1 := hj'
    rcases Nat.lt_or_ge j g.tail with hjt | hge
    · exact h.full j hj hjt
    · obtain rfl : j = g.tail := by omega
      exact h.set hlt
  · have hlt' : g.tail + 1 < g.last := hlt'
    omega
  · have hlt' : g.tail + 1 < g.last := hlt'
    omega
  · intro q hq
    have hq' : (s.pc i).own = some q := by
      rw [hpc]
      rw [show (Pc.free_load old_tail (k.after old_tail)).own = (k.after old_tail).own from rfl,
        SetTail.after_own] at hq
      exact hq
    exact ⟨(h.own i q hq').congr rfl rfl rfl (Nat.le_refl _),
      fun j hj hjq => hj (h.own_unique j i q hjq hq')⟩
  · exact fun j _ q hq => (h.own j q hq).congr rfl rfl rfl (Nat.le_refl _)
  · intro a ha
    cases ha
  · exact fun hset => absurd hahead hset

/-- The CAS on the head goes on by one node: the thread that did it owns the data of the old head.
-/
theorem inv_take (h : Inv g s) {old_head next : CountedNodePtr}
    (hpc : s.pc i = .pop_cas old_head next) (hhead : s.head = old_head)
    (hlt : g.head < g.tail) (hnext : next.ptr = g.node (g.head + 1)) :
    Inv { g with head := g.head + 1 }
      { s.goto i (.pop_exchange old_head) with head := next } := by
  have htail := h.tail_le
  have hptr : old_head.ptr = g.node g.head := by
    rw [← hhead]
    exact h.head_ptr
  refine h.update rfl ⟨h.inj, h.alloc, hlt, h.tail_le, h.last_le, hnext, h.tail_ptr, h.link,
    h.stop, fun j hj hj' => h.full j (Nat.le_of_succ_le hj) hj', h.set, h.ahead, h.outside,
    h.unused⟩ ⟨fun _ _ => rfl, Nat.le_succ _, Nat.le_refl _, Nat.le_refl _⟩
    ⟨g.head, Nat.lt_succ_self _, hptr, h.full g.head (Nat.le_refl _) hlt⟩ (fun _ => id)
    (fun _ _ _ _ => id) ?_ ?_ ?_ ?_
  · intro q hq
    cases hq
  · exact fun j _ q hq => (h.own j q hq).congr rfl rfl rfl (Nat.le_refl _)
  · -- a pop that has still to take data is at a node before `head`
    intro a ha j _ hj
    obtain rfl : old_head.ptr = a := Option.some.inj ha
    have hok := h.threads j
    cases hpcj : s.pc j with
    | pop_exchange oh =>
        rw [hpcj] at hok hj
        obtain ⟨n, hn, hn', -⟩ := hok
        have heq : g.node n = g.node g.head := by
          rw [← hn', ← hptr]
          exact Option.some.inj hj
        have hnh := h.inj n g.head (by omega) (by omega) heq
        omega
    | _ => rw [hpcj] at hj; cases hj
  · intro hset
    rcases h.advanced_other i hset with hi | hj
    · rw [hpc] at hi
      cases hi
    · exact Or.inr hj

/-- A pop takes the data of a node before `head`, which no one else is taking. -/
theorem inv_exchange (h : Inv g s) {old_head : CountedNodePtr}
    (hpc : s.pc i = .pop_exchange old_head) :
    Inv g { s.goto i (.free_load old_head (.pop_done (s.data old_head.ptr))) with
      data := Function.update s.data old_head.ptr none } := by
  obtain ⟨n, hn, hptr, hdata⟩ : (Pc.pop_exchange old_head : Pc V).Ok g s := hpc ▸ h.threads i
  have hhead := h.head_le
  have htail := h.tail_le
  have htake : (s.pc i).taking = some old_head.ptr := by
    rw [hpc]
    rfl
  -- the nodes from `head` on are others
  have hne : ∀ j, g.head ≤ j → j ≤ g.last →
      Function.update s.data old_head.ptr none (g.node j) = s.data (g.node j) := by
    intro j hj hj'
    refine Function.update_of_ne (fun heq => ?_) _ _
    have hnj := h.inj j n hj' (by omega) (heq.trans hptr)
    omega
  have hout : ∀ a, s.data a = none → Function.update s.data old_head.ptr none a = none := by
    intro a ha
    by_cases heq : a = old_head.ptr
    · rw [heq, Function.update_self]
    · rwa [Function.update_of_ne heq]
  refine h.update rfl ⟨h.inj, h.alloc, h.head_le, h.tail_le, h.last_le, h.head_ptr, h.tail_ptr,
    h.link, h.stop, fun j hj hj' => ?_, fun hlt => ?_, fun hlt => hout _ (h.ahead hlt),
    fun a ha => hout a (h.outside a ha), h.unused⟩ (.refl g) trivial (fun _ hset => ?_)
    (fun j hj a ha hset => ?_) ?_ ?_ ?_ ?_
  · show Function.update s.data old_head.ptr none (g.node j) ≠ none
    rw [hne j hj (by omega)]
    exact h.full j hj hj'
  · show Function.update s.data old_head.ptr none (g.node g.tail) ≠ none
    rw [hne g.tail hhead htail]
    exact h.set hlt
  · show Function.update s.data old_head.ptr none (g.node g.tail) ≠ none
    rw [hne g.tail hhead htail]
    exact hset
  · show Function.update s.data old_head.ptr none a ≠ none
    rw [Function.update_of_ne]
    · exact hset
    · rintro rfl
      exact hj (h.taking_unique j i old_head.ptr ha htake)
  · intro q hq
    cases hq
  · exact fun j _ q hq => (h.own j q hq).congr rfl rfl rfl (Nat.le_refl _)
  · intro a ha
    cases ha
  · intro hset
    have hset' : s.data (g.node g.tail) ≠ none := by
      rw [← hne g.tail hhead htail]
      exact hset
    rcases h.advanced_other i hset' with hi | hj
    · rw [hpc] at hi
      cases hi
    · exact Or.inr hj

/-- One case for each kind of move. This is the step lemma of the queue. -/
theorem inv_move (h : Inv g s) {g' : Chain} {t : Que ι V} (hmove : Move g s i g' t) :
    Inv g' t := by
  cases hmove with
  | stay p hpc hdata hnext hfresh hhead htail hp hown htaking htaken hadv hpush hpop =>
      exact inv_stay h hpc hdata hnext hfresh hhead htail hp hown htaking hadv
  | call v hpc => exact inv_call h hpc
  | write v new_next old_tail hpc hdata => exact inv_write h hpc
  | link new_next old_tail k hown hlast hold hset hpc hdata hnext hhead htail hfresh hadv =>
      exact inv_link h hown hlast hold hset hpc hdata hnext hhead htail hfresh hadv
  | swing old_tail new_tail k hpc htail hlt hnew => exact inv_swing h hpc hlt hnew
  | take old_head next hpc hhead hlt hnext => exact inv_take h hpc hhead hlt hnext
  | exchange old_head hpc => exact inv_exchange h hpc

/-! ### Every step is a move -/

/-- A step that writes nothing shared is a move that stays. -/
theorem move_goto {p q : Pc V} (hpc : s.pc i = q) (hp : p.Ok g s)
    (hown : p.own = none ∨ p.own = q.own) (htaking : p.taking = none) (htaken : q.taking = none)
    (hadv : q.advancing = some (g.node g.tail) → p.advancing = some (g.node g.tail))
    (hpush : p.pushing = q.pushing) (hpop : p.popping = q.popping) : Move g s i g (s.goto i p) := by
  subst hpc
  exact .stay p rfl rfl rfl rfl rfl rfl hp hown htaking htaken hadv (by rw [hpush]; rfl)
    (by rw [hpop]; rfl)

/-- After `free_external_counter` or `release_ref`. -/
theorem move_resume {q : Pc V} {k : After V} (hpc : s.pc i = q) (hown : q.own = k.own)
    (htaken : q.taking = none) (hadv : q.advancing = none) (hpush : q.pushing = k.pushing)
    (hpop : q.popping = k.popping)
    (ptr : Nat) (new_counter : NodeCounter) :
    Move g s i g ((s.setCount ptr new_counter).resume i k) := by
  subst hpc
  have hadv' : ∀ p : Pc V, (s.pc i).advancing = some (g.node g.tail) →
      p.advancing = some (g.node g.tail) := by
    intro p hsome
    rw [hadv] at hsome
    cases hsome
  cases k with
  | push_done v =>
      refine .stay .idle rfl rfl rfl rfl rfl rfl trivial (Or.inl rfl) rfl htaken (hadv' _) ?_ ?_
      · rw [hpush]
        simp [Que.resume, Que.goto, Que.setCount, bag, Pc.pushing, After.pushing,
          ← Multiset.coe_add]
      · rw [hpop]
        rfl
  | push_again v new_next old_tail =>
      refine .stay (.push_inc v new_next old_tail) rfl rfl rfl rfl rfl rfl trivial
        (Or.inr hown.symm) rfl htaken (hadv' _) ?_ ?_
      · rw [hpush]
        rfl
      · rw [hpop]
        rfl
  | pop_done res =>
      refine .stay .idle rfl rfl rfl rfl rfl rfl trivial (Or.inl rfl) rfl htaken (hadv' _) ?_ ?_
      · rw [hpush]
        rfl
      · rw [hpop]
        simp [Que.resume, Que.goto, Que.setCount, bag, Pc.popping, After.popping,
          ← Multiset.coe_add]
  | pop_empty =>
      refine .stay .idle rfl rfl rfl rfl rfl rfl trivial (Or.inl rfl) rfl htaken (hadv' _) ?_ ?_
      · rw [hpush]
        rfl
      · rw [hpop]
        rfl
  | pop_again old_head =>
      refine .stay (.pop_inc old_head) rfl rfl rfl rfl rfl rfl trivial (Or.inl rfl) rfl
        htaken (hadv' _) ?_ ?_
      · rw [hpush]
        rfl
      · rw [hpop]
        rfl

/-- When the CAS on the tail fails another thread has moved it: the loop is left, or reads the tail
again. -/
theorem move_setTailFail (h : Inv g s) {current_tail_ptr : Nat}
    {old_tail new_tail : CountedNodePtr} {k : SetTail V}
    (hpc : s.pc i = .set_new_tail current_tail_ptr old_tail new_tail k) :
    Move g s i g (s.setTailFail i current_tail_ptr new_tail k) := by
  obtain ⟨n, hn, hlt, hcur, hnew, -⟩ :
    (Pc.set_new_tail current_tail_ptr old_tail new_tail k).Ok g s := hpc ▸ h.threads i
  unfold Que.setTailFail
  split_ifs with heq
  · refine move_goto hpc ⟨n, hn, hlt, hcur, hnew, heq.trans hcur⟩ (Or.inr rfl) rfl rfl ?_ rfl rfl
    cases k <;> exact id
  · -- the tail has moved on, so the data this push has set is passed
    rw [setTailEnd, if_neg heq]
    subst hcur
    have hne : n ≠ g.tail := by
      rintro rfl
      exact heq h.tail_ptr
    refine move_goto hpc trivial (Or.inr ?_) rfl rfl (fun hsome => ?_) ?_ ?_
    · exact SetTail.after_own _ _
    · cases k with
      | done v =>
          have hnode := h.inj n g.tail (Nat.le_of_lt hlt) h.tail_le (Option.some.inj hsome)
          exact absurd hnode hne
      | again v new_next => cases hsome
    · exact SetTail.after_pushing _ _
    · exact SetTail.after_popping _ _

/-- `push` after its data CAS, when another thread has linked its node. -/
theorem move_discard (h : Inv g s) {v : V} {new_next old_tail : CountedNodePtr}
    (hpc : s.pc i = .push_next_cas v new_next old_tail) (hne : s.next old_tail.ptr ≠ {}) :
    Move g s i g
      { s.goto i (.set_new_tail old_tail.ptr old_tail (s.next old_tail.ptr) (.done v)) with
        deleted := Function.update s.deleted new_next.ptr true } := by
  obtain ⟨n, hn, hptr, -⟩ : (Pc.push_next_cas v new_next old_tail).Ok g s := hpc ▸ h.threads i
  rcases h.next_cases hn with ⟨hnull, -⟩ | ⟨hnext, hlt⟩
  · rw [hptr] at hne
    exact absurd hnull hne
  · rw [hptr, hnext]
    refine .stay (.set_new_tail (g.node n) old_tail ⟨1, g.node (n + 1)⟩ (.done v)) rfl rfl rfl
      rfl rfl rfl ⟨n, hn, hlt, rfl, rfl, hptr⟩ (Or.inl rfl) rfl (by rw [hpc]; rfl) ?_
      (by rw [hpc]; rfl) (by rw [hpc]; rfl)
    rw [hpc, ← hptr]
    exact id

/-- `push` after its data CAS: the CAS on `next`. -/
theorem move_push_next_cas (h : Inv g s) {v : V} {new_next old_tail : CountedNodePtr}
    (hpc : s.pc i = .push_next_cas v new_next old_tail) {t : Que ι V}
    (hstep : s.stepThread i = some t) : ∃ g', Move g s i g' t := by
  obtain ⟨n, hn, hptr, hset⟩ : (Pc.push_next_cas v new_next old_tail).Ok g s :=
    hpc ▸ h.threads i
  simp only [Que.stepThread, hpc] at hstep
  rcases h.next_cases hn with ⟨hnull, rfl, hlast⟩ | ⟨hnext, hlt⟩
  · rw [hptr, if_pos hnull] at hstep
    cases hstep
    rw [← hptr]
    refine ⟨_, .link new_next old_tail (.done v) (by rw [hpc]; rfl) hlast hptr (hset rfl) rfl rfl
      rfl rfl rfl (Or.inl ⟨rfl, rfl⟩) (by rw [hpc]; rfl) rfl rfl (by rw [hpc]; rfl)
      (by rw [hpc]; rfl)⟩
  · have hne : s.next old_tail.ptr ≠ {} := by
      rw [hptr, hnext]
      simp
    rw [if_neg hne] at hstep
    cases hstep
    exact ⟨g, move_discard h hpc hne⟩

/-- The CAS on `next` of a push that helps. -/
theorem move_help_next (h : Inv g s) {v : V} {new_next old_tail : CountedNodePtr}
    (hpc : s.pc i = .help_next v new_next old_tail) {t : Que ι V}
    (hstep : s.stepThread i = some t) : ∃ g', Move g s i g' t := by
  obtain ⟨n, hn, hptr, hset⟩ : (Pc.help_next v new_next old_tail).Ok g s := hpc ▸ h.threads i
  have hown : (s.pc i).own = some new_next := by
    rw [hpc]
    rfl
  simp only [Que.stepThread, hpc] at hstep
  rcases h.next_cases hn with ⟨hnull, rfl, hlast⟩ | ⟨hnext, hlt⟩
  · obtain ⟨hdata, hnext⟩ := h.toShape.alloc_eq
    rw [hptr, if_pos hnull, hnext] at hstep
    cases hstep
    refine ⟨_, .link new_next old_tail (.again v { new_next with ptr := s.fresh }) hown hlast hptr
      (hset rfl) (by rw [hptr]; rfl) hdata (by rw [hptr]) rfl rfl (Or.inr ⟨rfl, ?_⟩)
      (by rw [hpc]; rfl) rfl rfl (by rw [hpc]; rfl) (by rw [hpc]; rfl)⟩
    show some (⟨new_next.external_count, s.fresh⟩ : CountedNodePtr) = some ⟨1, s.fresh⟩
    rw [(h.own i new_next hown).count]
  · rw [hptr, if_neg (by rw [hnext]; simp), hnext] at hstep
    cases hstep
    exact ⟨g, move_goto hpc ⟨n, hn, hlt, rfl, rfl, hptr⟩ (Or.inr rfl) rfl rfl (fun h => by cases h)
      rfl rfl⟩

/-- The CAS of `set_new_tail`. -/
theorem move_set_new_tail (h : Inv g s) {current_tail_ptr : Nat}
    {old_tail new_tail : CountedNodePtr} {k : SetTail V}
    (hpc : s.pc i = .set_new_tail current_tail_ptr old_tail new_tail k) {t : Que ι V}
    (hstep : s.stepThread i = some t) : ∃ g', Move g s i g' t := by
  obtain ⟨n, hn, hlt, hcur, hnew, hptr⟩ :
    (Pc.set_new_tail current_tail_ptr old_tail new_tail k).Ok g s := hpc ▸ h.threads i
  simp only [Que.stepThread, hpc] at hstep
  split_ifs at hstep with htail
  · cases hstep
    obtain rfl : current_tail_ptr = old_tail.ptr := hcur.trans hptr.symm
    rw [setTailEnd, if_pos rfl]
    have hnt : n = g.tail := by
      apply h.inj n g.tail (by omega) h.tail_le
      rw [← hptr, ← htail, h.tail_ptr]
    refine ⟨_, .swing old_tail new_tail k hpc htail (hnt ▸ hlt) ?_⟩
    rw [hnew, hnt]
  · cases hstep
    exact ⟨g, move_setTailFail h hpc⟩

/-- The CAS of `pop` on `head`. -/
theorem move_pop_cas (h : Inv g s) {old_head next : CountedNodePtr}
    (hpc : s.pc i = .pop_cas old_head next) {t : Que ι V}
    (hstep : s.stepThread i = some t) : ∃ g', Move g s i g' t := by
  obtain ⟨n, hn, hptr, hnext⟩ : (Pc.pop_cas old_head next : Pc V).Ok g s := hpc ▸ h.threads i
  have htail := h.tail_le
  have hhead := h.head_le
  simp only [Que.stepThread, hpc] at hstep
  split_ifs at hstep with hcas
  · cases hstep
    have hnh : n = g.head := by
      apply h.inj n g.head (by omega) (by omega)
      rw [← hptr, ← hcas, h.head_ptr]
    refine ⟨_, .take old_head next hpc hcas (hnh ▸ hn) ?_⟩
    rw [hnext, hnh]
  · cases hstep
    exact ⟨g, move_goto hpc trivial (Or.inl rfl) rfl rfl (fun h => by cases h) rfl rfl⟩

/-- Every step of a thread is a move. Here the program is gone through line by line. -/
theorem move_stepThread (h : Inv g s) {t : Que ι V} (hstep : s.stepThread i = some t) :
    ∃ g', Move g s i g' t := by
  have hok := h.threads i
  cases hpc : s.pc i with
  | push_next_cas v new_next old_tail => exact move_push_next_cas h hpc hstep
  | help_next v new_next old_tail => exact move_help_next h hpc hstep
  | set_new_tail current_tail_ptr old_tail new_tail k => exact move_set_new_tail h hpc hstep
  | pop_cas old_head next => exact move_pop_cas h hpc hstep
  | idle =>
      simp only [Que.stepThread, hpc] at hstep
      cases hstep
  | push_load v new_next =>
      simp only [Que.stepThread, hpc] at hstep
      cases hstep
      exact ⟨g, move_goto hpc trivial (Or.inr rfl) rfl rfl (fun h => by cases h) rfl rfl⟩
  | push_inc v new_next old_tail =>
      simp only [Que.stepThread, hpc] at hstep
      split_ifs at hstep with hcas
      · cases hstep
        -- only the external count of the tail changes
        have hptr : old_tail.increase.ptr = s.tail.ptr := by
          rw [hcas]
          rfl
        refine ⟨g, .stay (.push_data v new_next old_tail.increase) rfl rfl rfl rfl rfl hptr
          ⟨g.tail, Nat.le_refl _, hptr.trans h.tail_ptr⟩ (Or.inr (by rw [hpc]; rfl)) rfl
          (by rw [hpc]; rfl) ?_
          (by rw [hpc]; rfl) (by rw [hpc]; rfl)⟩
        rw [hpc]
        exact fun h => by cases h
      · cases hstep
        exact ⟨g, move_goto hpc trivial (Or.inr rfl) rfl rfl (fun h => by cases h) rfl rfl⟩
  | push_data v new_next old_tail =>
      rw [hpc] at hok
      simp only [Que.stepThread, hpc] at hstep
      -- the data is set now, or was found set
      cases hdata : s.data old_tail.ptr with
      | none =>
          simp only [hdata] at hstep
          cases hstep
          exact ⟨g, .write v new_next old_tail hpc hdata⟩
      | some w =>
          simp only [hdata] at hstep
          cases hstep
          obtain ⟨n, hn, hptr⟩ := hok
          refine ⟨g, move_goto hpc ⟨n, hn, hptr, fun _ => ?_⟩ (Or.inr rfl) rfl rfl
            (fun h => by cases h) rfl rfl⟩
          rw [← hptr, hdata]
          exact Option.some_ne_none w
  | push_next_load v new_next old_tail =>
      rw [hpc] at hok
      simp only [Que.stepThread, hpc] at hstep
      cases hstep
      exact ⟨g, move_goto hpc hok (Or.inr rfl) rfl rfl id rfl rfl⟩
  | free_load old_node_ptr k =>
      simp only [Que.stepThread, hpc] at hstep
      cases hstep
      exact ⟨g, move_goto hpc trivial (Or.inr rfl) rfl rfl id rfl rfl⟩
  | free_cas old_node_ptr old_counter k =>
      simp only [Que.stepThread, hpc] at hstep
      split_ifs at hstep
      · cases hstep
        exact ⟨g, move_resume hpc rfl rfl rfl rfl rfl _ _⟩
      · cases hstep
        exact ⟨g, move_goto hpc trivial (Or.inr rfl) rfl rfl id rfl rfl⟩
  | release_load ptr k =>
      simp only [Que.stepThread, hpc] at hstep
      cases hstep
      exact ⟨g, move_goto hpc trivial (Or.inr rfl) rfl rfl id rfl rfl⟩
  | release_cas ptr old_counter k =>
      simp only [Que.stepThread, hpc] at hstep
      split_ifs at hstep
      · cases hstep
        exact ⟨g, move_resume hpc rfl rfl rfl rfl rfl _ _⟩
      · cases hstep
        exact ⟨g, move_goto hpc trivial (Or.inr rfl) rfl rfl id rfl rfl⟩
  | pop_load =>
      simp only [Que.stepThread, hpc] at hstep
      cases hstep
      exact ⟨g, move_goto hpc trivial (Or.inl rfl) rfl rfl (fun h => by cases h) rfl rfl⟩
  | pop_inc old_head =>
      simp only [Que.stepThread, hpc] at hstep
      split_ifs at hstep with hcas
      · cases hstep
        -- only the external count of the head changes
        have hptr : old_head.increase.ptr = s.head.ptr := by
          rw [hcas]
          rfl
        refine ⟨g, .stay (.pop_tail old_head.increase) rfl rfl rfl rfl hptr rfl
          ⟨g.head, Nat.le_refl _, hptr.trans h.head_ptr⟩ (Or.inl rfl) rfl (by rw [hpc]; rfl) ?_
          (by rw [hpc]; rfl) (by rw [hpc]; rfl)⟩
        rw [hpc]
        exact fun h => by cases h
      · cases hstep
        exact ⟨g, move_goto hpc trivial (Or.inl rfl) rfl rfl (fun h => by cases h) rfl rfl⟩
  | pop_tail old_head =>
      rw [hpc] at hok
      simp only [Que.stepThread, hpc] at hstep
      obtain ⟨n, hn, hptr⟩ := hok
      split_ifs at hstep with hempty
      · cases hstep
        exact ⟨g, move_goto hpc trivial (Or.inl rfl) rfl rfl (fun h => by cases h) rfl rfl⟩
      · cases hstep
        -- the node is not the tail, so it is before it
        have hne : n ≠ g.tail := by
          rintro rfl
          exact hempty (hptr.trans h.tail_ptr.symm)
        have hhead := h.head_le
        exact ⟨g, move_goto hpc ⟨n, by omega, hptr⟩ (Or.inl rfl) rfl rfl (fun h => by cases h)
          rfl rfl⟩
  | pop_next old_head =>
      rw [hpc] at hok
      simp only [Que.stepThread, hpc] at hstep
      cases hstep
      obtain ⟨n, hn, hptr⟩ := hok
      refine ⟨g, move_goto hpc ⟨n, hn, hptr, ?_⟩ (Or.inl rfl) rfl rfl (fun h => by cases h) rfl rfl⟩
      rw [hptr]
      exact h.link n (Nat.lt_of_lt_of_le hn h.tail_le)
  | pop_exchange old_head =>
      simp only [Que.stepThread, hpc] at hstep
      cases hstep
      exact ⟨g, .exchange old_head hpc⟩

/-- The thread that acts. -/
def Action.thread : Action ι V → ι
  | .push i _ | .pop i | .step i | .spurious i => i

/-- **Every step is a move.** -/
theorem move_step (h : Inv g s) {a : Action ι V} {t : Que ι V} (hstep : s.step a = some t) :
    ∃ g', Move g s a.thread g' t := by
  cases a with
  | step i => exact move_stepThread h hstep
  | push i v =>
      simp only [Que.step] at hstep
      split at hstep
      · next hpc =>
          cases hstep
          exact ⟨g, .call v hpc⟩
      · cases hstep
  | pop i =>
      simp only [Que.step] at hstep
      split at hstep
      · next hpc =>
          cases hstep
          exact ⟨g, move_goto hpc trivial (Or.inl rfl) rfl rfl (fun h => by cases h) rfl rfl⟩
      · cases hstep
  | spurious i =>
      simp only [Que.step] at hstep
      split at hstep
      · next hpc =>
          cases hstep
          exact ⟨g, move_setTailFail h hpc⟩
      · cases hstep

end Moves

end BoostNet.LockFreeQue
