/-
The reference counts of the lock-free queue (Concurrent/day18-LockFreeQue), over every
run.

A node is pointed to by `head` and by `tail` in turn, and each of these pointers is given
up once: by the pop that has advanced `head` and the push that has advanced `tail`.
`account` adds up, over the pointers and the suspended threads, what `SplitCount` needs of
a node, and `Counted` says that the node's `count` is that. Nodes that are not linked yet,
or not even allocated, have the count of `node`'s constructor and both pointers to come.

* `Counted.keep`, for the steps that leave all counts as they are: a reference is taken,
  or a pointer goes from `head` or `tail` to the thread that has advanced it.
* `Counted.settle`, for `release_ref` and `free_external_counter`.
-/
import BoostNet.LockFreeQueInv
import BoostNet.SplitCount
import Mathlib.Algebra.Order.BigOperators.Group.Finset

set_option autoImplicit false

namespace BoostNet.LockFreeQue

variable {ι V : Type*}

/-! ## What a thread holds of a node -/

/-- The node that a thread has taken a reference to and not given it back. -/
def Pc.holds : Pc V → Option Nat
  | .push_data _ _ old_tail | .push_next_load _ _ old_tail | .push_next_cas _ _ old_tail
  | .help_next _ _ old_tail => some old_tail.ptr
  | .set_new_tail current_tail_ptr _ _ _ => some current_tail_ptr
  | .free_load old_node_ptr _ | .free_cas old_node_ptr _ _ => some old_node_ptr.ptr
  | .release_load ptr _ | .release_cas ptr _ _ => some ptr
  | .pop_tail old_head | .pop_next old_head | .pop_cas old_head _ | .pop_exchange old_head =>
      some old_head.ptr
  | .idle | .push_load _ _ | .push_inc _ _ _ | .pop_load | .pop_inc _ => none

/-- The pointer that a thread has advanced `head` or `tail` from and not given up. -/
def Pc.frees : Pc V → Option CountedNodePtr
  | .free_load old_node_ptr _ | .free_cas old_node_ptr _ _ => some old_node_ptr
  | .pop_exchange old_head => some old_head
  | .idle | .push_load _ _ | .push_inc _ _ _ | .push_data _ _ _ | .push_next_load _ _ _
  | .push_next_cas _ _ _ | .help_next _ _ _ | .set_new_tail _ _ _ _ | .release_load _ _
  | .release_cas _ _ _ | .pop_load | .pop_inc _ | .pop_tail _ | .pop_next _ | .pop_cas _ _ =>
      none

/-- The references to `a` taken through a pointer. -/
def CountedNodePtr.taken (p : CountedNodePtr) (a : Nat) : Int :=
  if p.ptr = a then p.external_count - 1 else 0

def Pc.refs (p : Pc V) (a : Nat) : Nat := if p.holds = some a then 1 else 0

def Pc.pointers (p : Pc V) (a : Nat) : Nat :=
  if p.frees.map CountedNodePtr.ptr = some a then 1 else 0

def Pc.taken (p : Pc V) (a : Nat) : Int :=
  match p.frees with
  | some q => q.taken a
  | none => 0

/-- The references to `a` that are outstanding. -/
def Que.refs [Fintype ι] (s : Que ι V) (a : Nat) : Nat := ∑ j, (s.pc j).refs a

/-! ## The account of a node -/

/-- `a` is one of the first `n` nodes of the chain. -/
def Chain.Passed (g : Chain) (n a : Nat) : Prop := ∃ k, k < n ∧ g.node k = a

instance (g : Chain) (n a : Nat) : Decidable (g.Passed n a) :=
  inferInstanceAs (Decidable (∃ k, k < n ∧ g.node k = a))

/-- Whether the pointer to the `n`-th node points to `a` or has still to get there. -/
def Chain.ahead (g : Chain) (n a : Nat) : Nat := if g.Passed n a then 0 else 1

/-- How many of `head` and `tail` point to `a` or have still to get there. -/
def Chain.pointers (g : Chain) (a : Nat) : Nat := g.ahead g.head a + g.ahead g.tail a

/-- The references to `a` taken through `head` and `tail`. -/
def Que.throughEnds (s : Que ι V) (a : Nat) : Int := s.head.taken a + s.tail.taken a

section Account

variable [Fintype ι]

def Que.account (s : Que ι V) (g : Chain) (a : Nat) : SplitCount where
  pointers := g.pointers a + ∑ j, (s.pc j).pointers a
  refs := s.refs a
  taken := s.throughEnds a + ∑ j, (s.pc j).taken a

/-- Both pointers to `a` are given up, and all references. -/
def Closed (g : Chain) (s : Que ι V) (a : Nat) : Prop :=
  (s.account g a).pointers = 0 ∧ s.refs a = 0

instance (g : Chain) (s : Que ι V) (a : Nat) : Decidable (Closed g s a) :=
  inferInstanceAs (Decidable (_ ∧ _))

omit [Fintype ι] in
/-- A node that was allocated, and is neither linked nor about to be. -/
structure Discarded (g : Chain) (s : Que ι V) (a : Nat) : Prop where
  alloc : a < s.fresh
  outside : ∀ n, n ≤ g.last → a ≠ g.node n
  own : ∀ j q, (s.pc j).own = some q → q.ptr ≠ a

/-- The nodes that `head` has passed and `release_ref` or `free_external_counter` has
deleted. -/
def reclaimed (g : Chain) (s : Que ι V) : Nat :=
  ((Finset.range g.head).filter fun n => Closed g s (g.node n)).card

structure Counted (g : Chain) (s : Que ι V) : Prop where
  counts : ∀ a, (s.account g a).Counts (s.count a).internal_count (s.count a).external_counters
  pointers_le : ∀ a, (s.account g a).pointers ≤ 2
  closed : ∀ a, Closed g s a → s.deleted a = true
  deleted : ∀ a, s.deleted a = true → Closed g s a ∨ Discarded g s a
  held : ∀ j a, (s.pc j).holds = some a → ∃ n, n ≤ g.last ∧ g.node n = a
  unused : ∀ a, s.fresh ≤ a → s.count a = {}

end Account

/-! ## What a step does to the account -/

section Moves

variable [DecidableEq ι] {g g' : Chain} {s t : Que ι V} {i : ι} {p : Pc V} {a : Nat}

/-- Any step leaves the chain as it was, with a node more at its end at most. -/
theorem Move.grows (hmove : Move g s i g' t) : g.Grows g' := by
  cases hmove with
  | link new_next old_tail k =>
      exact ⟨fun n hn => g.link_node new_next hn, Nat.le_refl _, Nat.le_refl _, Nat.le_succ _⟩
  | swing old_tail new_tail k hpc htail hlt =>
      exact ⟨fun _ _ => rfl, Nat.le_refl _, Nat.le_succ _, Nat.le_refl _⟩
  | take old_head next hpc hhead hlt =>
      exact ⟨fun _ _ => rfl, Nat.le_succ _, Nat.le_refl _, Nat.le_refl _⟩
  | _ => exact .refl g

/-- A pointer that goes on has passed one more node. -/
theorem Chain.passed_succ {n : Nat} : g.Passed (n + 1) a ↔ g.Passed n a ∨ g.node n = a := by
  constructor
  · rintro ⟨k, hk, hnode⟩
    rcases Nat.lt_or_ge k n with hlt | hge
    · exact Or.inl ⟨k, hlt, hnode⟩
    · obtain rfl : k = n := by omega
      exact Or.inr hnode
  · rintro (⟨k, hk, hnode⟩ | hnode)
    · exact ⟨k, by omega, hnode⟩
    · exact ⟨n, Nat.lt_succ_self n, hnode⟩

/-- A new node is behind all that was passed. -/
theorem Chain.Grows.passed (hg : g.Grows g') {n : Nat} (hn : n ≤ g.last) :
    g'.Passed n a ↔ g.Passed n a := by
  apply exists_congr
  intro k
  apply and_congr_right
  intro hk
  rw [hg.node k (by omega)]

omit [DecidableEq ι] in
/-- A node is not one of those before it. -/
theorem Shape.not_passed (h : Shape g s) {n : Nat} (hn : n ≤ g.last) :
    ¬ g.Passed n (g.node n) := by
  rintro ⟨k, hk, hnode⟩
  have heq := h.inj k n (by omega) hn hnode
  omega

omit [DecidableEq ι] in
/-- The node a pointer is at counts as one ahead of it. -/
theorem Shape.ahead_node (h : Shape g s) {n : Nat} (hn : n ≤ g.last) :
    g.ahead n (g.node n) = 1 :=
  if_neg (h.not_passed hn)

omit [DecidableEq ι] in
/-- `head` and `tail` are not given up. -/
theorem Shape.pointers_pos (h : Shape g s) (ha : a = s.head.ptr ∨ a = s.tail.ptr) :
    0 < g.pointers a := by
  rw [Chain.pointers]
  rcases ha with rfl | rfl
  · rw [h.head_ptr, h.ahead_node (Nat.le_trans h.head_le h.tail_le)]
    omega
  · rw [h.tail_ptr, h.ahead_node h.tail_le]
    omega

/-- A new node at the end does not change what is ahead of a pointer to another one. -/
theorem Chain.Grows.ahead (hg : g.Grows g') {n : Nat} (hn : n ≤ g.last) (a : Nat) :
    g'.ahead n a = g.ahead n a := by
  simp only [Chain.ahead, hg.passed hn]

/-- One if the pointer `p`, which is `q` after the step, has left `a`. -/
def left (p q : CountedNodePtr) (a : Nat) : Nat := if q.ptr ≠ p.ptr ∧ p.ptr = a then 1 else 0

@[simp] theorem left_of_eq {p q : CountedNodePtr} (h : q.ptr = p.ptr) : left p q a = 0 :=
  if_neg fun hne => hne.1 h

omit [DecidableEq ι] in
/-- A pointer that goes on leaves one node behind. -/
theorem Shape.ahead_succ (h : Shape g s) {n : Nat} (hn : n < g.last) {p q : CountedNodePtr}
    (hp : p.ptr = g.node n) (hq : q.ptr = g.node (n + 1)) (a : Nat) :
    g.ahead (n + 1) a + left p q a = g.ahead n a := by
  have hne : q.ptr ≠ p.ptr := by
    rw [hp, hq]
    intro heq
    have hnn := h.inj (n + 1) n hn (Nat.le_of_lt hn) heq
    omega
  by_cases ha : g.node n = a
  · have hpassed : g.Passed (n + 1) a := Chain.passed_succ.mpr (Or.inr ha)
    have hleft : left p q a = 1 := if_pos ⟨hne, hp.trans ha⟩
    rw [hleft, Chain.ahead, if_pos hpassed, ← ha, h.ahead_node (Nat.le_of_lt hn)]
  · have hleft : left p q a = 0 := if_neg fun hand => ha (hp.symm.trans hand.2)
    have hiff : g.Passed (n + 1) a ↔ g.Passed n a := Chain.passed_succ.trans (or_iff_left ha)
    simp only [hleft, Chain.ahead, hiff, add_zero]

/-- The pointers to `a` after a move: one less if `head` or `tail` has left it. -/
theorem Move.pointers (h : Inv g s) (hmove : Move g s i g' t) (a : Nat) :
    g'.pointers a + left s.head t.head a + left s.tail t.tail a = g.pointers a := by
  have hgrows := hmove.grows
  have hhead := h.head_le
  have htail := h.tail_le
  cases hmove with
  | stay p hpc hdata hnext hfresh hhead' htail' =>
      rw [left_of_eq hhead', left_of_eq htail']
      rfl
  | link new_next old_tail k hown hlast hold hset hpc hdata hnext hhead' htail' =>
      -- the node is linked beyond `head` and `tail`
      have hahead : (g.link new_next).ahead g.head a = g.ahead g.head a :=
        hgrows.ahead (Nat.le_trans hhead htail) a
      have hahead' : (g.link new_next).ahead g.tail a = g.ahead g.tail a := hgrows.ahead htail a
      rw [left_of_eq (by rw [hhead']), left_of_eq (by rw [htail'])]
      rw [add_zero, add_zero]
      exact congrArg₂ (· + ·) hahead hahead'
  | swing old_tail new_tail k hpc htail' hlt hnew =>
      -- `tail` leaves the node that it pointed to
      have hsucc := h.ahead_succ hlt h.tail_ptr hnew a
      have hstay : left s.head s.head a = 0 := left_of_eq rfl
      show g.ahead g.head a + g.ahead (g.tail + 1) a + left s.head s.head a +
        left s.tail new_tail a = g.ahead g.head a + g.ahead g.tail a
      omega
  | take old_head next hpc hhead' hlt hnext =>
      -- `head` leaves the node that it pointed to
      have hsucc := h.ahead_succ (Nat.lt_of_lt_of_le hlt htail) h.head_ptr hnext a
      have hstay : left s.tail s.tail a = 0 := left_of_eq rfl
      show g.ahead (g.head + 1) a + g.ahead g.tail a + left s.head next a +
        left s.tail s.tail a = g.ahead g.head a + g.ahead g.tail a
      omega
  | call v hpc | write v new_next old_tail hpc hdata | exchange old_head hpc =>
      have hstay : left s.head s.head a = 0 := left_of_eq rfl
      have hstay' : left s.tail s.tail a = 0 := left_of_eq rfl
      show g.pointers a + left s.head s.head a + left s.tail s.tail a = g.pointers a
      omega

/-- `head` is advanced by one node or not at all. -/
theorem Move.head (h : Inv g s) (hmove : Move g s i g' t) :
    (g'.head = g.head ∧ t.head.ptr = s.head.ptr) ∨
      (g'.head = g.head + 1 ∧ t.head.ptr ≠ s.head.ptr) := by
  cases hmove with
  | take old_head next hpc hhead hlt hnext =>
      refine Or.inr ⟨rfl, fun heq => ?_⟩
      have htail := h.tail_le
      have hnode : g.node (g.head + 1) = g.node g.head := by
        rw [← hnext, ← h.head_ptr]
        exact heq
      have hnn := h.inj (g.head + 1) g.head (by omega) (by omega) hnode
      omega
  | stay p hpc hdata hnext hfresh hhead => exact Or.inl ⟨rfl, hhead⟩
  | link new_next old_tail k hown hlast hold hset hpc hdata hnext hhead =>
      exact Or.inl ⟨rfl, by rw [hhead]⟩
  | _ => exact Or.inl ⟨rfl, rfl⟩

/-- Nodes are numbered upwards, and no number is used again. -/
theorem Move.fresh_le (hmove : Move g s i g' t) : s.fresh ≤ t.fresh := by
  cases hmove with
  | stay p hpc hdata hnext hfresh => exact Nat.le_of_eq hfresh.symm
  | call v hpc => exact Nat.le_succ _
  | link new_next old_tail k hown hlast hold hset hpc hdata hnext hhead htail hfresh =>
      rcases hfresh with ⟨hfresh, -⟩ | ⟨hfresh, -⟩ <;> omega
  | _ => exact Nat.le_refl _

/-- A node that was allocated and never linked stays so. -/
theorem Discarded.move (hd : Discarded g s a) (hmove : Move g s i g' t) :
    Discarded g' t a := by
  have hother : ∀ {p : Pc V}, t.pc = Function.update s.pc i p →
      (∀ q, p.own = some q → q.ptr ≠ a) → ∀ j q, (t.pc j).own = some q → q.ptr ≠ a := by
    intro p hpc hp
    rw [hpc]
    exact forall_update (P := fun p : Pc V => ∀ q, p.own = some q → q.ptr ≠ a) hp
      fun j _ => hd.own j
  have halloc := hd.alloc
  cases hmove with
  | stay p hpc hdata hnext hfresh hhead' htail' hp hown =>
      refine ⟨hfresh ▸ halloc, hd.outside, hother hpc fun q hq => ?_⟩
      rcases hown with hown | hown
      · rw [hown] at hq
        cases hq
      · exact hd.own i q (hown ▸ hq)
  | call v hpc =>
      -- the node that is made is a fresh one
      refine ⟨Nat.lt_succ_of_lt halloc, hd.outside, hother rfl fun q hq => ?_⟩
      obtain rfl : ⟨1, s.fresh⟩ = q := Option.some.inj hq
      exact Nat.ne_of_gt halloc
  | write v new_next old_tail hpc hdata =>
      exact ⟨halloc, hd.outside, hother rfl fun q hq => hd.own i q (by rw [hpc]; exact hq)⟩
  | link new_next old_tail k hown hlast hold hset hpc hdata hnext hhead' htail' hfresh =>
      refine ⟨?_, fun n hn => ?_, hother hpc fun q hq => ?_⟩
      · rcases hfresh with ⟨hfresh, -⟩ | ⟨hfresh, -⟩ <;> omega
      · -- the new node is the thread's own
        rcases g.link_cases new_next hn with ⟨hn, hnode⟩ | ⟨-, hnode⟩
        · rw [hnode]
          exact hd.outside n hn
        · rw [hnode]
          exact (hd.own i new_next hown).symm
      · have hq : k.own = some q := hq
        rcases hfresh with ⟨-, hk⟩ | ⟨-, hk⟩
        · rw [hk] at hq
          cases hq
        · obtain rfl : ⟨1, s.fresh⟩ = q := Option.some.inj (hk.symm.trans hq)
          exact Nat.ne_of_gt halloc
  | swing old_tail new_tail k hpc htail' hlt hnew =>
      refine ⟨halloc, hd.outside, hother rfl fun q hq => hd.own i q ?_⟩
      rw [hpc]
      exact (SetTail.after_own old_tail k).symm.trans hq
  | take old_head next hpc hhead' hlt hnext =>
      exact ⟨halloc, hd.outside, hother rfl fun q hq => by cases hq⟩
  | exchange old_head hpc =>
      exact ⟨halloc, hd.outside, hother rfl fun q hq => by cases hq⟩

section Steps

variable [Fintype ι]

theorem sum_goto {M : Type*} [AddCommMonoid M] (f : Pc V → M)
    (hpc : t.pc = Function.update s.pc i p) :
    ∑ j, f (t.pc j) + f (s.pc i) = ∑ j, f (s.pc j) + f p :=
  hpc ▸ sum_update f s.pc p (Finset.mem_univ i)

/-- The pointers to a node change by what the thread, the head and the tail do. -/
theorem account_pointers (h : Inv g s) (hmove : Move g s i g' t)
    (hpc : t.pc = Function.update s.pc i p) (a : Nat) :
    (t.account g' a).pointers + (s.pc i).pointers a + left s.head t.head a +
      left s.tail t.tail a = (s.account g a).pointers + p.pointers a := by
  have hsum := sum_goto (fun q => q.pointers a) hpc
  have hends := hmove.pointers h a
  show g'.pointers a + ∑ j, (t.pc j).pointers a + (s.pc i).pointers a + left s.head t.head a +
    left s.tail t.tail a = g.pointers a + ∑ j, (s.pc j).pointers a + p.pointers a
  omega

/-- The references that are held change by what the thread does. -/
theorem account_refs (hpc : t.pc = Function.update s.pc i p) (a : Nat) :
    t.refs a + (s.pc i).refs a = s.refs a + p.refs a :=
  sum_goto (fun q => q.refs a) hpc

/-- So does what was taken through an external counter. -/
theorem account_taken (g g' : Chain) (hpc : t.pc = Function.update s.pc i p) (a : Nat) :
    (t.account g' a).taken + (s.pc i).taken a + s.throughEnds a =
      (s.account g a).taken + p.taken a + t.throughEnds a := by
  have hsum := sum_goto (fun q => q.taken a) hpc
  show t.throughEnds a + ∑ j, (t.pc j).taken a + (s.pc i).taken a + s.throughEnds a =
    s.throughEnds a + ∑ j, (s.pc j).taken a + p.taken a + t.throughEnds a
  omega

omit [DecidableEq ι] [Fintype ι] in
theorem CountedNodePtr.taken_of_ne {q : CountedNodePtr} (hne : q.ptr ≠ a) : q.taken a = 0 :=
  if_neg hne

omit [DecidableEq ι] in
/-- Without a pointer to the node there are no references through one. -/
theorem account_taken_zero (h : Shape g s) (hzero : (s.account g a).pointers = 0) :
    (s.account g a).taken = 0 := by
  have hends : g.pointers a = 0 := (Nat.add_eq_zero_iff.mp hzero).1
  have hthreads : ∑ j, (s.pc j).pointers a = 0 := (Nat.add_eq_zero_iff.mp hzero).2
  have hne : ¬ (a = s.head.ptr ∨ a = s.tail.ptr) := by
    intro ha
    have hpos := h.pointers_pos ha
    omega
  have hthrough : s.throughEnds a = 0 := by
    rw [Que.throughEnds, CountedNodePtr.taken_of_ne fun heq => hne (Or.inl heq.symm),
      CountedNodePtr.taken_of_ne fun heq => hne (Or.inr heq.symm)]
    rfl
  have hsum : ∑ j, (s.pc j).taken a = 0 := by
    apply Finset.sum_eq_zero
    intro j hj
    have hj : (s.pc j).pointers a = 0 := (Finset.sum_eq_zero_iff.mp hthreads) j hj
    unfold Pc.pointers at hj
    unfold Pc.taken
    cases hfrees : (s.pc j).frees with
    | none => rfl
    | some q =>
        rw [hfrees] at hj
        apply CountedNodePtr.taken_of_ne
        rintro rfl
        exact absurd hj (by simp)
  show s.throughEnds a + ∑ j, (s.pc j).taken a = 0
  rw [hthrough, hsum]
  rfl

omit [DecidableEq ι] in
/-- Who holds a node counts. -/
theorem refs_pos {j : ι} (hj : (s.pc j).holds = some a) : 0 < s.refs a := by
  have hle : (s.pc j).refs a ≤ s.refs a :=
    Finset.single_le_sum (f := fun j => (s.pc j).refs a) (fun _ _ => Nat.zero_le _)
      (Finset.mem_univ j)
  have hone : (s.pc j).refs a = 1 := if_pos hj
  omega

omit [DecidableEq ι] in
/-- **A node that a thread holds is not deleted.** -/
theorem Counted.not_deleted (hc : Counted g s) {j : ι} (hj : (s.pc j).holds = some a) :
    s.deleted a = false := by
  rw [← Bool.not_eq_true]
  intro hdel
  rcases hc.deleted a hdel with hclosed | hdiscarded
  · have hpos := refs_pos hj
    have hzero := hclosed.2
    omega
  · obtain ⟨n, hn, hnode⟩ := hc.held j a hj
    exact hdiscarded.outside n hn hnode.symm

omit [DecidableEq ι] in
/-- A closed node is one that `head` has passed. -/
theorem Closed.passed (hclosed : Closed g s a) : g.Passed g.head a := by
  by_contra hnot
  have hahead : g.ahead g.head a = 1 := if_neg hnot
  have hle : g.ahead g.head a ≤ (s.account g a).pointers :=
    Nat.le_trans (Nat.le_add_right _ _) (Nat.le_add_right _ _)
  have hzero := hclosed.1
  omega

omit [DecidableEq ι] in
/-- The nodes that `head` and `tail` point to are not closed. -/
theorem Shape.not_closed (h : Shape g s) (ha : a = s.head.ptr ∨ a = s.tail.ptr) :
    ¬ Closed g s a := by
  rintro ⟨hzero, -⟩
  have hpos := h.pointers_pos ha
  have hge : g.pointers a ≤ (s.account g a).pointers := Nat.le_add_right _ _
  omega

/-! ### Steps that leave the counts -/

omit [DecidableEq ι] [Fintype ι] in
theorem Pc.refs_congr {q : Pc V} (hholds : p.holds = q.holds) (a : Nat) :
    p.refs a = q.refs a := by
  rw [Pc.refs, hholds]
  rfl

omit [DecidableEq ι] in
/-- A node is done with when nothing points to it and nobody holds it. Steps that change neither
leave that as it is. -/
theorem closed_keep (h' : Shape g' t)
    (hpointers : (t.account g' a).pointers = (s.account g a).pointers)
    (hrefs : t.refs a = s.refs a ∨ a = t.head.ptr ∨ a = t.tail.ptr) :
    Closed g' t a ↔ Closed g s a := by
  rw [Closed, Closed, hpointers]
  rcases hrefs with heq | hend
  · rw [heq]
  · have hpos : 0 < g'.pointers a := h'.pointers_pos hend
    have hge : g'.pointers a ≤ (t.account g' a).pointers := Nat.le_add_right _ _
    constructor <;> rintro ⟨hzero, -⟩ <;> omega

/-- Then as many nodes are done with as before. -/
theorem reclaimed_keep (h : Inv g s) (hmove : Move g s i g' t)
    (hclosed : ∀ a, Closed g' t a ↔ Closed g s a) : reclaimed g' t = reclaimed g s := by
  have hhead := h.head_le
  have htail := h.tail_le
  have hnode : ∀ n, n ≤ g.last → (Closed g' t (g'.node n) ↔ Closed g s (g.node n)) := by
    intro n hn
    rw [hclosed, hmove.grows.node n hn]
  have hfilter : (Finset.range g.head).filter (fun n => Closed g' t (g'.node n)) =
      (Finset.range g.head).filter fun n => Closed g s (g.node n) := by
    apply Finset.filter_congr
    intro n hn
    have hn := Finset.mem_range.mp hn
    exact hnode n (by omega)
  rcases hmove.head h with ⟨heq, -⟩ | ⟨heq, -⟩
  · rw [reclaimed, heq, hfilter]
    rfl
  · have hnot : ¬ Closed g' t (g'.node g.head) := by
      rw [hnode g.head (by omega)]
      exact h.not_closed (Or.inl h.head_ptr.symm)
    rw [reclaimed, heq, Finset.range_add_one, Finset.filter_insert, if_neg hnot, hfilter]
    rfl

/-- A node that a thread holds is on the chain, and stays there. -/
theorem Counted.held_grows (hc : Counted g s) (hmove : Move g s i g' t) {j : ι}
    (hj : (s.pc j).holds = some a) : ∃ n, n ≤ g'.last ∧ g'.node n = a := by
  obtain ⟨n, hn, hnode⟩ := hc.held j a hj
  exact ⟨n, Nat.le_trans hn hmove.grows.last, (hmove.grows.node n hn).trans hnode⟩

/-- Threads hold only nodes of the chain. -/
theorem Counted.held_move (hc : Counted g s) (hmove : Move g s i g' t)
    (hpc : t.pc = Function.update s.pc i p)
    (hp : ∀ a, p.holds = some a → ∃ n, n ≤ g'.last ∧ g'.node n = a) :
    ∀ j a, (t.pc j).holds = some a → ∃ n, n ≤ g'.last ∧ g'.node n = a := by
  rw [hpc]
  exact forall_update (P := fun p : Pc V => ∀ a, p.holds = some a →
    ∃ n, n ≤ g'.last ∧ g'.node n = a) hp fun j _ a ha => hc.held_grows hmove ha

/-- What is true after a step: the counts, and how many nodes it has deleted with them. -/
def CountedBy (k : Nat) (g : Chain) (s : Que ι V) (g' : Chain) (t : Que ι V) : Prop :=
  Counted g' t ∧ reclaimed g' t = reclaimed g s + k

/-- A step that takes a reference, moves a pointer, or only reads. -/
theorem Counted.keep (h : Inv g s) (hc : Counted g s) (hmove : Move g s i g' t)
    (hpc : t.pc = Function.update s.pc i p) (hcount : t.count = s.count)
    (hpointers : ∀ a, p.pointers a =
      (s.pc i).pointers a + left s.head t.head a + left s.tail t.tail a)
    (htaken : ∀ a, (p.refs a : Int) - p.taken a - t.throughEnds a =
      (s.pc i).refs a - (s.pc i).taken a - s.throughEnds a)
    (hrefs : ∀ a, p.refs a = (s.pc i).refs a ∨ a = t.head.ptr ∨ a = t.tail.ptr)
    (hholds : ∀ a, p.holds = some a → ∃ n, n ≤ g'.last ∧ g'.node n = a)
    (hkept : ∀ a, s.deleted a = true → t.deleted a = true)
    (hnew : ∀ a, t.deleted a = true → s.deleted a = true ∨ Discarded g' t a) :
    CountedBy 0 g s g' t := by
  have haccount : ∀ a, (t.account g' a).pointers = (s.account g a).pointers := by
    intro a
    have hthread := account_pointers h hmove hpc a
    have hp := hpointers a
    omega
  have hsum := fun a => account_refs (t := t) hpc a
  have hclosed : ∀ a, Closed g' t a ↔ Closed g s a := by
    intro a
    refine closed_keep (inv_move h hmove).toShape (haccount a) ((hrefs a).imp_left fun heq => ?_)
    have hsum := hsum a
    omega
  refine ⟨⟨fun a => ?_, fun a => ?_, fun a ha => ?_, fun a ha => ?_,
    hc.held_move hmove hpc hholds, fun a ha => ?_⟩, reclaimed_keep h hmove hclosed⟩
  · rw [hcount]
    refine (hc.counts a).keep (haccount a) ?_
    have hthread := account_taken g g' hpc a
    have hbal := htaken a
    have hsum := hsum a
    show (t.refs a : Int) - (t.account g' a).taken = s.refs a - (s.account g a).taken
    omega
  · rw [haccount]
    exact hc.pointers_le a
  · exact hkept a (hc.closed a ((hclosed a).mp ha))
  · rcases hnew a ha with hdel | hdiscarded
    · exact (hc.deleted a hdel).imp (hclosed a).mpr fun hd => hd.move hmove
    · exact Or.inr hdiscarded
  · rw [hcount]
    exact hc.unused a (Nat.le_trans hmove.fresh_le ha)

/-- A step that only reads. -/
theorem Counted.quiet (h : Inv g s) (hc : Counted g s) (hmove : Move g s i g' t)
    (hpc : t.pc = Function.update s.pc i p) (hholds : p.holds = (s.pc i).holds)
    (hfrees : p.frees = (s.pc i).frees) (hcount : t.count = s.count) (hhead : t.head = s.head)
    (htail : t.tail = s.tail) (hdel : t.deleted = s.deleted) : CountedBy 0 g s g' t := by
  have hrefs : ∀ a, p.refs a = (s.pc i).refs a := fun a => Pc.refs_congr hholds a
  refine hc.keep h hmove hpc hcount (fun a => ?_) (fun a => ?_) (fun a => Or.inl (hrefs a))
    (fun a ha => ?_) (fun a ha => hdel ▸ ha) (fun a ha => Or.inl (hdel ▸ ha))
  · rw [hhead, htail, left_of_eq rfl, left_of_eq rfl, Pc.pointers, hfrees]
    rfl
  · have htaken : p.taken a = (s.pc i).taken a := by
      rw [Pc.taken, hfrees]
      rfl
    have hends : t.throughEnds a = s.throughEnds a := by
      rw [Que.throughEnds, hhead, htail]
      rfl
    rw [hrefs, htaken, hends]
  · exact hc.held_grows hmove (hholds ▸ ha)

/-! ### `release_ref` and `free_external_counter` -/

/-- The counts of which a CAS makes its caller delete the node. -/
def NodeCounter.Last (c : NodeCounter) : Prop :=
  c.internal_count = 0 ∧ c.external_counters = 0

instance (c : NodeCounter) : Decidable c.Last := inferInstanceAs (Decidable (_ ∧ _))

omit [DecidableEq ι] [Fintype ι] in
/-- What a thread contributes to the account of a node that it does not hold. -/
theorem Pc.contributes_none {q : Pc V} (hholds : q.holds ≠ some a)
    (hfrees : ∀ r, q.frees = some r → r.ptr ≠ a) :
    q.pointers a = 0 ∧ q.refs a = 0 ∧ q.taken a = 0 := by
  refine ⟨?_, if_neg hholds, ?_⟩
  · apply if_neg
    intro heq
    obtain ⟨r, hr, hptr⟩ := Option.map_eq_some_iff.mp heq
    exact hfrees r hr hptr
  · unfold Pc.taken
    cases hr : q.frees with
    | none => rfl
    | some r => exact CountedNodePtr.taken_of_ne (hfrees r hr)

/-- The accounts after a thread has given back what it held. -/
theorem account_settle (h : Inv g s) (hmove : Move g s i g' t)
    (hpc : t.pc = Function.update s.pc i p) (hholds : p.holds = none) (hfrees : p.frees = none)
    (hhead : t.head = s.head) (htail : t.tail = s.tail) (a : Nat) :
    (t.account g' a).pointers + (s.pc i).pointers a = (s.account g a).pointers ∧
      t.refs a + (s.pc i).refs a = s.refs a ∧
      (t.account g' a).taken + (s.pc i).taken a = (s.account g a).taken := by
  obtain ⟨hpointers, hrefs, htaken⟩ : p.pointers a = 0 ∧ p.refs a = 0 ∧ p.taken a = 0 :=
    Pc.contributes_none (by rw [hholds]; simp) (by rw [hfrees]; simp)
  have hsum := account_pointers h hmove hpc a
  have hsum' := account_refs (t := t) hpc a
  have hsum'' := account_taken g g' hpc a
  rw [hhead, htail, left_of_eq rfl, left_of_eq rfl] at hsum
  have hends : t.throughEnds a = s.throughEnds a := by
    rw [Que.throughEnds, hhead, htail]
    rfl
  exact ⟨by omega, by omega, by omega⟩

/-- One more of the nodes behind `head` is closed. -/
theorem reclaimed_add (h : Inv g s) (hmove : Move g s i g' t) (hhead : t.head = s.head) {b : Nat}
    (hb : Closed g' t b) (hnot : ¬ Closed g s b)
    (hother : ∀ a, a ≠ b → (Closed g' t a ↔ Closed g s a)) :
    reclaimed g' t = reclaimed g s + 1 := by
  have h' := (inv_move h hmove).toShape
  have hlast : g'.head ≤ g'.last := Nat.le_trans h'.head_le h'.tail_le
  have heq : g'.head = g.head := by
    rcases hmove.head h with ⟨heq, -⟩ | ⟨-, hne⟩
    · exact heq
    · rw [hhead] at hne
      exact absurd rfl hne
  obtain ⟨n, hn, hnode⟩ := hb.passed
  have hsame : ∀ m, m < g'.head → m ≠ n →
      (Closed g' t (g'.node m) ↔ Closed g s (g.node m)) := by
    intro m hm hne
    rw [hother (g'.node m) fun hmn => hne (h'.inj m n (by omega) (by omega) (hmn.trans hnode.symm)),
      hmove.grows.node m (by have := h.head_le; have := h.tail_le; omega)]
  have hfilter : (Finset.range g'.head).filter (fun m => Closed g' t (g'.node m)) =
      insert n ((Finset.range g.head).filter fun m => Closed g s (g.node m)) := by
    ext m
    rw [Finset.mem_insert, Finset.mem_filter, Finset.mem_filter, Finset.mem_range,
      Finset.mem_range, ← heq]
    by_cases hmn : m = n
    · rw [hmn, hnode]
      simp [hn, hb]
    · simp only [hmn, false_or]
      exact and_congr_right fun hm => hsame m hm hmn
  have hnotin : n ∉ (Finset.range g.head).filter fun m => Closed g s (g.node m) := by
    intro hmem
    apply hnot
    have hclosed := (Finset.mem_filter.mp hmem).2
    rwa [← hmove.grows.node n (by have := h.head_le; have := h.tail_le; omega), hnode] at hclosed
  rw [reclaimed, hfilter, Finset.card_insert_of_notMem hnotin]
  rfl

/-- A thread gives back its reference to `b`, with the pointer if it has one, and deletes
`b` if the counts say so. -/
theorem Counted.settle (h : Inv g s) (hc : Counted g s) (hmove : Move g s i g' t)
    (hpc : t.pc = Function.update s.pc i p) (hholds : p.holds = none) (hfrees : p.frees = none)
    (hhead : t.head = s.head) (htail : t.tail = s.tail) {b : Nat}
    (hb : (s.pc i).holds = some b) (hbfrees : ∀ q, (s.pc i).frees = some q → q.ptr = b)
    (hfew : s.refs b < 2 ^ 30) {c : NodeCounter} (hcount : t.count = Function.update s.count b c)
    (hcounts : (t.account g' b).Counts c.internal_count c.external_counters)
    (hdel : t.deleted = if c.Last then Function.update s.deleted b true else s.deleted) :
    CountedBy (if c.Last then 1 else 0) g s g' t := by
  have haccount := account_settle h hmove hpc hholds hfrees hhead htail
  have hothers : ∀ a, a ≠ b → (t.account g' a).pointers = (s.account g a).pointers ∧
      t.refs a = s.refs a ∧ (t.account g' a).taken = (s.account g a).taken := by
    intro a hne
    obtain ⟨hpointers, hrefs, htaken⟩ := Pc.contributes_none (q := s.pc i) (a := a)
      (by rw [hb]; simpa using Ne.symm hne) (fun q hq => by rw [hbfrees q hq]; exact Ne.symm hne)
    have hsum := haccount a
    exact ⟨by omega, by omega, by omega⟩
  have hother : ∀ a, a ≠ b → (Closed g' t a ↔ Closed g s a) := by
    intro a hne
    obtain ⟨hpointers, hrefs, -⟩ := hothers a hne
    rw [Closed, Closed, hpointers, hrefs]
  have hle : (t.account g' b).pointers ≤ 2 := by
    have hsum := (haccount b).1
    have hle := hc.pointers_le b
    omega
  have hnot : ¬ Closed g s b := by
    rintro ⟨-, hzero⟩
    have hpos := refs_pos hb
    omega
  -- the counts are zero when the account is
  have hlast : c.Last ↔ Closed g' t b := by
    refine hcounts.last_iff (by omega) ?_ (account_taken_zero (inv_move h hmove).toShape)
    have hsum := (haccount b).2.1
    show t.refs b < 2 ^ 30
    omega
  have hdel' : ∀ a, t.deleted a = true ↔ s.deleted a = true ∨ (a = b ∧ c.Last) := by
    intro a
    rw [hdel]
    by_cases hl : c.Last
    · by_cases hab : a = b <;> simp [hl, hab]
    · simp [hl]
  refine ⟨⟨fun a => ?_, fun a => ?_, fun a ha => ?_, fun a ha => ?_,
    hc.held_move hmove hpc (by rw [hholds]; simp), fun a ha => ?_⟩, ?_⟩
  · by_cases hab : a = b
    · rw [hab, hcount, Function.update_self]
      exact hcounts
    · rw [hcount, Function.update_of_ne hab]
      obtain ⟨hpointers, hrefs, htaken⟩ := hothers a hab
      refine (hc.counts a).keep hpointers ?_
      show (t.refs a : Int) - (t.account g' a).taken = s.refs a - (s.account g a).taken
      rw [hrefs, htaken]
  · by_cases hab : a = b
    · rw [hab]
      exact hle
    · rw [(hothers a hab).1]
      exact hc.pointers_le a
  · rw [hdel']
    by_cases hab : a = b
    · exact Or.inr ⟨hab, hlast.mpr (hab ▸ ha)⟩
    · exact Or.inl (hc.closed a ((hother a hab).mp ha))
  · by_cases hab : a = b
    · -- it was not deleted before
      rcases (hdel' a).mp ha with hdeleted | ⟨-, hl⟩
      · rw [hab, hc.not_deleted hb] at hdeleted
        cases hdeleted
      · exact Or.inl (hab ▸ hlast.mp hl)
    · rcases (hdel' a).mp ha with hdeleted | ⟨heq, -⟩
      · exact (hc.deleted a hdeleted).imp (hother a hab).mpr fun hd => hd.move hmove
      · exact absurd heq hab
  · obtain ⟨n, hn, hnode⟩ := hc.held i b hb
    have hlt := h.alloc n hn
    have hfresh := hmove.fresh_le
    rw [hcount, Function.update_of_ne (by omega)]
    exact hc.unused a (by omega)
  · by_cases hl : c.Last
    · rw [if_pos hl]
      exact reclaimed_add h hmove hhead (hlast.mp hl) hnot hother
    · rw [if_neg hl]
      refine reclaimed_keep h hmove fun a => ?_
      by_cases hab : a = b
      · rw [hab]
        exact iff_of_false (fun hb => hl (hlast.mpr hb)) hnot
      · exact hother a hab

end Steps

end Moves

end BoostNet.LockFreeQue
