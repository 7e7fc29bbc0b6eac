/-
Reclamation of the nodes of the lock-free queue (Concurrent/day18-LockFreeQue): every
interleaving deletes each node once, when nobody uses it any more.

* `Que.Safe` says what no step may do: use or delete a node that was deleted, or give up a
  pointer to a node that has none.
* `counted_step`: every step keeps the counts of `Counted`, and the nodes it deletes with
  them are closed.
* `reclaim_exact`: with fewer than 2^30 references to a node, every state is safe, and with
  no operation in progress one node has been deleted for each value popped.
-/
import BoostNet.LockFreeQueCounts
import BoostNet.LockFreeQueValues

set_option autoImplicit false

namespace BoostNet.LockFreeQue

variable {ι V : Type*}

/-! ## What should hold -/

/-- The node whose members the thread's next step reads or writes. -/
def Pc.accesses : Pc V → Option Nat
  | .push_data _ _ old_tail | .push_next_load _ _ old_tail | .push_next_cas _ _ old_tail
  | .help_next _ _ old_tail => some old_tail.ptr
  | .free_load old_node_ptr _ | .free_cas old_node_ptr _ _ => some old_node_ptr.ptr
  | .release_load ptr _ | .release_cas ptr _ _ => some ptr
  | .pop_next old_head | .pop_exchange old_head => some old_head.ptr
  | .idle | .push_load _ _ | .push_inc _ _ _ | .set_new_tail _ _ _ _ | .pop_load | .pop_inc _
  | .pop_tail _ | .pop_cas _ _ => none

/-- The node that the thread's next step deletes in `release_ref` or
`free_external_counter`. -/
def Pc.reclaims (s : Que ι V) : Pc V → Option Nat
  | .free_cas old_node_ptr old_counter _ =>
      if s.count old_node_ptr.ptr = old_counter ∧
          (old_counter.free old_node_ptr.external_count).Last then some old_node_ptr.ptr
      else none
  | .release_cas ptr old_counter _ =>
      if s.count ptr = old_counter ∧ old_counter.release.Last then some ptr else none
  | .idle | .push_load _ _ | .push_inc _ _ _ | .push_data _ _ _ | .push_next_load _ _ _
  | .push_next_cas _ _ _ | .help_next _ _ _ | .set_new_tail _ _ _ _ | .free_load _ _
  | .release_load _ _ | .pop_load | .pop_inc _ | .pop_tail _ | .pop_next _ | .pop_cas _ _
  | .pop_exchange _ => none

/-- The node that the thread's next step deletes. -/
def Pc.deletes (s : Que ι V) : Pc V → Option Nat
  | .push_next_cas _ new_next old_tail =>
      if s.next old_tail.ptr = {} then none else some new_next.ptr
  | p => p.reclaims s

/-- The next steps are safe: nobody is about to use or delete a node that was deleted, or
to make `external_counters` underflow. The node at `head`, which the destructor deletes
when its pops have found the queue empty, is not deleted either. -/
structure Que.Safe (s : Que ι V) : Prop where
  accesses : ∀ i a, (s.pc i).accesses = some a → s.deleted a = false
  deletes : ∀ i a, (s.pc i).deletes s = some a → s.deleted a = false
  external_counters : ∀ i old_node_ptr old_counter k,
    s.pc i = .free_cas old_node_ptr old_counter k → s.count old_node_ptr.ptr = old_counter →
      old_counter.external_counters ≠ 0
  head : s.deleted s.head.ptr = false

/-- Fewer than 2^30 references to each node are outstanding. -/
def Que.Few [Fintype ι] (s : Que ι V) : Prop := ∀ a, s.refs a < 2 ^ 30

/-- The queue with `destruct_count`, which counts the deletions of `release_ref` and
`free_external_counter`. -/
structure Watched (ι V : Type*) where
  que : Que ι V := {}
  destruct_count : Nat := 0

section System

variable [DecidableEq ι]

/-- The node that the step deletes in `release_ref` or `free_external_counter`. -/
def Action.reclaims (s : Que ι V) : Action ι V → Option Nat
  | .step i => (s.pc i).reclaims s
  | .push _ _ | .pop _ | .spurious _ => none

/-- The node that the step deletes. -/
def Action.deletes (s : Que ι V) : Action ι V → Option Nat
  | .step i => (s.pc i).deletes s
  | .push _ _ | .pop _ | .spurious _ => none

def watched (ι V : Type*) [DecidableEq ι] : Lts (Watched ι V) (Action ι V) where
  init := {}
  step w a := (w.que.step a).map fun s =>
    ⟨s, w.destruct_count + (a.reclaims w.que).toList.length⟩

end System

section Moves

variable [DecidableEq ι] [Fintype ι] {g g' : Chain} {s t : Que ι V} {i : ι} {p : Pc V}

/-! ## The steps keep the counts -/

omit [DecidableEq ι] [Fintype ι] in
theorem CountedNodePtr.increase_taken (q : CountedNodePtr) (a : Nat) :
    q.increase.taken a = q.taken a + if q.ptr = a then 1 else 0 := by
  simp only [CountedNodePtr.taken, CountedNodePtr.increase]
  split_ifs <;> omega

/-- `increase_external_count` takes a reference. -/
theorem Counted.acquire (h : Inv g s) (hc : Counted g s) (hmove : Move g s i g' t)
    (hpc : t.pc = Function.update s.pc i p) (hnone : (s.pc i).holds = none)
    (hnone' : (s.pc i).frees = none) {b : Nat} (hholds : p.holds = some b)
    (hfrees : p.frees = none) (hcount : t.count = s.count) (hdel : t.deleted = s.deleted)
    (hhead : t.head.ptr = s.head.ptr) (htail : t.tail.ptr = s.tail.ptr)
    (hb : b = t.head.ptr ∨ b = t.tail.ptr)
    (hends : ∀ a, t.throughEnds a = s.throughEnds a + if b = a then 1 else 0) :
    CountedBy 0 g s g' t := by
  have h' := (inv_move h hmove).toShape
  have hbefore : ∀ a, (s.pc i).pointers a = 0 ∧ (s.pc i).refs a = 0 ∧ (s.pc i).taken a = 0 :=
    fun a => Pc.contributes_none (by rw [hnone]; simp) (by rw [hnone']; simp)
  -- the reference is one more of the node's, and one more that its end has given out
  refine hc.keep h hmove hpc hcount (fun a => ?_) (fun a => ?_) (fun a => ?_) (fun a ha => ?_)
    (fun a ha => hdel ▸ ha) (fun a ha => Or.inl (hdel ▸ ha))
  · rw [(hbefore a).1, left_of_eq hhead, left_of_eq htail, Pc.pointers, hfrees]
    rfl
  · have htaken : p.taken a = 0 := by
      rw [Pc.taken, hfrees]
    rw [(hbefore a).2.1, (hbefore a).2.2, hends, htaken, Pc.refs, hholds]
    by_cases ha : b = a
    · rw [if_pos ha, if_pos (congrArg some ha)]
      omega
    · rw [if_neg ha, if_neg fun heq => ha (Option.some.inj heq)]
      omega
  · by_cases ha : b = a
    · exact Or.inr (ha ▸ hb)
    · left
      rw [(hbefore a).2.1, Pc.refs, hholds, if_neg fun heq => ha (Option.some.inj heq)]
  · obtain rfl : b = a := Option.some.inj (hholds.symm.trans ha)
    rcases hb with rfl | rfl
    · exact ⟨g'.head, Nat.le_trans h'.head_le h'.tail_le, h'.head_ptr.symm⟩
    · exact ⟨g'.tail, h'.tail_le, h'.tail_ptr.symm⟩

/-- The thread that has advanced `head` or `tail` takes over the pointer that was there. -/
theorem Counted.advance (h : Inv g s) (hc : Counted g s) (hmove : Move g s i g' t)
    (hpc : t.pc = Function.update s.pc i p) (hholds : p.holds = (s.pc i).holds)
    (hnone : (s.pc i).frees = none) {q : CountedNodePtr} (hfrees : p.frees = some q)
    (hcount : t.count = s.count) (hdel : t.deleted = s.deleted)
    (hleft : ∀ a, left s.head t.head a + left s.tail t.tail a = if q.ptr = a then 1 else 0)
    (hends : ∀ a, t.throughEnds a + q.taken a = s.throughEnds a) : CountedBy 0 g s g' t := by
  have hrefs : ∀ a, p.refs a = (s.pc i).refs a := fun a => Pc.refs_congr hholds a
  -- pointer and count pass from the end of the queue to the thread, and no sum changes
  refine hc.keep h hmove hpc hcount (fun a => ?_) (fun a => ?_) (fun a => Or.inl (hrefs a))
    (fun a ha => ?_) (fun a ha => hdel ▸ ha) (fun a ha => Or.inl (hdel ▸ ha))
  · have hnone : (s.pc i).pointers a = 0 := by
      rw [Pc.pointers, hnone]
      rfl
    have hone : p.pointers a = if q.ptr = a then 1 else 0 := by
      simp [Pc.pointers, hfrees]
    rw [hnone, hone, ← hleft]
    omega
  · have hnone : (s.pc i).taken a = 0 := by
      rw [Pc.taken, hnone]
    have htaken : p.taken a = q.taken a := by
      rw [Pc.taken, hfrees]
    have hends := hends a
    rw [hrefs, hnone, htaken]
    omega
  · exact hc.held_grows hmove (hholds ▸ ha)

/-- Where a thread is after `release_ref` or `free_external_counter`. -/
def After.pc : After V → Pc V
  | .push_done _ | .pop_done _ | .pop_empty => .idle
  | .push_again new_value new_next old_tail => .push_inc new_value new_next old_tail
  | .pop_again old_head => .pop_inc old_head

omit [Fintype ι] in
/-- Behind `free_external_counter` or `release_ref` the thread goes on, and nothing else happens. -/
theorem resume_spec (s : Que ι V) (i : ι) (k : After V) :
    (s.resume i k).pc = Function.update s.pc i k.pc ∧ (s.resume i k).head = s.head ∧
      (s.resume i k).tail = s.tail ∧ (s.resume i k).count = s.count ∧
      (s.resume i k).deleted = s.deleted := by
  cases k <;> exact ⟨rfl, rfl, rfl, rfl, rfl⟩

omit [DecidableEq ι] [Fintype ι] in
theorem After.holds_none (k : After V) : k.pc.holds = none ∧ k.pc.frees = none := by
  cases k <;> exact ⟨rfl, rfl⟩

/-- The CAS of `release_ref`. -/
theorem counted_release (h : Inv g s) (hc : Counted g s) {ptr : Nat} {k : After V}
    (hpc : s.pc i = .release_cas ptr (s.count ptr) k) (hfew : s.refs ptr < 2 ^ 30)
    (hmove : Move g s i g' ((s.setCount ptr (s.count ptr).release).resume i k)) :
    CountedBy (if (s.count ptr).release.Last then 1 else 0) g s g'
      ((s.setCount ptr (s.count ptr).release).resume i k) := by
  obtain ⟨hpc', hhead, htail, hcount, hdel⟩ :=
    resume_spec (s.setCount ptr (s.count ptr).release) i k
  obtain ⟨hholds, hfrees⟩ := k.holds_none
  have haccount := account_settle h hmove hpc' hholds hfrees hhead htail ptr
  have hpointers : (s.pc i).pointers ptr = 0 := by
    rw [hpc]
    rfl
  have hrefs : (s.pc i).refs ptr = 1 := by
    rw [hpc]
    exact if_pos rfl
  have htaken : (s.pc i).taken ptr = 0 := by
    rw [hpc]
    rfl
  refine hc.settle h hmove hpc' hholds hfrees hhead htail (by rw [hpc]; rfl) ?_ hfew hcount ?_ hdel
  · intro q hq
    rw [hpc] at hq
    cases hq
  · refine (hc.counts ptr).release ?_ ?_ ?_
    · omega
    · show Que.refs _ ptr + 1 = s.refs ptr
      omega
    · omega

/-- The CAS of `free_external_counter`. -/
theorem counted_free (h : Inv g s) (hc : Counted g s) {q : CountedNodePtr} {k : After V}
    (hpc : s.pc i = .free_cas q (s.count q.ptr) k) (hfew : s.refs q.ptr < 2 ^ 30)
    (hmove : Move g s i g'
      ((s.setCount q.ptr ((s.count q.ptr).free q.external_count)).resume i k)) :
    CountedBy (if ((s.count q.ptr).free q.external_count).Last then 1 else 0) g s g'
      ((s.setCount q.ptr ((s.count q.ptr).free q.external_count)).resume i k) := by
  obtain ⟨hpc', hhead, htail, hcount, hdel⟩ :=
    resume_spec (s.setCount q.ptr ((s.count q.ptr).free q.external_count)) i k
  obtain ⟨hholds, hfrees⟩ := k.holds_none
  have haccount := account_settle h hmove hpc' hholds hfrees hhead htail q.ptr
  have hpointers : (s.pc i).pointers q.ptr = 1 := by
    rw [hpc]
    exact if_pos rfl
  have hrefs : (s.pc i).refs q.ptr = 1 := by
    rw [hpc]
    exact if_pos rfl
  have htaken : (s.pc i).taken q.ptr = q.external_count - 1 := by
    rw [hpc]
    exact if_pos rfl
  refine hc.settle h hmove hpc' hholds hfrees hhead htail (by rw [hpc]; rfl) ?_ hfew hcount ?_ hdel
  · intro q' hq
    rw [hpc] at hq
    rw [← Option.some.inj hq]
  · refine (hc.counts q.ptr).free ?_ ?_ ?_
    · omega
    · show Que.refs _ q.ptr + 1 = s.refs q.ptr
      omega
    · omega

/-- A push takes a reference to the tail. -/
theorem counted_push_inc (h : Inv g s) (hc : Counted g s) {v : V} {new_next : CountedNodePtr}
    (hpc : s.pc i = .push_inc v new_next s.tail)
    (hmove : Move g s i g' { s.goto i (.push_data v new_next s.tail.increase) with
      tail := s.tail.increase }) :
    CountedBy 0 g s g' { s.goto i (.push_data v new_next s.tail.increase) with
      tail := s.tail.increase } := by
  refine hc.acquire (b := s.tail.ptr) h hmove rfl (by rw [hpc]; rfl) (by rw [hpc]; rfl) rfl rfl rfl
    rfl rfl rfl (Or.inr rfl) fun a => ?_
  show s.head.taken a + s.tail.increase.taken a = s.head.taken a + s.tail.taken a + _
  rw [CountedNodePtr.increase_taken]
  omega

/-- A pop takes one to the head. -/
theorem counted_pop_inc (h : Inv g s) (hc : Counted g s) (hpc : s.pc i = .pop_inc s.head)
    (hmove : Move g s i g' { s.goto i (.pop_tail s.head.increase) with
      head := s.head.increase }) :
    CountedBy 0 g s g' { s.goto i (.pop_tail s.head.increase) with head := s.head.increase } := by
  refine hc.acquire (b := s.head.ptr) h hmove rfl (by rw [hpc]; rfl) (by rw [hpc]; rfl) rfl rfl rfl
    rfl rfl rfl (Or.inl rfl) fun a => ?_
  show s.head.increase.taken a + s.tail.taken a = s.head.taken a + s.tail.taken a + _
  rw [CountedNodePtr.increase_taken]
  omega

omit [Fintype ι] in
/-- A pointer that was advanced has another count of 1, and has left its node. -/
theorem left_of_ne {q new : CountedNodePtr} (hne : new.ptr ≠ q.ptr) (a : Nat) :
    left q new a = if q.ptr = a then 1 else 0 := by
  simp [left, hne]

/-- The tail moves on, and the node it leaves gets what was taken through it. -/
theorem counted_set_new_tail (h : Inv g s) (hc : Counted g s) {new_tail : CountedNodePtr}
    {k : SetTail V} (hpc : s.pc i = .set_new_tail s.tail.ptr s.tail new_tail k)
    (hmove : Move g s i g'
      { s.goto i (.free_load s.tail (k.after s.tail)) with tail := new_tail }) :
    CountedBy 0 g s g' { s.goto i (.free_load s.tail (k.after s.tail)) with tail := new_tail } := by
  obtain ⟨n, hn, hlt, hcur, hnew, -⟩ :
    (Pc.set_new_tail s.tail.ptr s.tail new_tail k).Ok g s := hpc ▸ h.threads i
  -- the successor is another node, and nobody has counted on it through `new_tail`
  have hne : new_tail.ptr ≠ s.tail.ptr := by
    rw [hcur, hnew]
    intro heq
    have hnn := h.inj (n + 1) n hlt (Nat.le_of_lt hlt) heq
    omega
  have hzero : ∀ a, new_tail.taken a = 0 := by
    intro a
    rw [hnew, CountedNodePtr.taken]
    split_ifs <;> rfl
  refine hc.advance h hmove rfl (by rw [hpc]; rfl) (by rw [hpc]; rfl) rfl rfl rfl (fun a => ?_)
    fun a => ?_
  · show left s.head s.head a + left s.tail new_tail a = _
    rw [left_of_eq rfl, left_of_ne hne, zero_add]
  · show s.head.taken a + new_tail.taken a + s.tail.taken a = s.head.taken a + s.tail.taken a
    rw [hzero]
    omega

/-- The head moves on, and with it one of the two pointers to the node. -/
theorem counted_pop_cas (h : Inv g s) (hc : Counted g s) {next : CountedNodePtr}
    (hpc : s.pc i = .pop_cas s.head next)
    (hmove : Move g s i g' { s.goto i (.pop_exchange s.head) with head := next }) :
    CountedBy 0 g s g' { s.goto i (.pop_exchange s.head) with head := next } := by
  obtain ⟨n, hn, hptr, hnext⟩ : (Pc.pop_cas s.head next : Pc V).Ok g s := hpc ▸ h.threads i
  have htail := h.tail_le
  -- the successor is another node, and nobody has counted on it through `next`
  have hne : next.ptr ≠ s.head.ptr := by
    rw [hptr, hnext]
    intro heq
    have hnn := h.inj (n + 1) n (by omega) (by omega) heq
    omega
  have hzero : ∀ a, next.taken a = 0 := by
    intro a
    rw [hnext, CountedNodePtr.taken]
    split_ifs <;> rfl
  refine hc.advance h hmove rfl (by rw [hpc]; rfl) (by rw [hpc]; rfl) rfl rfl rfl (fun a => ?_)
    fun a => ?_
  · show left s.head next a + left s.tail s.tail a = _
    rw [left_of_eq rfl, left_of_ne hne, add_zero]
  · show next.taken a + s.tail.taken a + s.head.taken a = s.head.taken a + s.tail.taken a
    rw [hzero]
    omega

/-- The push deletes a node of its own, which is not linked. -/
theorem counted_discard (h : Inv g s) (hc : Counted g s) {v : V}
    {new_next old_tail : CountedNodePtr} (hpc : s.pc i = .push_next_cas v new_next old_tail)
    (hne : s.next old_tail.ptr ≠ {}) :
    CountedBy 0 g s g
      { s.goto i (.set_new_tail old_tail.ptr old_tail (s.next old_tail.ptr) (.done v)) with
        deleted := Function.update s.deleted new_next.ptr true } := by
  have hmove := move_discard h hpc hne
  have hown : (s.pc i).own = some new_next := by
    rw [hpc]
    rfl
  have hpriv := h.own i new_next hown
  have hp : ∀ a, (Pc.set_new_tail old_tail.ptr old_tail (s.next old_tail.ptr) (.done v)).refs a =
      (s.pc i).refs a := fun a => Pc.refs_congr (by rw [hpc]; rfl) a
  refine hc.keep h hmove rfl rfl (fun a => ?_) (fun a => ?_) (fun a => Or.inl (hp a))
    (fun a ha => hc.held_grows hmove (by rw [hpc]; exact ha)) (fun a ha => ?_) (fun a ha => ?_)
  · rw [hpc]
    show 0 = 0 + left s.head s.head a + left s.tail s.tail a
    rw [left_of_eq rfl, left_of_eq rfl]
  · rw [hp, hpc]
    rfl
  · by_cases heq : a = new_next.ptr
    · rw [heq]
      exact Function.update_self _ _ _
    · exact (Function.update_of_ne heq _ _).trans ha
  · by_cases heq : a = new_next.ptr
    · right
      refine ⟨heq ▸ hpriv.alloc, heq ▸ hpriv.outside, fun j q hq hptr => ?_⟩
      -- the others own other nodes, and it has none any more
      by_cases hj : j = i
      · rw [hj, show Que.pc _ i = _ from Function.update_self _ _ _] at hq
        cases hq
      · rw [show Que.pc _ j = _ from Function.update_of_ne hj _ _] at hq
        exact hj (h.own_ptr hq hown (hptr.trans heq))
    · left
      exact (Function.update_of_ne heq _ _).symm.trans ha

/-- Who comes too late gives its reference back. -/
theorem counted_setTailFail (h : Inv g s) (hc : Counted g s) {current_tail_ptr : Nat}
    {old_tail new_tail : CountedNodePtr} {k : SetTail V}
    (hpc : s.pc i = .set_new_tail current_tail_ptr old_tail new_tail k)
    (hmove : Move g s i g' (s.setTailFail i current_tail_ptr new_tail k)) :
    CountedBy 0 g s g' (s.setTailFail i current_tail_ptr new_tail k) := by
  by_cases heq : s.tail.ptr = current_tail_ptr
  · rw [Que.setTailFail, if_pos heq] at hmove ⊢
    exact hc.quiet h hmove rfl (by rw [hpc]; rfl) (by rw [hpc]; rfl) rfl rfl rfl rfl
  · rw [Que.setTailFail, if_neg heq, setTailEnd, if_neg heq] at hmove ⊢
    exact hc.quiet h hmove rfl (by rw [hpc]; rfl) (by rw [hpc]; rfl) rfl rfl rfl rfl

omit [DecidableEq ι] in
theorem Counted.alloc_count (hc : Counted g s) : s.alloc.count = s.count :=
  Function.update_eq_self_iff.mpr (hc.unused s.fresh (Nat.le_refl _)).symm

omit [DecidableEq ι] [Fintype ι] in
theorem length_toList_ite (c : Prop) [Decidable c] (a : Nat) :
    (if c then some a else none).toList.length = if c then 1 else 0 := by
  split_ifs <;> rfl

/-- **Every step of a thread keeps the counts**, and the nodes it deletes with them are
closed. -/
theorem counted_stepThread (h : Inv g s) (hc : Counted g s) (hfew : ∀ a, s.refs a < 2 ^ 30)
    (hstep : s.stepThread i = some t) :
    ∃ g', Move g s i g' t ∧ CountedBy ((s.pc i).reclaims s).toList.length g s g' t := by
  obtain ⟨g', hmove⟩ := move_stepThread h hstep
  have hok := h.threads i
  cases hpc : s.pc i with
  | idle =>
      simp only [Que.stepThread, hpc] at hstep
      cases hstep
  | push_inc v new_next old_tail =>
      -- increase_external_count: a CAS that fails counts nothing
      simp only [Que.stepThread, hpc] at hstep
      split_ifs at hstep with hcas
      · subst hcas
        cases hstep
        exact ⟨g', hmove, counted_push_inc h hc hpc hmove⟩
      · cases hstep
        exact ⟨g', hmove,
          hc.quiet h hmove rfl (by rw [hpc]; rfl) (by rw [hpc]; rfl) rfl rfl rfl rfl⟩
  | push_data v new_next old_tail =>
      simp only [Que.stepThread, hpc] at hstep
      cases hdata : s.data old_tail.ptr with
      | none | some w =>
          simp only [hdata] at hstep
          cases hstep
          exact ⟨g', hmove,
            hc.quiet h hmove rfl (by rw [hpc]; rfl) (by rw [hpc]; rfl) rfl rfl rfl rfl⟩
  | push_next_cas v new_next old_tail =>
      -- the new node that another thread was faster than is deleted
      simp only [Que.stepThread, hpc] at hstep
      split_ifs at hstep with hnull
      · cases hstep
        exact ⟨g', hmove,
          hc.quiet h hmove rfl (by rw [hpc]; rfl) (by rw [hpc]; rfl) rfl rfl rfl rfl⟩
      · cases hstep
        exact ⟨g, move_discard h hpc hnull, counted_discard h hc hpc hnull⟩
  | help_next v new_next old_tail =>
      simp only [Que.stepThread, hpc] at hstep
      split_ifs at hstep with hnull
      · cases hstep
        exact ⟨g', hmove, hc.quiet h hmove rfl (by rw [hpc]; rfl) (by rw [hpc]; rfl)
          hc.alloc_count rfl rfl rfl⟩
      · cases hstep
        exact ⟨g', hmove,
          hc.quiet h hmove rfl (by rw [hpc]; rfl) (by rw [hpc]; rfl) rfl rfl rfl rfl⟩
  | set_new_tail current_tail_ptr old_tail new_tail k =>
      -- the thread that moves the tail frees the old one's counter, all others release it
      simp only [Que.stepThread, hpc] at hstep
      split_ifs at hstep with hcas
      · subst hcas
        rw [hpc] at hok
        obtain ⟨n, hn, hlt, hcur, hnew, hptr⟩ := hok
        obtain rfl : current_tail_ptr = s.tail.ptr := hcur.trans hptr.symm
        rw [setTailEnd, if_pos rfl] at hstep
        cases hstep
        exact ⟨g', hmove, counted_set_new_tail h hc hpc hmove⟩
      · cases hstep
        exact ⟨g', hmove, counted_setTailFail h hc hpc hmove⟩
  | free_cas old_node_ptr old_counter k =>
      -- free_external_counter: the count moves into the node, less two, and one counter less
      simp only [Que.stepThread, hpc] at hstep
      split_ifs at hstep with hcas
      · subst hcas
        cases hstep
        refine ⟨g', hmove, ?_⟩
        simp only [Pc.reclaims, true_and, length_toList_ite]
        exact counted_free h hc hpc (hfew _) hmove
      · cases hstep
        refine ⟨g', hmove, ?_⟩
        simp only [Pc.reclaims, hcas, false_and, if_false]
        exact hc.quiet h hmove rfl (by rw [hpc]; rfl) (by rw [hpc]; rfl) rfl rfl rfl rfl
  | release_cas ptr old_counter k =>
      -- release_ref: the last reference deletes the node
      simp only [Que.stepThread, hpc] at hstep
      split_ifs at hstep with hcas
      · subst hcas
        cases hstep
        refine ⟨g', hmove, ?_⟩
        simp only [Pc.reclaims, true_and, length_toList_ite]
        exact counted_release h hc hpc (hfew _) hmove
      · cases hstep
        refine ⟨g', hmove, ?_⟩
        simp only [Pc.reclaims, hcas, false_and, if_false]
        exact hc.quiet h hmove rfl (by rw [hpc]; rfl) (by rw [hpc]; rfl) rfl rfl rfl rfl
  | pop_inc old_head =>
      -- the same as in push, for the head
      simp only [Que.stepThread, hpc] at hstep
      split_ifs at hstep with hcas
      · subst hcas
        cases hstep
        exact ⟨g', hmove, counted_pop_inc h hc hpc hmove⟩
      · cases hstep
        exact ⟨g', hmove,
          hc.quiet h hmove rfl (by rw [hpc]; rfl) (by rw [hpc]; rfl) rfl rfl rfl rfl⟩
  | pop_tail old_head =>
      simp only [Que.stepThread, hpc] at hstep
      split_ifs at hstep with hempty <;> cases hstep <;> exact ⟨g', hmove,
        hc.quiet h hmove rfl (by rw [hpc]; rfl) (by rw [hpc]; rfl) rfl rfl rfl rfl⟩
  | pop_cas old_head next =>
      -- the head is moved, and its counter is to be freed
      simp only [Que.stepThread, hpc] at hstep
      split_ifs at hstep with hcas
      · subst hcas
        cases hstep
        exact ⟨g', hmove, counted_pop_cas h hc hpc hmove⟩
      · cases hstep
        exact ⟨g', hmove,
          hc.quiet h hmove rfl (by rw [hpc]; rfl) (by rw [hpc]; rfl) rfl rfl rfl rfl⟩
  | push_load v new_next | push_next_load v new_next old_tail | free_load old_node_ptr k
  | release_load ptr k | pop_load | pop_next old_head | pop_exchange old_head =>
      simp only [Que.stepThread, hpc] at hstep
      cases hstep
      exact ⟨g', hmove, hc.quiet h hmove rfl (by rw [hpc]; rfl) (by rw [hpc]; rfl) rfl rfl rfl rfl⟩

/-- **Every step keeps the counts.** -/
theorem counted_step (h : Inv g s) (hc : Counted g s) (hfew : ∀ a, s.refs a < 2 ^ 30)
    {a : Action ι V} (hstep : s.step a = some t) :
    ∃ g', Move g s a.thread g' t ∧ CountedBy (a.reclaims s).toList.length g s g' t := by
  cases a with
  | step i => exact counted_stepThread h hc hfew hstep
  | push i v =>
      obtain ⟨g', hmove⟩ := move_step h hstep
      simp only [Que.step] at hstep
      split at hstep
      · next hpc =>
          cases hstep
          exact ⟨g', hmove, hc.quiet h hmove rfl (by rw [Action.thread, hpc]; rfl)
            (by rw [Action.thread, hpc]; rfl) hc.alloc_count rfl rfl rfl⟩
      · cases hstep
  | pop i =>
      obtain ⟨g', hmove⟩ := move_step h hstep
      simp only [Que.step] at hstep
      split at hstep
      · next hpc =>
          cases hstep
          exact ⟨g', hmove, hc.quiet h hmove rfl (by rw [Action.thread, hpc]; rfl)
            (by rw [Action.thread, hpc]; rfl) rfl rfl rfl rfl⟩
      · cases hstep
  | spurious i =>
      obtain ⟨g', hmove⟩ := move_step h hstep
      simp only [Que.step] at hstep
      split at hstep
      · next hpc =>
          cases hstep
          exact ⟨g', hmove, counted_setTailFail h hc hpc hmove⟩
      · cases hstep

/-! ## `deleted` is what the steps have deleted -/

omit [Fintype ι] in
/-- A node is deleted where its last reference is given back. -/
theorem deleted_setCount {ptr n : Nat} {c : NodeCounter} {k : After V} :
    ((s.setCount ptr c).resume i k).deleted n = true ↔
      s.deleted n = true ∨ (if c.Last then some ptr else none) = some n := by
  rw [(resume_spec _ i k).2.2.2.2]
  show (if c.Last then Function.update s.deleted ptr true else s.deleted) n = true ↔ _
  by_cases hl : c.Last
  · rw [if_pos hl, if_pos hl, Option.some.injEq]
    by_cases hn : n = ptr
    · simp [hn]
    · simp [hn, Ne.symm hn]
  · simp [hl]

omit [Fintype ι] in
theorem setTailFail_deleted (current_tail_ptr : Nat) (new_tail : CountedNodePtr) (k : SetTail V) :
    (s.setTailFail i current_tail_ptr new_tail k).deleted = s.deleted := by
  unfold Que.setTailFail
  split_ifs <;> rfl

omit [Fintype ι] in
/-- A step deletes at most the node whose count it brings to nothing. -/
theorem deleted_stepThread (hstep : s.stepThread i = some t) (n : Nat) :
    t.deleted n = true ↔ s.deleted n = true ∨ (s.pc i).deletes s = some n := by
  cases hpc : s.pc i with
  | push_next_cas v new_next old_tail =>
      simp only [Que.stepThread, hpc] at hstep
      split_ifs at hstep with hnull
      · cases hstep
        simp [Pc.deletes, hnull, Que.goto]
      · cases hstep
        by_cases hn : n = new_next.ptr
        · simp [Pc.deletes, hnull, hn]
        · simp [Pc.deletes, hnull, hn, Ne.symm hn]
  | free_cas old_node_ptr old_counter k =>
      simp only [Que.stepThread, hpc] at hstep
      split_ifs at hstep with hcas
      · cases hstep
        simpa [Pc.deletes, Pc.reclaims, hcas] using deleted_setCount
      · cases hstep
        simp [Pc.deletes, Pc.reclaims, hcas, Que.goto]
  | release_cas ptr old_counter k =>
      simp only [Que.stepThread, hpc] at hstep
      split_ifs at hstep with hcas
      · cases hstep
        simpa [Pc.deletes, Pc.reclaims, hcas] using deleted_setCount
      · cases hstep
        simp [Pc.deletes, Pc.reclaims, hcas, Que.goto]
  | set_new_tail current_tail_ptr old_tail new_tail k =>
      simp only [Que.stepThread, hpc] at hstep
      split_ifs at hstep with hcas
      · cases hstep
        simp [Pc.deletes, Pc.reclaims, Que.goto]
      · cases hstep
        simp [Pc.deletes, Pc.reclaims, setTailFail_deleted]
  | idle =>
      simp only [Que.stepThread, hpc] at hstep
      cases hstep
  | push_inc | push_data | help_next | pop_inc | pop_tail | pop_cas =>
      simp only [Que.stepThread, hpc] at hstep
      split at hstep <;> cases hstep <;> simp [Pc.deletes, Pc.reclaims, Que.goto, Que.alloc]
  | push_load | push_next_load | free_load | release_load | pop_load | pop_next | pop_exchange =>
      simp only [Que.stepThread, hpc] at hstep
      cases hstep
      simp [Pc.deletes, Pc.reclaims, Que.goto]

omit [Fintype ι] in
/-- **What a step deletes is what `deletes` says.** -/
theorem deleted_step {a : Action ι V} (hstep : s.step a = some t) (n : Nat) :
    t.deleted n = true ↔ s.deleted n = true ∨ a.deletes s = some n := by
  cases a with
  | step i => exact deleted_stepThread hstep n
  | push i v | pop i =>
      simp only [Que.step] at hstep
      split at hstep <;> cases hstep
      simp [Action.deletes, Que.goto, Que.alloc]
  | spurious i =>
      simp only [Que.step] at hstep
      split at hstep <;> cases hstep
      simp [Action.deletes, setTailFail_deleted]

/-! ## The pops -/

/-- The value that a pop has taken or is about to take. -/
def Pc.popped (p : Pc V) : Nat := p.popping.toList.length + p.taking.toList.length

/-- `head` has passed one node for each pop. -/
def Popped (g : Chain) (s : Que ι V) : Prop := g.head = s.pops.length + ∑ j, (s.pc j).popped

theorem popped_update (hp : Popped g s) (hpc : t.pc = Function.update s.pc i p)
    (hlocal : g'.head + s.pops.length + (s.pc i).popped = g.head + t.pops.length + p.popped) :
    Popped g' t := by
  have hsum := sum_goto Pc.popped hpc
  unfold Popped at hp ⊢
  omega

/-- The head has moved once for every pop that got through. -/
theorem popped_move (h : Inv g s) (hp : Popped g s) (hmove : Move g s i g' t) : Popped g' t := by
  cases hmove with
  | stay p hpc hdata hnext hfresh hhead htail hok hown htaking htaken hadv hpush hpop =>
      apply popped_update hp hpc
      have hcard := congrArg Multiset.card hpop
      simp only [Multiset.card_add, bag, Multiset.coe_card] at hcard
      rw [Pc.popped, Pc.popped, htaking, htaken]
      omega
  | call v hpc =>
      apply popped_update hp rfl
      rw [hpc]
      rfl
  | write v new_next old_tail hpc hdata =>
      apply popped_update hp rfl
      rw [hpc]
      rfl
  | link new_next old_tail k hown hlast hold hset hpc hdata hnext hhead htail hfresh hadv hpushes
      hpops hpush hpop =>
      apply popped_update hp hpc
      rw [Pc.popped, hpop, Pc.taking_of_own hown, hpops]
      rfl
  | swing old_tail new_tail k hpc htail hlt hnew =>
      apply popped_update hp rfl
      rw [hpc, Pc.popped, Pc.popped]
      show _ = g.head + s.pops.length + ((k.after old_tail).popping.toList.length + 0)
      rw [SetTail.after_popping]
      rfl
  | take old_head next hpc hhead hlt hnext =>
      apply popped_update hp rfl
      rw [hpc]
      show g.head + 1 + s.pops.length + 0 = g.head + s.pops.length + 1
      omega
  | exchange old_head hpc =>
      obtain ⟨n, hn, hptr, hdata⟩ : (Pc.pop_exchange old_head : Pc V).Ok g s := hpc ▸ h.threads i
      obtain ⟨v, hv⟩ := Option.ne_none_iff_exists'.mp hdata
      apply popped_update hp rfl
      rw [hpc, hptr, hv]
      rfl

/-! ## The result -/

omit [DecidableEq ι] in
/-- When nobody is in a call, no reference is out: all that was taken has been given back. -/
theorem account_idle (hidle : ∀ j, s.pc j = .idle) (a : Nat) :
    (s.account g a).pointers = g.pointers a ∧ s.refs a = 0 ∧
      (s.account g a).taken = s.throughEnds a := by
  have hpointers : ∑ j, (s.pc j).pointers a = 0 := Finset.sum_eq_zero fun j _ => by
    rw [hidle j]
    rfl
  have htaken : ∑ j, (s.pc j).taken a = 0 := Finset.sum_eq_zero fun j _ => by
    rw [hidle j]
    rfl
  refine ⟨?_, Finset.sum_eq_zero fun j _ => ?_, ?_⟩
  · show g.pointers a + ∑ j, (s.pc j).pointers a = g.pointers a
    omega
  · rw [hidle j]
    rfl
  · show s.throughEnds a + ∑ j, (s.pc j).taken a = s.throughEnds a
    omega

/-- The dummy node that the constructor makes is counted for head and tail. -/
theorem counted_init : Counted Chain.init (system ι V).init := by
  have haccount := fun a => account_idle (g := Chain.init) (s := (system ι V).init)
    (fun _ => rfl) a
  -- both pointers are still to come, or have just got there
  have hpointers : ∀ a, Chain.init.pointers a = 2 := by
    intro a
    have hnot : ¬ Chain.init.Passed 0 a := fun ⟨k, hk, _⟩ => Nat.not_lt_zero k hk
    show Chain.init.ahead 0 a + Chain.init.ahead 0 a = 2
    rw [Chain.ahead, if_neg hnot]
  refine ⟨fun a => ⟨?_, ?_⟩, fun a => ?_, fun a ha => ?_,
    fun a ha => (by cases ha), fun j a ha => (by cases ha), fun a _ => rfl⟩
  · have hrefs : ((system ι V).init.account Chain.init a).refs = 0 := (haccount a).2.1
    have hends : (system ι V).init.throughEnds a = 0 := by
      show (CountedNodePtr.mk 1 1).taken a + (CountedNodePtr.mk 1 1).taken a = 0
      rw [CountedNodePtr.taken]
      split_ifs <;> rfl
    rw [hrefs, (haccount a).2.2, hends]
    rfl
  · rw [(haccount a).1, hpointers]
    rfl
  · rw [(haccount a).1, hpointers]
  · have hzero := ha.1
    rw [(haccount a).1, hpointers] at hzero
    cases hzero

omit [DecidableEq ι] [Fintype ι] in
/-- A thread uses no node it has no reference to. -/
theorem Pc.holds_of_accesses {a : Nat} (ha : p.accesses = some a) : p.holds = some a := by
  cases p with
  | push_data | push_next_load | push_next_cas | help_next | free_load | free_cas | release_load
  | release_cas | pop_next | pop_exchange => exact ha
  | _ => cases ha

omit [DecidableEq ι] [Fintype ι] in
/-- Nor does it bring another's count to nothing. -/
theorem Pc.holds_of_reclaims {a : Nat} (ha : p.reclaims s = some a) : p.holds = some a := by
  cases p with
  | free_cas old_node_ptr old_counter k =>
      simp only [Pc.reclaims] at ha
      split_ifs at ha
      exact ha
  | release_cas ptr old_counter k =>
      simp only [Pc.reclaims] at ha
      split_ifs at ha
      exact ha
  | _ => cases ha

omit [DecidableEq ι] in
/-- A node that is not linked is not deleted while a push has it. -/
theorem Counted.own_not_deleted (h : Inv g s) (hc : Counted g s) {q : CountedNodePtr}
    (hq : (s.pc i).own = some q) : s.deleted q.ptr = false := by
  have hlast : g.head ≤ g.last := Nat.le_trans h.head_le h.tail_le
  rw [← Bool.not_eq_true]
  intro hdel
  rcases hc.deleted q.ptr hdel with hclosed | hdiscarded
  · obtain ⟨n, hn, hnode⟩ := hclosed.passed
    exact (h.own i q hq).outside n (by omega) hnode.symm
  · exact hdiscarded.own i q hq rfl

omit [DecidableEq ι] in
/-- A thread that is to free an external counter finds one. -/
theorem Counted.external_ne_zero (hc : Counted g s) {q : CountedNodePtr}
    (hq : (s.pc i).frees = some q) : (s.count q.ptr).external_counters ≠ 0 := by
  have hle := hc.pointers_le q.ptr
  rw [Ne, (hc.counts q.ptr).external_iff (by omega)]
  have hone : (s.pc i).pointers q.ptr = 1 := by
    rw [Pc.pointers, hq]
    exact if_pos rfl
  have hsum : (s.pc i).pointers q.ptr ≤ ∑ j, (s.pc j).pointers q.ptr :=
    Finset.single_le_sum (f := fun j => (s.pc j).pointers q.ptr) (fun _ _ => Nat.zero_le _)
      (Finset.mem_univ i)
  have hge : ∑ j, (s.pc j).pointers q.ptr ≤ (s.account g q.ptr).pointers := Nat.le_add_left _ _
  omega

omit [DecidableEq ι] in
/-- With the books kept, nobody touches a node that is deleted, and none is deleted twice. -/
theorem Counted.safe (h : Inv g s) (hc : Counted g s) : s.Safe where
  accesses i a ha := hc.not_deleted (Pc.holds_of_accesses ha)
  deletes i a ha := by
    cases hpc : s.pc i with
    | push_next_cas v new_next old_tail =>
        rw [hpc] at ha
        simp only [Pc.deletes] at ha
        split_ifs at ha
        obtain rfl := Option.some.inj ha
        apply hc.own_not_deleted h (i := i)
        rw [hpc]
        rfl
    | _ =>
        rw [hpc] at ha
        apply hc.not_deleted (j := i)
        rw [hpc]
        exact Pc.holds_of_reclaims (s := s) ha
  external_counters i old_node_ptr old_counter k hpc hcount := by
    rw [← hcount]
    apply hc.external_ne_zero (i := i)
    rw [hpc]
    rfl
  head := by
    rw [← Bool.not_eq_true]
    intro hdel
    rcases hc.deleted s.head.ptr hdel with hclosed | hdiscarded
    · exact h.not_closed (Or.inl rfl) hclosed
    · exact hdiscarded.outside g.head (Nat.le_trans h.head_le h.tail_le) h.head_ptr

omit [DecidableEq ι] in
/-- With no operation in progress every node that `head` has passed is deleted. -/
theorem reclaimed_idle (h : Shape g s) (hq : s.Quiescent) : reclaimed g s = g.head := by
  have hclosed : ∀ n, n ∈ Finset.range g.head → Closed g s (g.node n) := by
    intro n hn
    have hn := Finset.mem_range.mp hn
    have hhead : g.Passed g.head (g.node n) := ⟨n, hn, rfl⟩
    have htail : g.Passed g.tail (g.node n) := ⟨n, Nat.lt_of_lt_of_le hn h.head_le, rfl⟩
    refine ⟨?_, (account_idle (g := g) hq _).2.1⟩
    rw [(account_idle hq _).1, Chain.pointers, Chain.ahead, Chain.ahead, if_pos hhead, if_pos htail]
  rw [reclaimed, Finset.filter_true_of_mem hclosed, Finset.card_range]

omit [DecidableEq ι] in
/-- Between the calls the queue has lost one node for each pop that returned a value. -/
theorem popped_idle (hp : Popped g s) (hq : s.Quiescent) : g.head = s.pops.length := by
  have hsum : ∑ j, (s.pc j).popped = 0 := Finset.sum_eq_zero fun j _ => by
    rw [hq j]
    rfl
  rw [Popped, hsum] at hp
  exact hp

/-- What holds of the queue and `destruct_count`. -/
def Watched.Inv (w : Watched ι V) : Prop :=
  ∃ g, LockFreeQue.Inv g w.que ∧ Counted g w.que ∧ Popped g w.que ∧
    w.destruct_count = reclaimed g w.que

/-- Every step keeps the books and the record of what was deleted. -/
theorem watched_step {w w' : Watched ι V} {a : Action ι V} (h : w.Inv) (hfew : w.que.Few)
    (hstep : (watched ι V).step w a = some w') : w'.Inv := by
  obtain ⟨g, h, hc, hp, hcount⟩ := h
  obtain ⟨t, ht, rfl⟩ := Option.map_eq_some_iff.mp hstep
  obtain ⟨g', hmove, hc', hreclaimed⟩ := counted_step h hc hfew ht
  refine ⟨g', inv_move h hmove, hc', popped_move h hp hmove, ?_⟩
  rw [hreclaimed, ← hcount]

theorem watched_init : (watched ι V).init.Inv := by
  refine ⟨Chain.init, inv_init, counted_init, ?_, rfl⟩
  have hsum : ∑ j, ((system ι V).init.pc j).popped = 0 := Finset.sum_eq_zero fun j _ => rfl
  show 0 = 0 + ∑ j, ((system ι V).init.pc j).popped
  rw [hsum]

/-- **Reclamation in `lock_free_queue` is exact**, for any number of threads, any
operations and any interleaving with fewer than 2^30 references to a node: no node is used
or deleted once it is deleted, no `external_counters` underflows, and with no operation in
progress one node has been deleted for each pop that has returned a value. -/
theorem reclaim_exact (ι V : Type*) [DecidableEq ι] [Fintype ι] (as : List (Action ι V))
    (hfew : (watched ι V).Always (fun w _ => w.que.Few) (watched ι V).init as) :
    (watched ι V).Along
      (fun w => w.que.Safe ∧ (w.que.Quiescent → w.destruct_count = w.que.pops.length))
      (watched ι V).init as := by
  refine (watched ι V).along_of_always (I := Watched.Inv) ?_
    (fun w a w' h hfew hstep => watched_step h hfew hstep) watched_init hfew
  rintro w ⟨g, h, hc, hp, hcount⟩
  refine ⟨hc.safe h, fun hq => ?_⟩
  rw [hcount, reclaimed_idle h.toShape hq, popped_idle hp hq]

omit [DecidableEq ι] in
/-- A thread has one reference to a node at most. -/
theorem refs_le_card (a : Nat) : s.refs a ≤ Fintype.card ι := by
  calc s.refs a ≤ ∑ _j : ι, 1 := Finset.sum_le_sum fun j _ => by
        show (if (s.pc j).holds = some a then 1 else 0) ≤ 1
        split_ifs <;> omega
    _ = Fintype.card ι := by simp

/-- Fewer than 2^30 threads do not take 2^30 references. -/
theorem always_few (hcard : Fintype.card ι < 2 ^ 30) (w : Watched ι V)
    (as : List (Action ι V)) : (watched ι V).Always (fun w _ => w.que.Few) w as := by
  induction as generalizing w with
  | nil => trivial
  | cons a as ih =>
      exact ⟨fun b => Nat.lt_of_le_of_lt (refs_le_card b) hcard, fun w' _ => ih w'⟩

end Moves

/-- Two threads push and one of them pops. -/
theorem reclaim_exact_pushPop :
    (watched Bool Nat).Along
      (fun w => w.que.Safe ∧ (w.que.Quiescent → w.destruct_count = w.que.pops.length))
      (watched Bool Nat).init pushPop :=
  reclaim_exact Bool Nat pushPop (always_few (by decide) _ _)

end BoostNet.LockFreeQue
