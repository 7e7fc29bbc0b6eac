/-
The values of the lock-free queue (Concurrent/day18-LockFreeQue): none is duplicated,
and when none is lost.

Every value pushed is returned, on its way, or in the memory (`Balanced`), and the
nodes from `head` to `tail` each hold one. But the data of a node is not set once:
`pop` resets it to null, and a push that still holds the node from before can then
set it again, behind `head`, where nobody will look. `Lost` says that this has
happened, and no move undoes it.

* `conserved_iff`: a run that ends with no operation in progress has lost or
  duplicated no value exactly if every `push` that set a node's data did so while the
  node was the tail.
* `push_lost`: a run in which a value is lost.
-/
import BoostNet.LockFreeQueInv

set_option autoImplicit false

namespace BoostNet.LockFreeQue

variable {ι V : Type*}

/-! ## What the values should do, and the condition -/

/-- No operation is in progress. -/
def Que.Quiescent (s : Que ι V) : Prop := ∀ i, s.pc i = .idle

/-- The nodes from `p` up to `q`, which is not included. -/
inductive Path (next : Nat → CountedNodePtr) (q : Nat) : Nat → List Nat → Prop where
  | nil : Path next q q []
  | cons {p : Nat} {l : List Nat} (hne : p ≠ q) (h : Path next q (next p).ptr l) :
      Path next q p (p :: l)

/-- The values of the pushes are those of the pops and those in the nodes from `head`
up to `tail`, each of which holds one. -/
def Que.Conserved (s : Que ι V) : Prop :=
  ∃ l, Path s.next s.tail.ptr s.head.ptr l ∧ (∀ a ∈ l, s.data a ≠ none) ∧
    (s.pushes : Multiset V) = s.pops + (l.filterMap s.data : List V)

/-- The thread's next step sets the data of no node but the tail. -/
def Pc.AtTail (s : Que ι V) : Pc V → Prop
  | .push_data _ _ old_tail => s.data old_tail.ptr = none → s.tail.ptr = old_tail.ptr
  | .idle | .push_load _ _ | .push_inc _ _ _ | .push_next_load _ _ _ | .push_next_cas _ _ _
  | .help_next _ _ _ | .set_new_tail _ _ _ _ | .free_load _ _ | .free_cas _ _ _
  | .release_load _ _ | .release_cas _ _ _ | .pop_load | .pop_inc _ | .pop_tail _
  | .pop_next _ | .pop_cas _ _ | .pop_exchange _ => True

/-- A `push` sets the data of a node only while the node is the tail. -/
def Que.DataAtTail (s : Que ι V) : Action ι V → Prop
  | .step i => (s.pc i).AtTail s
  | .push _ _ | .pop _ | .spurious _ => True

instance (s : Que ι V) : ∀ p : Pc V, Decidable (p.AtTail s)
  | .push_data _ _ old_tail =>
      inferInstanceAs (Decidable (s.data old_tail.ptr = none → s.tail.ptr = old_tail.ptr))
  | .idle | .push_load _ _ | .push_inc _ _ _ | .push_next_load _ _ _ | .push_next_cas _ _ _
  | .help_next _ _ _ | .set_new_tail _ _ _ _ | .free_load _ _ | .free_cas _ _ _
  | .release_load _ _ | .release_cas _ _ _ | .pop_load | .pop_inc _ | .pop_tail _
  | .pop_next _ | .pop_cas _ _ | .pop_exchange _ => inferInstanceAs (Decidable True)

instance (s : Que ι V) : ∀ a : Action ι V, Decidable (s.DataAtTail a)
  | .step i => inferInstanceAs (Decidable ((s.pc i).AtTail s))
  | .push _ _ | .pop _ | .spurious _ => inferInstanceAs (Decidable True)

/-! ## No value is duplicated -/

/-- The values pushed, by a push that has returned or not. -/
def Que.entered [Fintype ι] (s : Que ι V) : Multiset V :=
  s.pushes + ∑ j, bag (s.pc j).pushing

/-- The values popped, by a pop that has returned or not. -/
def Que.taken [Fintype ι] (s : Que ι V) : Multiset V :=
  s.pops + ∑ j, bag (s.pc j).popping

/-- The values in the nodes. -/
def Que.stored (s : Que ι V) : Multiset V := ∑ a ∈ Finset.range s.fresh, bag (s.data a)

def Que.Balanced [Fintype ι] (s : Que ι V) : Prop := s.entered = s.taken + s.stored

section Balance

variable {g : Chain} {s t : Que ι V} {i : ι}

theorem stored_congr (hdata : t.data = s.data) (hfresh : t.fresh = s.fresh) :
    t.stored = s.stored := by
  rw [Que.stored, Que.stored, hdata, hfresh]

/-- A node that was allocated holds nothing yet. -/
theorem stored_alloc (h : Shape g s) (hdata : t.data = s.data)
    (hfresh : t.fresh = s.fresh + 1) : t.stored = s.stored := by
  have hnone : s.data s.fresh = none := by
    apply h.outside s.fresh
    intro n hn heq
    have hlt := h.alloc n hn
    omega
  rw [Que.stored, Que.stored, hdata, hfresh, Finset.sum_range_succ, hnone]
  exact add_zero _

theorem stored_update {a : Nat} {x : Option V} (hdata : t.data = Function.update s.data a x)
    (hfresh : t.fresh = s.fresh) (ha : a < s.fresh) :
    t.stored + bag (s.data a) = s.stored + bag x := by
  rw [Que.stored, Que.stored, hdata, hfresh]
  have hsum := sum_update (fun o : Option V => bag o) s.data x (Finset.mem_range.mpr ha)
  exact hsum

variable [DecidableEq ι] [Fintype ι] {p : Pc V}

/-- The balance after a step of thread `i` to `p`, from what the step itself adds and
takes. -/
theorem balanced_step (hb : s.Balanced) (hpc : t.pc = Function.update s.pc i p)
    (hstep : (t.pushes : Multiset V) + bag p.pushing +
        (s.pops + bag (s.pc i).popping + s.stored) =
      s.pushes + bag (s.pc i).pushing + (t.pops + bag p.popping + t.stored)) : t.Balanced := by
  have hpush := sum_update (fun q : Pc V => bag q.pushing) s.pc p (Finset.mem_univ i)
  have hpop := sum_update (fun q : Pc V => bag q.popping) s.pc p (Finset.mem_univ i)
  rw [← hpc] at hpush hpop
  refine add_right_cancel (b := s.pushes + bag (s.pc i).pushing +
    (s.pops + bag (s.pc i).popping + s.stored)) ?_
  calc t.entered + (s.pushes + bag (s.pc i).pushing + (s.pops + bag (s.pc i).popping + s.stored))
      = (∑ j, bag (t.pc j).pushing + bag (s.pc i).pushing) + s.pushes +
          (t.pushes + (s.pops + bag (s.pc i).popping + s.stored)) := by
        rw [Que.entered]
        ac_rfl
    _ = s.entered + (t.pushes + bag p.pushing + (s.pops + bag (s.pc i).popping + s.stored)) := by
        rw [hpush, Que.entered]
        ac_rfl
    _ = (∑ j, bag (s.pc j).popping + bag p.popping) + (s.pops + s.stored + (s.pushes +
          bag (s.pc i).pushing) + (t.pops + t.stored)) := by
        rw [hstep, show s.entered = s.taken + s.stored from hb, Que.taken]
        ac_rfl
    _ = t.taken + t.stored + (s.pushes + bag (s.pc i).pushing +
          (s.pops + bag (s.pc i).popping + s.stored)) := by
        rw [← hpop, Que.taken]
        ac_rfl

/-- A step that enters, takes and returns nothing. -/
theorem balanced_quiet (hb : s.Balanced) (hpc : t.pc = Function.update s.pc i p)
    (hpushes : t.pushes = s.pushes) (hpops : t.pops = s.pops) (hstored : t.stored = s.stored)
    (hpush : p.pushing = (s.pc i).pushing) (hpop : p.popping = (s.pc i).popping) :
    t.Balanced := by
  apply balanced_step hb hpc
  rw [hpushes, hpops, hstored, hpush, hpop]

/-- A push puts its value into the node at the tail, where there was none. -/
theorem balanced_write (hb : s.Balanced) {v : V} {new_next old_tail : CountedNodePtr}
    (hpc : s.pc i = .push_data v new_next old_tail) (hdata : s.data old_tail.ptr = none)
    (hlt : old_tail.ptr < s.fresh) :
    Que.Balanced { s.goto i (.push_next_load v new_next old_tail) with
      data := Function.update s.data old_tail.ptr (some v) } := by
  have hsum := stored_update (s := s) (t := { s.goto i (.push_next_load v new_next old_tail) with
    data := Function.update s.data old_tail.ptr (some v) }) rfl rfl hlt
  rw [hdata, show bag (none : Option V) = 0 from rfl, add_zero] at hsum
  apply balanced_step hb rfl
  rw [hsum, hpc]
  show (s.pushes : Multiset V) + bag (some v) + (s.pops + 0 + s.stored) =
    s.pushes + 0 + (s.pops + 0 + (s.stored + bag (some v)))
  rw [add_zero, add_zero]
  ac_rfl

/-- A pop takes the value with it. -/
theorem balanced_exchange (hb : s.Balanced) {old_head : CountedNodePtr}
    (hpc : s.pc i = .pop_exchange old_head) (hlt : old_head.ptr < s.fresh) :
    Que.Balanced { s.goto i (.free_load old_head (.pop_done (s.data old_head.ptr))) with
      data := Function.update s.data old_head.ptr none } := by
  have hsum := stored_update (s := s)
    (t := { s.goto i (.free_load old_head (.pop_done (s.data old_head.ptr))) with
      data := Function.update s.data old_head.ptr none }) rfl rfl hlt
  rw [show bag (none : Option V) = 0 from rfl, add_zero] at hsum
  apply balanced_step hb rfl
  rw [← hsum, hpc]
  generalize Que.stored { s.goto i (.free_load old_head (.pop_done (s.data old_head.ptr))) with
    data := Function.update s.data old_head.ptr none } = rest
  show (s.pushes : Multiset V) + 0 + (s.pops + 0 + (rest + bag (s.data old_head.ptr))) =
    s.pushes + 0 + (s.pops + bag (s.data old_head.ptr) + rest)
  rw [add_zero, add_zero]
  ac_rfl

/-- No step makes or loses a value. -/
theorem balanced_move (h : Inv g s) (hb : s.Balanced) {g' : Chain}
    (hmove : Move g s i g' t) : t.Balanced := by
  cases hmove with
  | stay p hpc hdata hnext hfresh hhead htail hp hown htaking htaken hadv hpush hpop =>
      apply balanced_step hb hpc
      rw [hpush, hpop, stored_congr hdata hfresh]
  | call v hpc =>
      exact balanced_quiet hb rfl rfl rfl (stored_alloc h.toShape h.toShape.alloc_eq.1 rfl)
        (by rw [hpc]; rfl) (by rw [hpc]; rfl)
  | write v new_next old_tail hpc hdata =>
      obtain ⟨n, hn, hptr⟩ : (Pc.push_data v new_next old_tail).Ok g s := hpc ▸ h.threads i
      apply balanced_write hb hpc hdata
      rw [hptr]
      exact h.alloc n (Nat.le_trans hn h.tail_le)
  | link new_next old_tail k hown hlast hold hset hpc hdata hnext hhead htail hfresh hadv hpushes
      hpops hpush hpop =>
      refine balanced_quiet hb hpc hpushes hpops ?_ hpush hpop.symm
      rcases hfresh with ⟨hfresh, -⟩ | ⟨hfresh, -⟩
      · exact stored_congr hdata hfresh
      · exact stored_alloc h.toShape hdata hfresh
  | swing old_tail new_tail k hpc htail hlt hnew =>
      refine balanced_quiet hb rfl rfl rfl rfl ?_ ?_
      · rw [hpc]
        exact SetTail.after_pushing _ _
      · rw [hpc]
        exact SetTail.after_popping _ _
  | take old_head next hpc hhead hlt hnext =>
      exact balanced_quiet hb rfl rfl rfl rfl (by rw [hpc]; rfl) (by rw [hpc]; rfl)
  | exchange old_head hpc =>
      obtain ⟨n, hn, hptr, -⟩ : (Pc.pop_exchange old_head : Pc V).Ok g s := hpc ▸ h.threads i
      have hhead := h.head_le
      have htail := h.tail_le
      apply balanced_exchange hb hpc
      rw [hptr]
      exact h.alloc n (by omega)

end Balance

/-! ## When a value is lost -/

/-- A node before `head` holds a value that no pop is about to take. -/
def Lost (g : Chain) (s : Que ι V) : Prop :=
  ∃ n, n < g.head ∧ s.data (g.node n) ≠ none ∧ ∀ j, (s.pc j).taking ≠ some (g.node n)

section Loss

variable [DecidableEq ι] {g : Chain} {s t : Que ι V} {i : ι}

/-- A step of one thread makes nobody else take a value. -/
theorem not_taking_after {p : Pc V} {a : Nat} (hpc : t.pc = Function.update s.pc i p)
    (hp : p.taking ≠ some a) (hno : ∀ j, (s.pc j).taking ≠ some a) :
    ∀ j, (t.pc j).taking ≠ some a := by
  rw [hpc]
  exact forall_update (P := fun q : Pc V => q.taking ≠ some a) hp fun j _ => hno j

theorem not_taking_before {p : Pc V} {a : Nat} (hpc : t.pc = Function.update s.pc i p)
    (hi : (s.pc i).taking ≠ some a) (hno : ∀ j, (t.pc j).taking ≠ some a) :
    ∀ j, (s.pc j).taking ≠ some a := by
  intro j
  by_cases hj : j = i
  · rw [hj]
    exact hi
  · have hnoj := hno j
    rwa [hpc, Function.update_of_ne hj] at hnoj

omit [DecidableEq ι] in
/-- A thread that still owns a node has not taken its value. -/
theorem Pc.taking_of_own {p : Pc V} {q : CountedNodePtr} (h : p.own = some q) :
    p.taking = none := by
  cases p with
  | pop_exchange old_head => cases h
  | _ => rfl

/-- **No move finds a lost value again.** -/
theorem lost_move (h : Inv g s) {g' : Chain} (hmove : Move g s i g' t) (hl : Lost g s) :
    Lost g' t := by
  obtain ⟨n, hn, hdata, hno⟩ := hl
  have hhead := h.head_le
  have htail := h.tail_le
  cases hmove with
  | stay p hpc hdata' hnext hfresh hhead' htail' hp hown htaking =>
      exact ⟨n, hn, by rwa [hdata'], not_taking_after hpc (by rw [htaking]; simp) hno⟩
  | call v hpc =>
      refine ⟨n, hn, ?_, not_taking_after rfl (by simp [Pc.taking]) hno⟩
      show s.alloc.data (g.node n) ≠ none
      rwa [h.toShape.alloc_eq.1]
  | write v new_next old_tail hpc hdata' =>
      refine ⟨n, hn, ?_, not_taking_after rfl (by simp [Pc.taking]) hno⟩
      show Function.update s.data old_tail.ptr (some v) (g.node n) ≠ none
      -- the push sets another node's data, since this one's is set
      rw [Function.update_of_ne]
      · exact hdata
      · intro heq
        rw [heq] at hdata
        exact hdata hdata'
  | link new_next old_tail k hown hlast hold hset hpc hdata' hnext =>
      refine ⟨n, hn, ?_, ?_⟩
      · rw [Chain.link_node new_next (show n ≤ g.last by omega), hdata']
        exact hdata
      · rw [Chain.link_node new_next (show n ≤ g.last by omega)]
        exact not_taking_after hpc (by simp [Pc.taking]) hno
  | swing old_tail new_tail k hpc htail' hlt hnew =>
      exact ⟨n, hn, hdata, not_taking_after rfl (by simp [Pc.taking]) hno⟩
  | take old_head next hpc hhead' hlt hnext =>
      refine ⟨n, Nat.lt_succ_of_lt hn, hdata, not_taking_after rfl (fun heq => ?_) hno⟩
      -- the pop is about to take the node at `head`, which is another
      have hptr : g.node g.head = g.node n := by
        rw [← h.head_ptr, hhead']
        exact Option.some.inj heq
      have heq' := h.inj g.head n (by omega) (by omega) hptr
      omega
  | exchange old_head hpc =>
      refine ⟨n, hn, ?_, not_taking_after rfl (by simp [Pc.taking]) hno⟩
      show Function.update s.data old_head.ptr none (g.node n) ≠ none
      rw [Function.update_of_ne]
      · exact hdata
      · intro heq
        apply hno i
        rw [hpc, heq]
        rfl

/-- A value is lost by no move but the setting of a node's data behind `head`. -/
theorem not_lost_move (h : Inv g s) {g' : Chain} (hmove : Move g s i g' t)
    (hG : (s.pc i).AtTail s) (hl : ¬ Lost g s) : ¬ Lost g' t := by
  rintro ⟨n, hn, hdata, hno⟩
  have hhead := h.head_le
  have htail := h.tail_le
  apply hl
  cases hmove with
  | stay p hpc hdata' hnext hfresh hhead' htail' hp hown htaking htaken =>
      exact ⟨n, hn, by rwa [← hdata'], not_taking_before hpc (by rw [htaken]; simp) hno⟩
  | call v hpc =>
      refine ⟨n, hn, ?_, not_taking_before rfl (by rw [hpc]; simp [Pc.taking]) hno⟩
      rw [← h.toShape.alloc_eq.1]
      exact hdata
  | write v new_next old_tail hpc hdata' =>
      rw [hpc] at hG
      refine ⟨n, hn, ?_, not_taking_before rfl (by rw [hpc]; simp [Pc.taking]) hno⟩
      -- the push sets the tail's data, which is not behind `head`
      have hne : g.node n ≠ old_tail.ptr := by
        rw [← hG hdata', h.tail_ptr]
        intro heq
        have hnt := h.inj n g.tail (by omega) htail heq
        omega
      rw [← Function.update_of_ne hne (some v) s.data]
      exact hdata
  | link new_next old_tail k hown hlast hold hset hpc hdata' hnext =>
      have hn : n < g.head := hn
      rw [Chain.link_node new_next (show n ≤ g.last by omega)] at hdata hno
      refine ⟨n, hn, by rwa [← hdata'], not_taking_before hpc ?_ hno⟩
      rw [Pc.taking_of_own hown]
      simp
  | swing old_tail new_tail k hpc htail' hlt hnew =>
      exact ⟨n, hn, hdata, not_taking_before rfl (by rw [hpc]; simp [Pc.taking]) hno⟩
  | take old_head next hpc hhead' hlt hnext =>
      have hn : n < g.head + 1 := hn
      refine ⟨n, ?_, hdata, not_taking_before rfl (by rw [hpc]; simp [Pc.taking]) hno⟩
      -- the node at `head` is being taken by the thread that moves
      have hne : n ≠ g.head := by
        rintro rfl
        apply hno i
        show (Function.update s.pc i (.pop_exchange old_head) i).taking = some (g.node g.head)
        rw [Function.update_self, ← h.head_ptr, hhead']
        rfl
      omega
  | exchange old_head hpc =>
      have hne : g.node n ≠ old_head.ptr := by
        intro heq
        apply hdata
        show Function.update s.data old_head.ptr none (g.node n) = none
        rw [heq, Function.update_self]
      refine ⟨n, hn, ?_, not_taking_before rfl ?_ hno⟩
      · rw [← Function.update_of_ne hne none s.data]
        exact hdata
      · rw [hpc]
        exact fun heq => hne (Option.some.inj heq).symm

/-- Setting the data of a node that is not the tail loses the value: a node before
the tail without data is one whose data was taken. -/
theorem lost_write (h : Inv g s) {v : V} {new_next old_tail : CountedNodePtr}
    (hpc : s.pc i = .push_data v new_next old_tail) (hdata : s.data old_tail.ptr = none)
    (hne : s.tail.ptr ≠ old_tail.ptr) :
    Lost g { s.goto i (.push_next_load v new_next old_tail) with
      data := Function.update s.data old_tail.ptr (some v) } := by
  obtain ⟨n, hn, hptr⟩ : (Pc.push_data v new_next old_tail).Ok g s := hpc ▸ h.threads i
  have hnt : n ≠ g.tail := by
    rintro rfl
    exact hne (h.tail_ptr.trans hptr.symm)
  -- from `head` to `tail` every node's data is set
  have hnh : n < g.head := by
    by_contra hge
    apply h.full n (by omega) (by omega)
    rw [← hptr]
    exact hdata
  refine ⟨n, hnh, ?_, not_taking_after rfl (by simp [Pc.taking]) fun j hj => ?_⟩
  · show Function.update s.data old_tail.ptr (some v) (g.node n) ≠ none
    rw [← hptr, Function.update_self]
    exact Option.some_ne_none v
  · -- a pop that has still to take the data would find it
    have hok := h.threads j
    cases hpcj : s.pc j with
    | pop_exchange old_head =>
        rw [hpcj] at hok hj
        obtain ⟨m, -, hm, hset⟩ := hok
        rw [← hm, Option.some.inj hj, ← hptr] at hset
        exact hset hdata
    | _ => rw [hpcj] at hj; cases hj

/-- Only a step inside `push` can set data. -/
theorem atTail_of_step {a : Action ι V} (hG : s.DataAtTail a) (hstep : s.step a = some t) :
    (s.pc a.thread).AtTail s := by
  cases a with
  | step i => exact hG
  | push i v =>
      simp only [Que.step] at hstep
      split at hstep
      · next hpc => rw [Action.thread, hpc]; trivial
      · cases hstep
  | pop i =>
      simp only [Que.step] at hstep
      split at hstep
      · next hpc => rw [Action.thread, hpc]; trivial
      · cases hstep
  | spurious i =>
      simp only [Que.step] at hstep
      split at hstep
      · next hpc => rw [Action.thread, hpc]; trivial
      · cases hstep

/-- A step that meets the condition leaves no value behind the head. -/
theorem good_step (h : Inv g s) (hl : ¬ Lost g s) {a : Action ι V} (hG : s.DataAtTail a)
    (hstep : s.step a = some t) : ∃ g', Inv g' t ∧ ¬ Lost g' t := by
  obtain ⟨g', hmove⟩ := move_step h hstep
  exact ⟨g', inv_move h hmove, not_lost_move h hmove (atTail_of_step hG hstep) hl⟩

/-- One that does not meet it does: a push writes to a node that a pop has left. -/
theorem bad_step (h : Inv g s) {a : Action ι V} (hG : ¬ s.DataAtTail a)
    (hstep : s.step a = some t) : ∃ g', Inv g' t ∧ Lost g' t := by
  cases a with
  | step i =>
      cases hpc : s.pc i with
      | push_data v new_next old_tail =>
          have hG' : ¬ (s.data old_tail.ptr = none → s.tail.ptr = old_tail.ptr) := by
            rw [Que.DataAtTail, hpc] at hG
            exact hG
          obtain ⟨hdata, hne⟩ := Classical.not_imp.mp hG'
          simp only [Que.step, Que.stepThread, hpc, hdata] at hstep
          cases hstep
          exact ⟨g, inv_write h hpc, lost_write h hpc hdata hne⟩
      | _ =>
          rw [Que.DataAtTail, hpc] at hG
          exact absurd trivial hG
  | _ => exact absurd trivial hG

end Loss

/-! ## The result -/

section Result

variable {g : Chain} {s : Que ι V}

/-- The nodes from `head` up to `tail`. -/
def Chain.range (g : Chain) : List Nat :=
  (List.range' g.head (g.tail - g.head)).map g.node

/-- The nodes of the queue are those from the head to the tail. -/
theorem Shape.mem_range (h : Shape g s) {a : Nat} :
    a ∈ g.range ↔ ∃ n, g.head ≤ n ∧ n < g.tail ∧ g.node n = a := by
  have hle := h.head_le
  simp only [Chain.range, List.mem_map, List.mem_range'_1]
  constructor
  · rintro ⟨n, ⟨hn, hn'⟩, rfl⟩
    exact ⟨n, hn, by omega, rfl⟩
  · rintro ⟨n, hn, hn', rfl⟩
    exact ⟨n, ⟨hn, by omega⟩, rfl⟩

/-- No node is in it twice. -/
theorem Shape.nodup_range (h : Shape g s) : g.range.Nodup := by
  have htail := h.tail_le
  refine List.Nodup.map_on (fun m hm n hn heq => ?_) List.nodup_range'
  rw [List.mem_range'_1] at hm hn
  exact h.inj m n (by omega) (by omega) heq

/-- Following `next` from `head` to `tail` meets these nodes. -/
theorem Shape.path_range (h : Shape g s) : Path s.next s.tail.ptr s.head.ptr g.range := by
  have hlast := h.tail_le
  rw [h.tail_ptr, h.head_ptr]
  have hpath : ∀ k n, n + k = g.tail →
      Path s.next (g.node g.tail) (g.node n) ((List.range' n k).map g.node) := by
    intro k
    induction k with
    | zero =>
        rintro n hn
        rw [Nat.add_zero] at hn
        rw [hn]
        exact .nil
    | succ k ih =>
        intro n hn
        refine .cons (fun heq => ?_) ?_
        · have hnt := h.inj n g.tail (by omega) hlast heq
          omega
        · rw [h.link n (by omega)]
          exact ih (n + 1) (by omega)
  have hle := h.head_le
  exact hpath (g.tail - g.head) g.head (by omega)

theorem Path.unique {next : Nat → CountedNodePtr} {p q : Nat} {l l' : List Nat}
    (h : Path next q p l) (h' : Path next q p l') : l = l' := by
  induction h generalizing l' with
  | nil =>
      cases h' with
      | nil => rfl
      | cons hne _ => exact absurd rfl hne
  | cons hne _ ih =>
      cases h' with
      | nil => exact absurd rfl hne
      | cons _ h' => rw [ih h']

/-- The values in the nodes are those from `head` up to `tail` and the rest. -/
theorem stored_split (h : Shape g s) :
    s.stored = (g.range.filterMap s.data : List V) +
      ∑ a ∈ Finset.range s.fresh \ g.range.toFinset, bag (s.data a) := by
  have hsub : g.range.toFinset ⊆ Finset.range s.fresh := by
    intro a ha
    rw [List.mem_toFinset, h.mem_range] at ha
    obtain ⟨n, -, hn, rfl⟩ := ha
    exact Finset.mem_range.mpr (h.alloc n (Nat.le_trans (Nat.le_of_lt hn) h.tail_le))
  have hlist : ∀ l : List Nat, l.Nodup →
      ∑ a ∈ l.toFinset, bag (s.data a) = (l.filterMap s.data : List V) := by
    intro l hl
    rw [List.sum_toFinset _ hl]
    induction l with
    | nil => rfl
    | cons a l ih =>
        rw [List.map_cons, List.sum_cons, ih hl.of_cons]
        cases hdata : s.data a with
        | none => rw [List.filterMap_cons_none hdata]; exact zero_add _
        | some v => rw [List.filterMap_cons_some hdata]; rfl
  rw [Que.stored, ← Finset.sum_sdiff hsub, hlist g.range h.nodup_range, add_comm]

/-- With no operation in progress, a value outside the nodes from `head` to `tail` is
one that is lost. -/
theorem not_lost_iff (h : Inv g s) (hq : s.Quiescent) :
    ¬ Lost g s ↔ ∀ a, a ∉ g.range → s.data a = none := by
  have hno : ∀ j a, (s.pc j).taking ≠ some a := by
    intro j a
    rw [hq j]
    simp [Pc.taking]
  have hhead := h.head_le
  have htail := h.tail_le
  constructor
  · intro hl a ha
    by_contra hdata
    by_cases hchain : ∃ n, n ≤ g.last ∧ a = g.node n
    · obtain ⟨n, hn, rfl⟩ := hchain
      have hnotin : ¬ (g.head ≤ n ∧ n < g.tail) := fun ⟨hge, hlt⟩ =>
        ha (h.mem_range.mpr ⟨n, hge, hlt, rfl⟩)
      rcases Nat.lt_or_ge n g.head with hlt | hge
      · exact hl ⟨n, hlt, hdata, fun j => hno j _⟩
      · rcases Nat.lt_or_ge g.tail n with hlt | hle
        · have hlast := h.last_le
          obtain rfl : n = g.last := by omega
          exact hdata (h.ahead hlt)
        · -- a push that has set the tail's data is still in progress
          obtain rfl : n = g.tail := by omega
          obtain ⟨j, hj⟩ := h.advanced hdata
          rw [hq j] at hj
          cases hj
    · exact hdata (h.outside a fun n hn heq => hchain ⟨n, hn, heq⟩)
  · rintro hnone ⟨n, hn, hdata, -⟩
    refine hdata (hnone (g.node n) fun hmem => ?_)
    obtain ⟨m, hm, hm', heq⟩ := h.mem_range.mp hmem
    have hmn := h.inj m n (by omega) (by omega) heq
    omega

/-- Between the calls the values pushed are those popped and those in the queue exactly where none
is behind the head. -/
theorem conserved_iff_not_lost [Fintype ι] (h : Inv g s) (hb : s.Balanced) (hq : s.Quiescent) :
    s.Conserved ↔ ¬ Lost g s := by
  -- the balance, without operations in progress
  have hbal : (s.pushes : Multiset V) = s.pops + s.stored := by
    have hpush : ∑ j, bag (s.pc j).pushing = 0 :=
      Finset.sum_eq_zero fun j _ => by rw [hq j]; rfl
    have hpop : ∑ j, bag (s.pc j).popping = 0 :=
      Finset.sum_eq_zero fun j _ => by rw [hq j]; rfl
    have hb' : s.entered = s.taken + s.stored := hb
    rwa [Que.entered, Que.taken, hpush, hpop, add_zero, add_zero] at hb'
  have hfull : ∀ a ∈ g.range, s.data a ≠ none := by
    intro a ha
    obtain ⟨n, hn, hn', rfl⟩ := h.mem_range.mp ha
    exact h.full n hn hn'
  rw [not_lost_iff h hq]
  constructor
  · rintro ⟨l, hpath, -, heq⟩ a ha
    obtain rfl : l = g.range := hpath.unique h.path_range
    have hzero : ∑ a ∈ Finset.range s.fresh \ g.range.toFinset, bag (s.data a) = 0 := by
      rw [hbal, stored_split h.toShape, ← add_assoc] at heq
      exact add_left_cancel (heq.trans (add_zero _).symm)
    by_contra hdata
    have hlt : a < s.fresh := by
      by_contra hge
      refine hdata (h.outside a fun n hn heq' => ?_)
      have := h.alloc n hn
      omega
    obtain ⟨v, hv⟩ := Option.ne_none_iff_exists'.mp hdata
    have hmem : v ∈ ∑ a ∈ Finset.range s.fresh \ g.range.toFinset, bag (s.data a) :=
      Multiset.mem_sum.mpr ⟨a, by simp [hlt, ha], by simp [hv, bag]⟩
    rw [hzero] at hmem
    exact Multiset.notMem_zero v hmem
  · intro hnone
    refine ⟨g.range, h.path_range, hfull, ?_⟩
    have hzero : ∑ a ∈ Finset.range s.fresh \ g.range.toFinset, bag (s.data a) = 0 := by
      apply Finset.sum_eq_zero
      intro a ha
      rw [Finset.mem_sdiff, List.mem_toFinset] at ha
      rw [hnone a ha.2]
      rfl
    rw [hbal, stored_split h.toShape, hzero, add_zero]

theorem balanced_init [DecidableEq ι] [Fintype ι] : (system ι V).init.Balanced := by
  have hpush : ∑ j, bag ((system ι V).init.pc j).pushing = 0 :=
    Finset.sum_eq_zero fun j _ => rfl
  have hpop : ∑ j, bag ((system ι V).init.pc j).popping = 0 :=
    Finset.sum_eq_zero fun j _ => rfl
  have hstored : (system ι V).init.stored = 0 := Finset.sum_eq_zero fun a _ => rfl
  rw [Que.Balanced, Que.entered, Que.taken, hpush, hpop, hstored]
  rfl

theorem not_lost_init [DecidableEq ι] : ¬ Lost Chain.init (system ι V).init := by
  rintro ⟨n, hn, -⟩
  exact Nat.not_lt_zero n hn

/-- **When `lock_free_queue` conserves values**, for any number of threads, any operations and any
interleaving that ends with none in progress: exactly when no push set the data of a node that was
no longer the tail. A push that has read `tail` and then waits may set the data of a node which
others have meanwhile popped, where `data` is null again; what it pushes is then behind the head. -/
theorem conserved_iff (ι V : Type*) [DecidableEq ι] [Fintype ι] (as : List (Action ι V))
    (s : Que ι V) (hrun : (system ι V).exec (system ι V).init as = some s)
    (hq : s.Quiescent) :
    s.Conserved ↔ (system ι V).Always Que.DataAtTail (system ι V).init as := by
  have hb : ∃ g, Inv g s ∧ s.Balanced := by
    refine (system ι V).exec_inv (P := fun s => ∃ g, Inv g s ∧ s.Balanced) ?_
      ⟨Chain.init, inv_init, balanced_init⟩ hrun
    rintro s a t ⟨g, h, hb⟩ hstep
    obtain ⟨g', hmove⟩ := move_step h hstep
    exact ⟨g', inv_move h hmove, balanced_move h hb hmove⟩
  have hgood : ∀ s a t, (∃ g, Inv g s ∧ ¬ Lost g s) → s.DataAtTail a →
      (system ι V).step s a = some t → ∃ g, Inv g t ∧ ¬ Lost g t :=
    fun s a t ⟨g, h, hl⟩ hG hstep => good_step h hl hG hstep
  obtain ⟨g, h, hbal⟩ := hb
  constructor
  · intro hcons
    refine (system ι V).always_of_trap (T := fun s => ∃ g, Inv g s ∧ Lost g s) hgood
      (fun s a t ⟨g, h, _⟩ hG hstep => bad_step h hG hstep) ?_
      ⟨Chain.init, inv_init, not_lost_init⟩ hrun ?_
    · rintro s a t ⟨g, h, hl⟩ hstep
      obtain ⟨g', hmove⟩ := move_step h hstep
      exact ⟨g', inv_move h hmove, lost_move h hmove hl⟩
    · rintro ⟨g', h', hl⟩
      exact (conserved_iff_not_lost h' hbal hq).mp hcons hl
  · intro hG
    obtain ⟨g', h', hl⟩ := (system ι V).exec_inv_of_always hgood
      ⟨Chain.init, inv_init, not_lost_init⟩ hG hrun
    exact (conserved_iff_not_lost h' hbal hq).mpr hl

/-- One thread's `push` with no other in its way, to its end. -/
def pushAlone {ι V : Type*} (i : ι) (v : V) : List (Action ι V) :=
  .push i v :: List.replicate 8 (.step i)

/-- One thread's `pop` with no other in its way, to its end. -/
def popAlone {ι V : Type*} (i : ι) : List (Action ι V) := .pop i :: List.replicate 8 (.step i)

/-- Two pushes and a pop, one after another. -/
def pushPop : List (Action Bool Nat) :=
  pushAlone false 1 ++ pushAlone true 2 ++ popAlone false

theorem conserved_iff_pushPop :
    ∃ s, (system Bool Nat).exec (system Bool Nat).init pushPop = some s ∧ s.Conserved :=
  ⟨_, rfl, (conserved_iff Bool Nat pushPop _ rfl
    (Bool.forall_bool.mpr ⟨rfl, rfl⟩)).mpr (by decide)⟩

/-- One thread has loaded the tail for its push and sleeps; another pushes its value in
that node and pops it. -/
def sleepingPush : List (Action Bool Nat) :=
  .push false 1 :: List.replicate 2 (.step false) ++ pushAlone true 2 ++ popAlone true ++
    List.replicate 6 (.step false)

/-- The first thread finds the node's data null again and sets it: its value is gone. -/
theorem push_lost :
    ∃ s, (system Bool Nat).exec (system Bool Nat).init sleepingPush = some s ∧
      s.Quiescent ∧ s.pushes = [2, 1] ∧ s.pops = [2] ∧ s.head.ptr = s.tail.ptr ∧
      ¬ s.Conserved := by
  refine ⟨_, rfl, Bool.forall_bool.mpr ⟨rfl, rfl⟩, rfl, rfl, rfl, ?_⟩
  rintro ⟨l, hpath, -, heq⟩
  cases hpath with
  | nil => exact absurd heq (by decide)
  | cons hne _ => exact hne rfl

end Result

end BoostNet.LockFreeQue
