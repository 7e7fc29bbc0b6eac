/-
How far the external counts of the stacks with split reference counts can grow.

`external_count` is an `int`. It starts at 0 for the null pointer of the empty stack and at 1
for a new node, each reference that is taken through the pointer adds 1, and nothing ever takes
1 off: a node's count goes with the node when that is popped, but the null pointer comes back
each time the stack runs empty, and a `pop` that finds the stack empty leaves its reference
there.

`counted` adds to the stack how many references were taken through each pointer, a node at an
address that was used before being another one. What the counts are then is `Counted`.

* `counted_exec`: the runs are those of the stack.
* `no_overflow_of_few`: nobody increments `INT_MAX` in a run in which no thread loads `head` when
  as many references have been taken through its pointer as an `int` has room for.
* `polls_overflow`: `INT_MAX + 1` calls of `pop` on an empty stack are enough otherwise.
-/
import BoostNet.RefCountStackSteps

set_option autoImplicit false

namespace BoostNet.RefCountStack

open Heap

variable {ι A V : Type*}

/-! ## References that were taken -/

def INT_MAX : Nat := 2 ^ 31 - 1

/-- What an external count starts with. -/
def base : Option A → Nat
  | none => 0
  | some _ => 1

/-- The node of a pointer, as it is now. -/
def node (heap : A → Cell (Node A V)) (p : CountedNodePtr A) : Option (Ref A) :=
  p.ptr.map (ref heap)

section Counting

variable [DecidableEq A]

/-- The step takes a reference if its CAS on `head` in `increase_head_count` succeeds. -/
def took (s : Stack ι A V) (taken : Option (Ref A) → Nat) : Action ι A V → Option (Ref A) → Nat
  | .step i =>
      match s.pc i with
      | .inc old_head =>
          if s.head = old_head then
            Function.update taken (node s.heap s.head) (taken (node s.heap s.head) + 1)
          else taken
      | _ => taken
  | _ => taken

/-- The stack with the numbers of references that were taken through each pointer. -/
def counted (kind : Kind) (ι A V : Type*) [DecidableEq ι] [DecidableEq A] :
    Lts (Stack ι A V × (Option (Ref A) → Nat)) (Action ι A V) where
  init := ({}, fun _ => 0)
  step := fun s a => (s.1.step kind a).map fun t => (t, took s.1 s.2 a)

theorem counted_def [DecidableEq ι] {kind : Kind} (s : Stack ι A V × (Option (Ref A) → Nat))
    (a : Action ι A V) : (counted kind ι A V).step s a =
      (s.1.step kind a).map fun t => (t, took s.1 s.2 a) := rfl

/-- The numbers change nothing about the runs. -/
theorem counted_exec [DecidableEq ι] {kind : Kind} {s t : Stack ι A V}
    {taken : Option (Ref A) → Nat} {as : List (Action ι A V)} :
    (∃ taken', (counted kind ι A V).exec (s, taken) as = some (t, taken')) ↔
      (system kind ι A V).exec s as = some t := by
  induction as generalizing s taken with
  | nil => simp
  | cons a as ih =>
      rw [Lts.exec_cons_some]
      constructor
      · rintro ⟨taken', hrun⟩
        obtain ⟨_, hstep, hrest⟩ := Lts.exec_cons_some _ |>.mp hrun
        obtain ⟨u, hu, rfl⟩ := Option.map_eq_some_iff.mp hstep
        exact ⟨u, hu, ih.mp ⟨taken', hrest⟩⟩
      · rintro ⟨u, hu, hrest⟩
        obtain ⟨taken', hrun⟩ := ih.mpr hrest
        refine ⟨taken', Lts.exec_cons_some _ |>.mpr ⟨(u, took s taken a), ?_, hrun⟩⟩
        have hstep : s.step kind a = some u := hu
        rw [counted_def, hstep]
        rfl

/-- The step loads `head` into an `old_head` that is going to be incremented. -/
def Stack.loads (s : Stack ι A V) : Action ι A V → Bool
  | .step i =>
      match s.pc i with
      | .load_head => true
      | .inc old_head => s.head ≠ old_head
      | .cas_head count ptr _ => s.head ≠ ⟨count, some ptr.addr⟩
      | _ => false
  | .spurious i =>
      match s.pc i with
      | .inc _ => true
      | _ => false
  | _ => false

end Counting

/-- `head` is loaded only while fewer references than an `int` has room for were taken through
its pointer: fewer than `INT_MAX` through the null pointer, fewer than `INT_MAX - 1` through a
node. -/
def FewTaken [DecidableEq A] (s : Stack ι A V × (Option (Ref A) → Nat)) (a : Action ι A V) : Prop :=
  s.1.loads a = true → base s.1.head.ptr + s.2 (node s.1.heap s.1.head) < INT_MAX

instance [DecidableEq A] (s : Stack ι A V × (Option (Ref A) → Nat)) (a : Action ι A V) :
    Decidable (FewTaken s a) :=
  inferInstanceAs (Decidable (_ → _))

/-- No thread is about to execute `++external_count` on `INT_MAX`. -/
def Stack.NoOverflow (s : Stack ι A V) : Prop :=
  ∀ i old_head, s.pc i = .inc old_head → old_head.external_count < INT_MAX

/-! ## The counts -/

/-- The count of a pointer is what it started with and the references taken through it. -/
def Shows (taken : Option (Ref A) → Nat) (heap : A → Cell (Node A V)) (p : CountedNodePtr A) :
    Prop :=
  p.external_count = base p.ptr + taken (node heap p)

structure Counted (taken : Option (Ref A) → Nat) (s : Stack ι A V) : Prop where
  head : Shows taken s.heap s.head
  next : ∀ stack, Path (fun a => (s.next a).ptr) s.head.ptr stack none →
    ∀ a ∈ stack, Shows taken s.heap (s.next a)
  unborn : ∀ r, (s.heap r.addr).gen < r.gen → taken (some r) = 0
  fresh : ∀ i r, (s.pc i).fresh = some r → taken (some r) = 0

section Steps

variable [DecidableEq A] [DecidableEq ι] [Fintype ι] {stack : List A} {ext : A → Int}
  {s t : Stack ι A V} {taken taken' : Option (Ref A) → Nat} {i : ι} {a : A}

omit [DecidableEq A] [DecidableEq ι] [Fintype ι] in
theorem node_congr {heap heap' : A → Cell (Node A V)} {p : CountedNodePtr A}
    (hgen : ∀ a, p.ptr = some a → (heap' a).gen = (heap a).gen) : node heap' p = node heap p := by
  obtain ⟨c, ptr⟩ := p
  cases ptr with
  | none => rfl
  | some a =>
      have ha : ref heap' a = ref heap a := congrArg (Ref.mk a) (hgen a rfl)
      exact congrArg some ha

/-- The step neither writes a node of the stack nor takes a reference. -/
theorem Counted.same (h : Inv stack ext s) (hc : Counted taken s) (hhead : t.head = s.head)
    (hnext : ∀ a ∈ stack, t.next a = s.next a)
    (hgen : ∀ a ∈ stack, (t.heap a).gen = (s.heap a).gen)
    (hle : ∀ a, (s.heap a).gen ≤ (t.heap a).gen)
    (hfresh : ∀ i r, (t.pc i).fresh = some r →
      (s.pc i).fresh = some r ∨ (s.heap r.addr).gen < r.gen) : Counted taken t := by
  have hpath : Path (fun a => (t.next a).ptr) t.head.ptr stack none := by
    rw [hhead]
    exact h.mem.path.congr fun a ha => congrArg CountedNodePtr.ptr (hnext a ha)
  have hshows : ∀ p : CountedNodePtr A, (∀ a, p.ptr = some a → a ∈ stack) →
      Shows taken s.heap p → Shows taken t.heap p := by
    intro p hp hshow
    rw [Shows, node_congr fun a ha => hgen a (hp a ha)]
    exact hshow
  refine ⟨?_, fun stack' hstack' a ha => ?_, fun r hr => ?_, fun i r hr => ?_⟩
  · rw [hhead]
    exact hshows s.head (fun a ha => h.mem.head_mem ha) hc.head
  · obtain rfl := hpath.unique hstack'
    rw [hnext a ha]
    exact hshows _ (fun b hb => h.mem.next_mem ha hb) (hc.next stack h.mem.path a ha)
  · exact hc.unborn r (Nat.lt_of_le_of_lt (hle r.addr) hr)
  · exact (hfresh i r hr).elim (hc.fresh i r) (hc.unborn r)

/-- The pointer of `head` is in no node of the stack. -/
theorem next_node_ne_head (h : Inv stack ext s) {a : A} (ha : a ∈ stack) :
    node s.heap (s.next a) ≠ node s.heap s.head := by
  intro heq
  have hsame : (s.next a).ptr = s.head.ptr := by
    have haddr := congrArg (Option.map Ref.addr) heq
    rwa [node, node, map_addr_map_ref, map_addr_map_ref] at haddr
  cases hp : s.head.ptr with
  | none =>
      have hempty : stack = [] := Path.eq_nil (hp ▸ h.mem.path)
      rw [hempty] at ha
      cases ha
  | some b => exact Path.next_ne_head (hp ▸ h.mem.path) h.mem.nodup ha (hsame.trans hp)

/-- A reference is taken through the null pointer, or through the first node. -/
theorem Counted.inc (h : Inv stack ext s) (hc : Counted taken s)
    (hcount : t.head.external_count = s.head.external_count + 1) (hptr : t.head.ptr = s.head.ptr)
    (hheap : t.heap = s.heap) (hfresh : ∀ i r, (t.pc i).fresh = some r → (s.pc i).fresh = some r) :
    Counted (Function.update taken (node s.heap s.head) (taken (node s.heap s.head) + 1)) t := by
  have hpath : Path (fun a => (t.next a).ptr) t.head.ptr stack none := by
    rw [hptr]
    exact h.mem.path.congr fun a _ => by rw [Stack.next, hheap]; rfl
  have hnode : node t.heap t.head = node s.heap s.head := by
    rw [hheap, node, hptr]
    rfl
  -- nobody else has the pointer that is in `head`
  have hother : ∀ r, s.head.ptr ≠ some r.addr ∨ (s.heap r.addr).gen ≠ r.gen →
      some r ≠ node s.heap s.head := by
    intro r hr heq
    obtain ⟨a, ha, hra⟩ := Option.map_eq_some_iff.mp heq.symm
    subst hra
    exact hr.elim (fun hne => hne ha) fun hne => hne rfl
  refine ⟨?_, fun stack' hstack' a ha => ?_, fun r hr => ?_, fun i r hr => ?_⟩
  · have hshow := hc.head
    rw [Shows] at hshow
    rw [Shows, hnode, Function.update_self, hcount, hptr]
    omega
  · obtain rfl := hpath.unique hstack'
    have hshow := hc.next stack h.mem.path a ha
    have hnext : t.next a = s.next a := by rw [Stack.next, hheap]; rfl
    rw [Shows, hnext, hheap, Function.update_of_ne (next_node_ne_head h ha)]
    exact hshow
  · rw [hheap] at hr
    rw [Function.update_of_ne (hother r (.inr (Nat.ne_of_lt hr)))]
    exact hc.unborn r hr
  · have hr' := hfresh i r hr
    have hout : r.addr ∉ stack :=
      (h.threads i).outside _ (Pc.owns_of_own (Pc.own_of_fresh hr'))
    rw [Function.update_of_ne (hother r (.inl fun hmem => hout (h.mem.head_mem hmem)))]
    exact hc.fresh i r hr'

/-- The new node has the pointer that was in `head`, with its count. -/
theorem Counted.push (h : Inv stack ext s) (hc : Counted taken s) {v : V} {r : Ref A}
    (hq : s.pc i = .push_cas v r) (heq : s.head = s.next r.addr)
    (hhead : t.head = ⟨1, some r.addr⟩) (hheap : t.heap = s.heap)
    (hfresh : ∀ i r, (t.pc i).fresh = some r → (s.pc i).fresh = some r) : Counted taken t := by
  have hown : (s.pc i).own = some r := by rw [hq]; rfl
  have hvalid : Valid s.heap r := (h.threads i).own_valid r hown
  have hnew : taken (some r) = 0 := hc.fresh i r (by rw [hq]; rfl)
  have hnext : ∀ a, t.next a = s.next a := fun a => by rw [Stack.next, hheap]; rfl
  have hpath : Path (fun a => (t.next a).ptr) t.head.ptr (r.addr :: stack) none := by
    have htail : Path (fun a => (t.next a).ptr) (t.next r.addr).ptr stack none := by
      rw [hnext, ← heq]
      exact h.mem.path.congr fun a _ => congrArg CountedNodePtr.ptr (hnext a)
    rw [hhead]
    exact ⟨rfl, htail⟩
  refine ⟨?_, fun stack' hstack' a ha => ?_, fun r' hr => ?_, fun j r' hr => ?_⟩
  · have hnode : node t.heap t.head = some r := by
      rw [hhead, hheap]
      exact congrArg some hvalid.ref_eq
    rw [Shows, hnode, hnew, hhead]
    rfl
  · obtain rfl := hpath.unique hstack'
    rw [hnext, hheap]
    rcases List.mem_cons.mp ha with rfl | hmem
    · rw [← heq]
      exact hc.head
    · exact hc.next stack h.mem.path a hmem
  · exact hc.unborn r' (hheap ▸ hr)
  · exact hc.fresh j r' (hfresh j r' hr)

/-- The pointer behind the node comes back. -/
theorem Counted.pop (h : Inv stack ext s) (hc : Counted taken s) {c : Int} {r : Ref A}
    {n : CountedNodePtr A} (hq : s.pc i = .cas_head c r n) (heq : s.head = ⟨c, some r.addr⟩)
    (hhead : t.head = n) (hheap : t.heap = s.heap)
    (hfresh : ∀ i r, (t.pc i).fresh = some r → (s.pc i).fresh = some r) : Counted taken t := by
  have hn : s.next r.addr = n := (h.threads i).cas c r n hq
  have hptr : s.head.ptr = some r.addr := by rw [heq]
  obtain ⟨rest, hstack, hrest⟩ := Path.eq_cons (hptr ▸ h.mem.path)
  have hnext : ∀ a, t.next a = s.next a := fun a => by rw [Stack.next, hheap]; rfl
  have hpath : Path (fun a => (t.next a).ptr) t.head.ptr rest none := by
    rw [hhead, ← hn]
    exact hrest.congr fun a _ => congrArg CountedNodePtr.ptr (hnext a)
  have hmem : ∀ a ∈ stack, Shows taken s.heap (s.next a) := hc.next stack h.mem.path
  refine ⟨?_, fun stack' hstack' a ha => ?_, fun r' hr => ?_, fun j r' hr => ?_⟩
  · rw [hheap, hhead, ← hn]
    exact hmem r.addr (hstack ▸ List.mem_cons_self)
  · obtain rfl := hpath.unique hstack'
    rw [hnext, hheap]
    exact hmem a (hstack ▸ List.mem_cons_of_mem r.addr ha)
  · exact hc.unborn r' (hheap ▸ hr)
  · exact hc.fresh j r' (hfresh j r' hr)

omit [DecidableEq A] [Fintype ι] in
theorem fresh_update {p : Pc A V} (hp : ∀ r, p.fresh = some r → (s.pc i).fresh = some r) (j : ι)
    (r : Ref A) (hr : (Function.update s.pc i p j).fresh = some r) : (s.pc j).fresh = some r := by
  by_cases hj : j = i
  · rw [hj, Function.update_self] at hr
    exact hj ▸ hp r hr
  · rwa [Function.update_of_ne hj] at hr

omit [DecidableEq A] [Fintype ι] in
theorem fresh_none {p : Pc A V} (hp : p.fresh = none) (j : ι) (r : Ref A)
    (hr : (Function.update s.pc i p j).fresh = some r) : (s.pc j).fresh = some r := by
  refine fresh_update (fun r hr => ?_) j r hr
  rw [hp] at hr
  cases hr

/-- A thread goes on, and writes no pointer that is in the stack. -/
theorem Counted.move (h : Inv stack ext s) (hc : Counted taken s) {p : Pc A V}
    (hpc : t.pc = Function.update s.pc i p) (hhead : t.head = s.head)
    (hheap : ∀ a, t.next a = s.next a ∧ (t.heap a).gen = (s.heap a).gen)
    (hp : p.fresh = none) : Counted taken t := by
  refine hc.same h hhead (fun a _ => (hheap a).1) (fun a _ => (hheap a).2)
    (fun a => Nat.le_of_eq (hheap a).2.symm) fun j r hr => .inl ?_
  rw [hpc] at hr
  exact fresh_none hp j r hr

/-- A node is allocated. Its address is not in use, so that no node of the stack has it. -/
theorem Counted.new_node (h : Inv stack ext s) (hc : Counted taken s) {a : A} {v : V} {n : Node A V}
    (hlive : ¬ (s.heap a).live = true) (hheap : t.heap = alloc s.heap a n)
    (hhead : t.head = s.head)
    (hpc : t.pc = Function.update s.pc i (.push_next v (ref t.heap a))) : Counted taken t := by
  have hne : ∀ b ∈ stack, b ≠ a := fun b hb hba => hlive (hba ▸ h.mem.live b hb)
  have hcell : ∀ b ∈ stack, t.heap b = s.heap b := by
    intro b hb
    rw [hheap, alloc_of_ne (hne b hb)]
  have hgen : (s.heap a).gen < (t.heap a).gen := by
    rw [hheap, alloc_self]
    exact Nat.lt_succ_self _
  refine hc.same h hhead (fun b hb => congrArg (fun c => c.val.next) (hcell b hb))
    (fun b hb => congrArg Cell.gen (hcell b hb)) (fun b => ?_) fun j r hr => ?_
  · by_cases hb : b = a
    · rw [hb]
      exact Nat.le_of_lt hgen
    · rw [hheap, alloc_of_ne hb]
  · rw [hpc] at hr
    by_cases hj : j = i
    · rw [hj, Function.update_self] at hr
      obtain rfl := Option.some.inj hr
      exact .inr hgen
    · rw [Function.update_of_ne hj] at hr
      exact .inl hr

/-- `next` of the new node is written. -/
theorem Counted.setNext (h : Inv stack ext s) (hc : Counted taken s) {p : Pc A V} {r : Ref A}
    {n : CountedNodePtr A} (hown : (s.pc i).fresh = some r)
    (hpc : t.pc = Function.update s.pc i p) (hhead : t.head = s.head)
    (hheap : t.heap = s.setNext r.addr n) (hp : p.fresh = some r) : Counted taken t := by
  have hout : r.addr ∉ stack := (h.threads i).outside _ (Pc.owns_of_own (Pc.own_of_fresh hown))
  have hne : ∀ a ∈ stack, t.heap a = s.heap a := by
    intro a ha
    rw [hheap]
    exact store_of_ne fun haddr => hout (haddr ▸ ha)
  have hgen : ∀ a, (t.heap a).gen = (s.heap a).gen := by
    intro a
    rw [hheap, Stack.setNext]
    by_cases ha : a = r.addr
    · rw [ha, store_self]
    · rw [store_of_ne ha]
  refine hc.same h hhead (fun a ha => congrArg (fun c => c.val.next) (hne a ha))
    (fun a _ => hgen a) (fun a => Nat.le_of_eq (hgen a).symm) fun j r' hr => .inl ?_
  rw [hpc] at hr
  exact fresh_update (fun r' hr' => hown.trans (hp.symm.trans hr')) j r' hr

omit [DecidableEq ι] [Fintype ι] in
theorem store_next {b : A} {v : Node A V} (hv : v.next = (s.heap b).val.next) (a : A) :
    (store s.heap b v a).val.next = s.next a ∧ (store s.heap b v a).gen = (s.heap a).gen := by
  by_cases ha : a = b
  · rw [ha, store_self]
    exact ⟨hv, rfl⟩
  · rw [store_of_ne ha]
    exact ⟨rfl, rfl⟩

theorem counted_stepThread (h : Inv stack ext s) (hc : Counted taken s)
    (hstep : s.stepThread i = some t) : Counted (took s taken (.step i)) t := by
  have hfree : ∀ a, s.next a = s.next a ∧ (s.heap a).gen = (s.heap a).gen := fun _ => ⟨rfl, rfl⟩
  unfold Stack.stepThread at hstep
  cases hpc : s.pc i <;>
    simp only [hpc, reduceCtorEq, Option.some.injEq] at hstep <;> simp only [took, hpc]
  case push_next v r =>
    subst hstep
    exact hc.setNext h (by rw [hpc]; rfl) rfl rfl rfl rfl
  case push_cas v r =>
    split at hstep <;> obtain rfl := Option.some.inj hstep
    case isTrue heq => exact hc.push h hpc heq rfl rfl (fresh_none rfl)
    case isFalse => exact hc.setNext h (by rw [hpc]; rfl) rfl rfl rfl rfl
  case load_head =>
    subst hstep
    exact hc.move h rfl rfl hfree rfl
  case inc o =>
    split at hstep
    case isTrue heq =>
      rw [if_pos heq]
      subst heq
      cases hptr : s.head.ptr with
      | none =>
          rw [hptr] at hstep
          obtain rfl := Option.some.inj hstep
          exact hc.inc h rfl hptr.symm rfl (fresh_none rfl)
      | some a =>
          rw [hptr] at hstep
          obtain rfl := Option.some.inj hstep
          exact hc.inc h rfl hptr.symm rfl (fresh_none rfl)
    case isFalse hne =>
      rw [if_neg hne]
      obtain rfl := Option.some.inj hstep
      exact hc.move h rfl rfl hfree rfl
  case read_next c r =>
    subst hstep
    exact hc.move h rfl rfl hfree rfl
  case cas_head c r n =>
    split at hstep <;> obtain rfl := Option.some.inj hstep
    case isTrue heq => exact hc.pop h hpc heq rfl rfl (fresh_none rfl)
    case isFalse => exact hc.move h rfl rfl hfree rfl
  case swap c r =>
    subst hstep
    exact hc.move h rfl rfl (store_next rfl) rfl
  case fetch_add c r v =>
    subst hstep
    split
    case isTrue => exact hc.move h rfl rfl (store_next rfl) rfl
    case isFalse => exact hc.move h rfl rfl (store_next rfl) rfl
  case delete_old r v =>
    subst hstep
    exact hc.move h rfl rfl (fun a => ⟨congrArg Node.next (free_same a).1, (free_same a).2⟩) rfl
  case fetch_sub r o =>
    subst hstep
    refine hc.move h rfl rfl (store_next rfl) ?_
    split <;> rfl
  case delete_ptr r o =>
    subst hstep
    exact hc.move h rfl rfl (fun a => ⟨congrArg Node.next (free_same a).1, (free_same a).2⟩) rfl

theorem counted_step {kind : Kind} {a : Action ι A V} (h : Inv stack ext s) (hc : Counted taken s)
    (hstep : s.step kind a = some t) : Counted (took s taken a) t := by
  have hfree : ∀ a, s.next a = s.next a ∧ (s.heap a).gen = (s.heap a).gen := fun _ => ⟨rfl, rfl⟩
  cases a with
  | step i => exact counted_stepThread h hc hstep
  | push i v a =>
      unfold Stack.step at hstep
      cases hpc : s.pc i <;> simp only [hpc, reduceCtorEq] at hstep
      by_cases hlive : (s.heap a).live = true
      · rw [if_pos hlive] at hstep
        cases hstep
      · rw [if_neg hlive, Option.some.injEq] at hstep
        subst hstep
        exact hc.new_node h hlive rfl rfl rfl
  | pop i =>
      unfold Stack.step at hstep
      cases hpc : s.pc i <;> simp only [hpc, reduceCtorEq, Option.some.injEq] at hstep
      subst hstep
      exact hc.move h rfl rfl hfree rfl
  | spurious i =>
      unfold Stack.step at hstep
      cases hpc : s.pc i <;> simp only [hpc, reduceCtorEq, Option.some.injEq] at hstep
      case push_cas v r =>
        subst hstep
        exact hc.setNext h (by rw [hpc]; rfl) rfl rfl rfl rfl
      case inc o =>
        split at hstep
        case isTrue =>
          obtain rfl := Option.some.inj hstep
          exact hc.move h rfl rfl hfree rfl
        case isFalse => cases hstep

end Steps

/-! ## No overflow -/

/-- The `old_head` that the thread is going to increment. -/
def Pc.old : Pc A V → Option (CountedNodePtr A)
  | .inc old_head | .fetch_sub _ old_head | .delete_ptr _ old_head => some old_head
  | _ => none

section NoOverflow

variable [DecidableEq A] [DecidableEq ι] {s t : Stack ι A V} {a : Action ι A V} {i : ι} {p : Pc A V}

/-- The thread goes on with what it had, or with nothing. -/
theorem old_keep (hp : p.old = none ∨ p.old = (s.pc i).old) (j : ι) (o : CountedNodePtr A)
    (ho : (Function.update s.pc i p j).old = some o) :
    (s.pc j).old = some o ∨ o = s.head ∧ s.loads a = true := by
  by_cases hj : j = i
  · rw [hj, Function.update_self] at ho
    rcases hp with hp | hp <;> rw [hp] at ho
    · cases ho
    · exact .inl (hj ▸ ho)
  · rw [Function.update_of_ne hj] at ho
    exact .inl ho

/-- The thread has loaded `head`. -/
theorem old_load (hp : p.old = some s.head) (hloads : s.loads a = true) (j : ι)
    (o : CountedNodePtr A) (ho : (Function.update s.pc i p j).old = some o) :
    (s.pc j).old = some o ∨ o = s.head ∧ s.loads a = true := by
  by_cases hj : j = i
  · rw [hj, Function.update_self, hp] at ho
    exact .inr ⟨(Option.some.inj ho).symm, hloads⟩
  · rw [Function.update_of_ne hj] at ho
    exact .inl ho

/-- `head` is loaded by `pop`, and by its CAS where that fails. -/
theorem old_stepThread (hstep : s.stepThread i = some t) (j : ι) (o : CountedNodePtr A)
    (ho : (t.pc j).old = some o) :
    (s.pc j).old = some o ∨ o = s.head ∧ s.loads (.step i) = true := by
  unfold Stack.stepThread at hstep
  cases hpc : s.pc i <;> simp only [hpc, reduceCtorEq, Option.some.injEq] at hstep
  case push_next => subst hstep; exact old_keep (.inl rfl) j o ho
  case push_cas =>
    split at hstep <;> obtain rfl := Option.some.inj hstep
    · exact old_keep (.inl rfl) j o ho
    · exact old_keep (.inl rfl) j o ho
  case load_head =>
    subst hstep
    exact old_load rfl (by simp [Stack.loads, hpc]) j o ho
  case inc old_head =>
    split at hstep
    case isTrue =>
      split at hstep <;> obtain rfl := Option.some.inj hstep
      · exact old_keep (.inl rfl) j o ho
      · exact old_keep (.inl rfl) j o ho
    case isFalse hne =>
      obtain rfl := Option.some.inj hstep
      exact old_load rfl (by simp [Stack.loads, hpc, hne]) j o ho
  case read_next => subst hstep; exact old_keep (.inl rfl) j o ho
  case cas_head c r n =>
    split at hstep <;> obtain rfl := Option.some.inj hstep
    case isTrue => exact old_keep (.inl rfl) j o ho
    case isFalse hne =>
      exact old_load rfl (by simp [Stack.loads, hpc, hne]) j o ho
  case swap => subst hstep; exact old_keep (.inl rfl) j o ho
  case fetch_add =>
    subst hstep
    split at ho
    · exact old_keep (.inl rfl) j o ho
    · exact old_keep (.inl rfl) j o ho
  case delete_old => subst hstep; exact old_keep (.inl rfl) j o ho
  case fetch_sub r old_head =>
    subst hstep
    refine old_keep (.inr ?_) j o ho
    rw [hpc]
    split <;> rfl
  case delete_ptr r old_head =>
    subst hstep
    exact old_keep (.inr (by rw [hpc]; rfl)) j o ho

/-- What a thread is going to increment it had already, or it has loaded it. -/
theorem old_loaded {kind : Kind} (hstep : s.step kind a = some t) (j : ι)
    (o : CountedNodePtr A) (ho : (t.pc j).old = some o) :
    (s.pc j).old = some o ∨ o = s.head ∧ s.loads a = true := by
  cases a with
  | push i v a =>
      unfold Stack.step at hstep
      cases hpc : s.pc i <;> simp only [hpc, reduceCtorEq] at hstep
      obtain ⟨-, hstep⟩ := Option.ite_none_left_eq_some.mp hstep
      obtain rfl := Option.some.inj hstep
      exact old_keep (.inl rfl) j o ho
  | pop i =>
      unfold Stack.step at hstep
      cases hpc : s.pc i <;> simp only [hpc, reduceCtorEq, Option.some.injEq] at hstep
      subst hstep
      exact old_keep (.inl rfl) j o ho
  | spurious i =>
      unfold Stack.step at hstep
      cases hpc : s.pc i <;> simp only [hpc, reduceCtorEq, Option.some.injEq] at hstep
      case push_cas v r =>
        subst hstep
        exact old_keep (.inl rfl) j o ho
      case inc old_head =>
        split at hstep
        case isTrue =>
          obtain rfl := Option.some.inj hstep
          exact old_load rfl (by simp [Stack.loads, hpc]) j o ho
        case isFalse => cases hstep
  | step i => exact old_stepThread hstep j o ho

variable [Fintype ι]

/-- What holds of a run in which `head` is loaded in time. -/
structure InTime (s : Stack ι A V × (Option (Ref A) → Nat)) : Prop where
  inv : ∃ stack ext, Inv stack ext s.1
  counts : Counted s.2 s.1
  old : ∀ i o, (s.1.pc i).old = some o → o.external_count < INT_MAX

theorem inTime_init {kind : Kind} : InTime (counted kind ι A V).init where
  inv := ⟨_, _, inv_init⟩
  counts :=
    { head := rfl
      next := fun stack hstack a ha => by
        have hnil : stack = [] := hstack.eq_nil
        rw [hnil] at ha
        cases ha
      unborn := fun _ _ => rfl
      fresh := nofun }
  old := nofun

theorem InTime.step {kind : Kind} {s t : Stack ι A V × (Option (Ref A) → Nat)}
    {a : Action ι A V} (h : InTime s) (hfew : FewTaken s a)
    (hstep : (counted kind ι A V).step s a = some t) : InTime t := by
  obtain ⟨u, hu, rfl⟩ := Option.map_eq_some_iff.mp hstep
  obtain ⟨stack, ext, hinv⟩ := h.inv
  refine ⟨inv_step s.1 a u h.inv hu, counted_step hinv h.counts hu, fun i o ho => ?_⟩
  rcases old_loaded hu i o ho with hold | ⟨rfl, hload⟩
  · exact h.old i o hold
  · have hshow := h.counts.head
    rw [Shows] at hshow
    have hlt := hfew hload
    omega

/-- **No count overflows while few references are taken.** In every run, of any number of
threads: as long as `head` is loaded only when its pointer has room for another reference,
nobody increments `INT_MAX`. -/
theorem no_overflow_of_few (kind : Kind) (as : List (Action ι A V))
    (hfew : (counted kind ι A V).Always FewTaken (counted kind ι A V).init as) :
    (counted kind ι A V).Along (fun s => s.1.NoOverflow) (counted kind ι A V).init as :=
  (counted kind ι A V).along_of_always
    (fun _ h i o hpc => h.old i o (by rw [hpc]; rfl)) (fun _ _ _ h hfew hstep => h.step hfew hstep)
    inTime_init hfew

end NoOverflow

/-- One `pop` of an empty stack. -/
theorem no_overflow_of_few_poll :
    (counted .ref_count_stack (Fin 1) Nat Nat).Always FewTaken
        (counted .ref_count_stack (Fin 1) Nat Nat).init [.pop 0, .step 0, .step 0] ∧
      (counted .ref_count_stack (Fin 1) Nat Nat).Along (fun s => s.1.NoOverflow)
        (counted .ref_count_stack (Fin 1) Nat Nat).init [.pop 0, .step 0, .step 0] :=
  ⟨by decide, no_overflow_of_few .ref_count_stack _ (by decide)⟩

/-! ## Polling an empty stack -/

section Polls

/-- An empty stack, with the count of its null pointer. -/
def empty (k : Int) : Stack (Fin 1) Nat Nat := { head := ⟨k, none⟩ }

def loaded (k : Int) : Stack (Fin 1) Nat Nat := { empty k with pc := fun _ => .inc ⟨k, none⟩ }

theorem const_update {p q : Pc Nat Nat} :
    Function.update (fun _ : Fin 1 => p) 0 q = fun _ => q := by
  funext i
  rw [Subsingleton.elim i 0, Function.update_self]

/-- A `pop` loads the null pointer, with its count. -/
theorem poll_load (kind : Kind) (k : Int) (taken : Option (Ref Nat) → Nat) :
    (counted kind (Fin 1) Nat Nat).exec (empty k, taken) [.pop 0, .step 0] =
      some (loaded k, taken) := by
  have hcall : (empty k).step kind (.pop 0) = some ((empty k).goto 0 .load_head) := rfl
  have hload : ((empty k).goto 0 .load_head).step kind (.step 0) = some (loaded k) := by
    have hpc : ((empty k).goto 0 .load_head).pc 0 = .load_head := rfl
    simp only [Stack.step, Stack.stepThread, hpc, Option.some.injEq]
    simp only [Stack.goto, empty, loaded, const_update]
  have hfirst : (counted kind (Fin 1) Nat Nat).step (empty k, taken) (.pop 0) =
      some ((empty k).goto 0 .load_head, taken) := by
    rw [counted_def, hcall]
    rfl
  have hsecond : (counted kind (Fin 1) Nat Nat).step ((empty k).goto 0 .load_head, taken)
      (.step 0) = some (loaded k, taken) := by
    rw [counted_def, hload]
    rfl
  rw [Lts.exec_cons, hfirst, Option.bind_some, Lts.exec_cons, hsecond]
  rfl

/-- It takes a reference, finds no node, and leaves the reference there. -/
theorem poll_inc (kind : Kind) (k : Int) :
    (loaded k).step kind (.step 0) = some (empty (k + 1)) := by
  simp only [Stack.step, Stack.stepThread, loaded, empty, if_true, Option.some.injEq]
  simp only [Stack.ret, Stack.goto, const_update, Option.toList_none, List.append_nil,
    Function.update_eq_self]

theorem polls (kind : Kind) (k : Nat) :
    ∃ as taken, (counted kind (Fin 1) Nat Nat).exec (counted kind (Fin 1) Nat Nat).init as =
      some (empty k, taken) := by
  induction k with
  | zero => exact ⟨[], _, rfl⟩
  | succ k ih =>
      obtain ⟨as, taken, hrun⟩ := ih
      have hstep : (counted kind (Fin 1) Nat Nat).step (loaded k, taken) (.step 0) =
          some (empty (k + 1), took (loaded k) taken (.step 0)) := by
        rw [counted_def, poll_inc]
        rfl
      refine ⟨as ++ ([.pop 0, .step 0] ++ [.step 0]), took (loaded k) taken (.step 0), ?_⟩
      rw [Lts.exec_append _ hrun, Lts.exec_append _ (poll_load kind k taken), Lts.exec_cons, hstep]
      rfl

/-- **`INT_MAX + 1` calls of `pop` on an empty stack overflow its count.** -/
theorem polls_overflow (kind : Kind) :
    ¬ ∀ as, (counted kind (Fin 1) Nat Nat).Along (fun s => s.1.NoOverflow)
      (counted kind (Fin 1) Nat Nat).init as := by
  intro hall
  obtain ⟨as, taken, hrun⟩ := polls kind INT_MAX
  have hlast : (counted kind (Fin 1) Nat Nat).exec (counted kind (Fin 1) Nat Nat).init
      (as ++ [.pop 0, .step 0]) = some (loaded INT_MAX, taken) := by
    rw [Lts.exec_append _ hrun, poll_load]
  have hlt := (hall _).last _ hlast 0 ⟨INT_MAX, none⟩ rfl
  exact absurd hlt (lt_irrefl _)

/-- Neither class keeps its increments below `INT_MAX`. -/
theorem overflow_counterexample :
    ¬ ∀ (kind : Kind) (as : List (Action (Fin 1) Nat Nat)),
      (counted kind (Fin 1) Nat Nat).Along (fun s => s.1.NoOverflow)
        (counted kind (Fin 1) Nat Nat).init as :=
  fun hall => polls_overflow .ref_count_stack (hall .ref_count_stack)

end Polls

end BoostNet.RefCountStack
