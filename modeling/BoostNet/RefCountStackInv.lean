/-
The invariant of the stacks with split reference counts.

`stack` are the addresses of the stack's nodes, and `ext a` is the external count of the node at
`a`, wherever its pointer is: in `head`, in the `next` of the node above it, with the thread that
has popped it, or folded into the internal count and then 1 again. At all times
`ext a + internal a = 1 + refs`, `refs` being the threads that hold a reference to the node. So a
node whose external count is 1 and whose internal count is 0 is held by nobody (`Inv.unheld`): it
is new, or somebody is about to delete it. A popped node that nobody has to delete yet has a
positive count, and hence a holder.
-/
import Mathlib.Algebra.Order.BigOperators.Group.Finset
import BoostNet.RefCountStack
import BoostNet.Threads

set_option autoImplicit false

namespace BoostNet.RefCountStack

open Heap
open LockFreeStack (Ev Lifo pushed poppedBy)

variable {ι A V : Type*}

/-! ## What a thread holds -/

/-- The node that a push has allocated. -/
def Pc.fresh : Pc A V → Option (Ref A)
  | .push_next _ r | .push_cas _ r => some r
  | _ => none

/-- The node that a pop has popped, before its count is folded. -/
def Pc.popper : Pc A V → Option (Ref A)
  | .swap _ r | .fetch_add _ r _ => some r
  | _ => none

/-- The external count of that node. -/
def Pc.count : Pc A V → Int
  | .swap c _ | .fetch_add c _ _ => c
  | _ => 0

/-- The node that a thread is to delete. -/
def Pc.dead : Pc A V → Option (Ref A)
  | .delete_old r _ | .delete_ptr r _ => some r
  | _ => none

/-- The node that a thread has a reference to. -/
def Pc.held : Pc A V → Option (Ref A)
  | .read_next _ r | .cas_head _ r _ | .swap _ r | .fetch_add _ r _ | .fetch_sub r _ => some r
  | _ => none

/-- The node that belongs to a thread. -/
def Pc.own (p : Pc A V) : Option (Ref A) := (p.fresh.or p.popper).or p.dead

/-- The address of it. -/
def Pc.owns (p : Pc A V) : Option A := p.own.map Ref.addr

/-- What a pop is going to return. -/
def Pc.res (data : A → Option V) : Pc A V → Option V
  | .swap _ r => data r.addr
  | .fetch_add _ _ v | .delete_old _ v => v
  | _ => none

variable [DecidableEq A]

/-- The references of a thread to the node at `a`. -/
def Pc.refs (p : Pc A V) (a : A) : Int := if p.held.map Ref.addr = some a then 1 else 0

/-! ## The invariant -/

/-- The nodes of the stack, and the external counts with their pointers. -/
structure Mem (stack : List A) (ext : A → Int) (s : Stack ι A V) : Prop where
  path : Path (fun a => (s.next a).ptr) s.head.ptr stack none
  nodup : stack.Nodup
  live : ∀ a ∈ stack, (s.heap a).live = true
  head_count : ∀ a, s.head.ptr = some a → s.head.external_count = ext a
  next_count : ∀ a ∈ stack, ∀ b, (s.next a).ptr = some b → (s.next a).external_count = ext b
  internal : ∀ a ∈ stack, s.internal a ≤ 0
  not_popped : ∀ a ∈ stack, ref s.heap a ∉ s.popped
  lifo : ∃ l, Lifo s.history l ∧ stack.map s.data = l.map some

/-- What is true of the thread `i` at `p`. -/
structure ThreadOk [DecidableEq ι] (stack : List A) (ext : A → Int) (s : Stack ι A V) (i : ι)
    (p : Pc A V) : Prop where
  own_valid : ∀ r, p.own = some r → Valid s.heap r
  held_valid : ∀ r, p.held = some r → Valid s.heap r
  outside : ∀ a, p.owns = some a → a ∉ stack
  settled : ∀ r, p.fresh = some r ∨ p.dead = some r → ext r.addr = 1 ∧ s.internal r.addr = 0
  popper : ∀ r, p.popper = some r → ext r.addr = p.count ∧ s.internal r.addr ≤ 0
  popped : ∀ r, p.popper = some r ∨ p.dead = some r → r ∈ s.popped
  fresh : ∀ r, p.fresh = some r → r ∉ s.popped
  data : ∀ v r, p = .push_next v r ∨ p = .push_cas v r → s.data r.addr = some v
  cas : ∀ c r n, p = .cas_head c r n → s.next r.addr = n
  res : poppedBy i s.history = s.returned i ++ (p.res s.data).toList

structure Inv [DecidableEq ι] [Fintype ι] (stack : List A) (ext : A → Int) (s : Stack ι A V) :
    Prop where
  mem : Mem stack ext s
  log : Ledger s.heap s.popped s.deleted
  threads : ∀ i, ThreadOk stack ext s i (s.pc i)
  unique : Unique Pc.owns s.pc
  count : ∀ a, (s.heap a).live = true → ext a + s.internal a = 1 + ∑ j, (s.pc j).refs a
  /-- a node that was popped and is nobody's -/
  left : ∀ a, (s.heap a).live = true → a ∉ stack → (∀ j, (s.pc j).owns ≠ some a) →
    ext a = 1 ∧ 0 < s.internal a ∧ ref s.heap a ∈ s.popped

variable {stack stack' : List A} {ext ext' : A → Int} {s t : Stack ι A V} {i j : ι} {p q : Pc A V}
  {r : Ref A} {a : A}

omit [DecidableEq A] in
theorem Pc.own_of_fresh (h : p.fresh = some r) : p.own = some r := by
  cases p <;> cases h <;> rfl

omit [DecidableEq A] in
theorem Pc.own_of_popper (h : p.popper = some r) : p.own = some r := by
  cases p <;> cases h <;> rfl

omit [DecidableEq A] in
theorem Pc.own_of_dead (h : p.dead = some r) : p.own = some r := by
  cases p <;> cases h <;> rfl

omit [DecidableEq A] in
theorem Pc.owns_of_own (h : p.own = some r) : p.owns = some r.addr := by
  rw [Pc.owns, h]
  rfl

omit [DecidableEq A] in
theorem Pc.count_of_none (h : p.popper = none) : p.count = 0 := by
  cases p <;> first | rfl | cases h

omit [DecidableEq A] in
theorem Pc.res_of_none {data : A → Option V} (h : p.own = none) : p.res data = none := by
  cases p <;> first | rfl | cases h

theorem Pc.refs_nonneg (p : Pc A V) (a : A) : 0 ≤ p.refs a := by
  unfold Pc.refs
  split <;> omega

theorem Pc.refs_of_held (h : p.held = some r) : p.refs r.addr = 1 := by
  rw [Pc.refs, h]
  exact if_pos rfl

theorem Pc.refs_of_ne (h : p.held.map Ref.addr ≠ some a) : p.refs a = 0 := if_neg h

variable [DecidableEq ι] [Fintype ι]

theorem inv_init : Inv [] (fun _ => 1) ({} : Stack ι A V) where
  mem :=
    { path := rfl, nodup := List.nodup_nil, live := by simp, head_count := by rintro a ⟨⟩
      next_count := by simp, internal := by simp, not_popped := by simp
      lifo := ⟨[], .nil, rfl⟩ }
  log := .nil
  threads := fun _ =>
    { own_valid := by rintro r ⟨⟩, held_valid := by rintro r ⟨⟩, outside := by rintro a ⟨⟩
      settled := by rintro r (⟨⟨⟩⟩ | ⟨⟨⟩⟩), popper := by rintro r ⟨⟩
      popped := by rintro r (⟨⟨⟩⟩ | ⟨⟨⟩⟩), fresh := by rintro r ⟨⟩
      data := by rintro v r (⟨⟨⟩⟩ | ⟨⟨⟩⟩), cas := by rintro c r n ⟨⟩, res := rfl }
  unique := by rintro j j' a ⟨⟩
  count := by rintro a ⟨⟩
  left := by rintro a ⟨⟩

/-! ## References -/

omit [DecidableEq ι] in
/-- A node that has a holder has a positive sum of references. -/
theorem sum_refs_pos (hj : (s.pc j).held = some r) : 0 < ∑ k, (s.pc k).refs r.addr := by
  have hle := Finset.single_le_sum (f := fun k => (s.pc k).refs r.addr)
    (fun k _ => (s.pc k).refs_nonneg _) (Finset.mem_univ j)
  rw [Pc.refs_of_held hj] at hle
  omega

/-- A settled node is held by nobody. -/
theorem Inv.unheld (h : Inv stack ext s) (hr : (s.pc i).fresh = some r ∨ (s.pc i).dead = some r)
    (j : ι) : (s.pc j).held.map Ref.addr ≠ some r.addr := by
  intro hj
  obtain ⟨r', hr', haddr⟩ := Option.map_eq_some_iff.mp hj
  have hown : (s.pc i).own = some r := hr.elim Pc.own_of_fresh Pc.own_of_dead
  have hcount := h.count r.addr ((h.threads i).own_valid r hown).1
  obtain ⟨hext, hint⟩ := (h.threads i).settled r hr
  have hpos := sum_refs_pos hr'
  rw [haddr] at hpos
  omega

/-- A thread holds no other's own node, but one that is popped. -/
theorem Inv.held_own (h : Inv stack ext s) (hj : (s.pc j).held = some r)
    (hi : (s.pc i).owns = some r.addr) : ∃ r', (s.pc i).popper = some r' ∧ r'.addr = r.addr := by
  obtain ⟨r', hr', haddr⟩ := Option.map_eq_some_iff.mp hi
  have hnot : ¬ ((s.pc i).fresh = some r' ∨ (s.pc i).dead = some r') := fun hor =>
    h.unheld hor j (by rw [hj, haddr]; rfl)
  cases hp : (s.pc i).popper with
  | some r'' =>
      have hown := Pc.own_of_popper hp
      obtain rfl := Option.some.inj (hown.symm.trans hr')
      exact ⟨r'', rfl, haddr⟩
  | none =>
      rw [Pc.own, hp, Option.or_none] at hr'
      cases hf : (s.pc i).fresh with
      | some r'' =>
          rw [hf, Option.some_or] at hr'
          exact absurd (Or.inl (hf.trans hr')) hnot
      | none =>
          rw [hf, Option.none_or] at hr'
          exact absurd (Or.inr hr') hnot

/-! ## What a step leaves to the other threads -/

structure Frame (stack stack' : List A) (ext ext' : A → Int) (s t : Stack ι A V) (i : ι) :
    Prop where
  entered : ∀ a ∈ stack', a ∈ stack ∨ (s.pc i).owns = some a
  valid : ∀ r, Valid s.heap r → Valid t.heap r ∨ (s.pc i).dead = some r
  next : ∀ a, (s.heap a).live = true → (s.pc i).fresh.map Ref.addr ≠ some a → t.next a = s.next a
  data : ∀ a, (s.heap a).live = true → (s.pc i).owns ≠ some a → t.data a = s.data a
  internal : ∀ a, (s.heap a).live = true → (s.pc i).owns ≠ some a → t.internal a ≤ s.internal a
  unheld : ∀ a, (s.heap a).live = true → (s.pc i).owns ≠ some a →
    (s.pc i).held.map Ref.addr ≠ some a → t.internal a = s.internal a
  outer : ∀ a, (s.heap a).live = true → a ∉ stack → (s.pc i).owns ≠ some a → ext' a = ext a
  popped : ∀ r ∈ s.popped, r ∈ t.popped
  added : ∀ r ∈ t.popped, r ∈ s.popped ∨ r.addr ∈ stack
  history : ∀ j, j ≠ i → poppedBy j t.history = poppedBy j s.history
  returned : ∀ j, j ≠ i → t.returned j = s.returned j

/-- **The frame.** What is true of a thread stays true in a step of another. -/
theorem ThreadOk.frame (h : Inv stack ext s) (hf : Frame stack stack' ext ext' s t i)
    (hji : j ≠ i) : ThreadOk stack' ext' t j (s.pc j) := by
  have hok := h.threads j
  have hother : ∀ {r}, (s.pc j).own = some r → (s.pc i).owns ≠ some r.addr :=
    fun hr hi => hji (h.unique j i _ (Pc.owns_of_own hr) hi)
  have hlive : ∀ {r}, (s.pc j).own = some r → (s.heap r.addr).live = true :=
    fun hr => (hok.own_valid _ hr).1
  have hout : ∀ {r}, (s.pc j).own = some r → r.addr ∉ stack :=
    fun hr => hok.outside _ (Pc.owns_of_own hr)
  have hext : ∀ {r}, (s.pc j).own = some r → ext' r.addr = ext r.addr :=
    fun hr => hf.outer _ (hlive hr) (hout hr) (hother hr)
  refine { own_valid := ?_, held_valid := ?_, outside := ?_, settled := ?_, popper := ?_,
           popped := ?_, fresh := ?_, data := ?_, cas := ?_, res := ?_ }
  · intro r hr
    refine (hf.valid r (hok.own_valid r hr)).resolve_right fun hdead => hother hr ?_
    exact Pc.owns_of_own (Pc.own_of_dead hdead)
  · intro r hr
    refine (hf.valid r (hok.held_valid r hr)).resolve_right fun hdead => ?_
    exact h.unheld (Or.inr hdead) j (by rw [hr]; rfl)
  · intro a ha hmem
    rcases hf.entered a hmem with hmem | hi
    · exact hok.outside a ha hmem
    · exact hji (h.unique j i a ha hi)
  · intro r hr
    have hown : (s.pc j).own = some r := hr.elim Pc.own_of_fresh Pc.own_of_dead
    rw [hext hown, hf.unheld _ (hlive hown) (hother hown) (h.unheld hr i)]
    exact hok.settled r hr
  · intro r hr
    have hown := Pc.own_of_popper hr
    obtain ⟨hcount, hint⟩ := hok.popper r hr
    exact ⟨(hext hown).trans hcount, (hf.internal _ (hlive hown) (hother hown)).trans hint⟩
  · exact fun r hr => hf.popped r (hok.popped r hr)
  · intro r hr hmem
    exact (hf.added r hmem).elim (hok.fresh r hr) (hout (Pc.own_of_fresh hr))
  · intro v r hr
    have hown : (s.pc j).own = some r := by rcases hr with hr | hr <;> rw [hr] <;> rfl
    rw [hf.data _ (hlive hown) (hother hown)]
    exact hok.data v r hr
  · intro c r n hr
    have hheld : (s.pc j).held = some r := by rw [hr]; rfl
    rw [hf.next _ (hok.held_valid r hheld).1]
    · exact hok.cas c r n hr
    · intro hfresh
      obtain ⟨r', hr', haddr⟩ := Option.map_eq_some_iff.mp hfresh
      exact h.unheld (Or.inl hr') j (by rw [hheld, haddr]; rfl)
  · rw [hf.history j hji, hf.returned j hji, hok.res]
    congr 2
    cases hp : s.pc j with
    | swap c r =>
        have hown : (s.pc j).own = some r := by rw [hp]; rfl
        exact (hf.data _ (hlive hown) (hother hown)).symm
    | _ => rfl

/-- **The rule for a step.** The thread `i` moves to `p`, and leaves the others what they have. -/
theorem Inv.of_frame (h : Inv stack ext s) (hf : Frame stack stack' ext ext' s t i)
    (hpc : t.pc = Function.update s.pc i p) (hmem : Mem stack' ext' t)
    (hlog : Ledger t.heap t.popped t.deleted)
    (hi : ThreadOk stack' ext' t i p)
    (howns : ∀ a, p.owns = some a → (s.pc i).owns = some a ∨ a ∈ stack ∨
      ∀ j, (s.pc j).owns ≠ some a)
    (hcount : ∀ a, (t.heap a).live = true →
      (s.heap a).live = true ∧
        ext' a + t.internal a + (s.pc i).refs a = ext a + s.internal a + p.refs a ∨
      ext' a + t.internal a = 1 ∧ ∀ j, (t.pc j).refs a = 0)
    (hleft : ∀ a, (t.heap a).live = true → a ∉ stack' → p.owns ≠ some a →
      (∀ j, j ≠ i → (s.pc j).owns ≠ some a) → ext' a = 1 ∧ 0 < t.internal a ∧
        ref t.heap a ∈ t.popped) :
    Inv stack' ext' t where
  mem := hmem
  log := hlog
  threads := by
    rw [hpc]
    exact forall_update_at hi fun j hj => ThreadOk.frame h hf hj
  unique := by
    rw [hpc]
    refine h.unique.update fun a ha j hj hown => ?_
    rcases howns a ha with hold | hmem | hnone
    · exact hj (h.unique j i a hown hold)
    · exact (h.threads j).outside a hown hmem
    · exact hnone j hown
  count := by
    intro a ha
    rcases hcount a ha with ⟨hlive, heq⟩ | ⟨heq, hnone⟩
    · have hsum := sum_update (fun q => q.refs a) s.pc p (Finset.mem_univ i)
      have hold := h.count a hlive
      rw [hpc]
      omega
    · rw [heq, Finset.sum_eq_zero fun j _ => hnone j]
      rfl
  left := by
    intro a ha hmem hnone
    rw [hpc] at hnone
    refine hleft a ha hmem ?_ fun j hj => ?_
    · simpa using hnone i
    · simpa [Function.update_of_ne hj] using hnone j

end BoostNet.RefCountStack
