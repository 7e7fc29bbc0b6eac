/-
Every step of the stacks with split reference counts keeps the invariant, one lemma for each
operation of the source.
-/
import BoostNet.RefCountStackInv

set_option autoImplicit false

namespace BoostNet.RefCountStack

open Heap
open LockFreeStack (Ev Lifo pushed poppedBy poppedBy_pop)

variable {ι A V : Type*} [DecidableEq A] [DecidableEq ι] [Fintype ι]
  {stack stack' : List A} {ext ext' : A → Int} {s t : Stack ι A V} {i j : ι} {p q : Pc A V}
  {r : Ref A} {a : A}

/-! ## The stack in memory -/

omit [DecidableEq A] [DecidableEq ι] [Fintype ι] in
theorem Mem.head_mem (h : Mem stack ext s) (ha : s.head.ptr = some a) : a ∈ stack := by
  have hpath := h.path
  rw [ha] at hpath
  exact hpath.head_mem

omit [DecidableEq A] [DecidableEq ι] [Fintype ι] in
theorem Mem.next_mem (h : Mem stack ext s) (ha : a ∈ stack) {b : A}
    (hb : (s.next a).ptr = some b) : b ∈ stack :=
  h.path.next_mem ha hb

omit [DecidableEq A] [DecidableEq ι] [Fintype ι] in
/-- The stack is where it was if its nodes are, whatever their internal counts. Of `head` only
what a pointer that is not null says matters. -/
theorem Mem.frame (h : Mem stack ext s)
    (hhead : t.head = s.head ∨ s.head.ptr = none ∧ t.head.ptr = none)
    (hnext : ∀ a ∈ stack, t.next a = s.next a) (hdata : ∀ a ∈ stack, t.data a = s.data a)
    (hlive : ∀ a ∈ stack, (t.heap a).live = (s.heap a).live)
    (hgen : ∀ a ∈ stack, (t.heap a).gen = (s.heap a).gen)
    (hint : ∀ a ∈ stack, t.internal a ≤ 0) (hext : ∀ a ∈ stack, ext' a = ext a)
    (hpopped : t.popped = s.popped) (hhistory : t.history = s.history) : Mem stack ext' t := by
  have hptr : t.head.ptr = s.head.ptr := by
    rcases hhead with heq | ⟨hs, ht⟩
    · rw [heq]
    · rw [hs, ht]
  refine { path := ?_, nodup := h.nodup, live := ?_, head_count := ?_, next_count := ?_
           internal := hint, not_popped := ?_, lifo := ?_ }
  · rw [hptr]
    exact h.path.congr fun a ha => congrArg CountedNodePtr.ptr (hnext a ha)
  · exact fun a ha => (hlive a ha).trans (h.live a ha)
  · intro a ha
    rcases hhead with heq | ⟨-, ht⟩
    · rw [heq] at ha ⊢
      exact (h.head_count a ha).trans (hext a (h.head_mem ha)).symm
    · rw [ht] at ha
      cases ha
  · intro a ha b hb
    rw [hnext a ha] at hb ⊢
    exact (h.next_count a ha b hb).trans (hext b (h.next_mem ha hb)).symm
  · intro a ha
    rw [hpopped, ref, hgen a ha]
    exact h.not_popped a ha
  · obtain ⟨l, hl, hmap⟩ := h.lifo
    refine ⟨l, hhistory ▸ hl, ?_⟩
    rw [← hmap]
    exact List.map_congr_left hdata

omit [DecidableEq A] [DecidableEq ι] [Fintype ι] in
/-- The stack is where it was if its nodes and their counts are. -/
theorem Mem.congr (h : Mem stack ext s) (hheap : ∀ a ∈ stack, t.heap a = s.heap a)
    (hext : ∀ a ∈ stack, ext' a = ext a) (hhead : t.head = s.head) (hpopped : t.popped = s.popped)
    (hhistory : t.history = s.history) : Mem stack ext' t := by
  refine h.frame (.inl hhead) (fun a ha => congrArg (fun c => c.val.next) (hheap a ha))
    (fun a ha => congrArg (fun c => c.val.data) (hheap a ha))
    (fun a ha => congrArg Cell.live (hheap a ha)) (fun a ha => congrArg Cell.gen (hheap a ha)) ?_
    hext hpopped hhistory
  intro a ha
  rw [Stack.internal, hheap a ha]
  exact h.internal a ha

/-! ## A thread works on its own node -/

/-- The heap differs in the `next` of a new node, or the data of an own node, of the thread. -/
structure Writes (q : Pc A V) (heap heap' : A → Cell (Node A V)) : Prop where
  live : ∀ a, (heap' a).live = (heap a).live
  gen : ∀ a, (heap' a).gen = (heap a).gen
  internal : ∀ a, (heap' a).val.internal_count = (heap a).val.internal_count
  next : ∀ a, q.fresh.map Ref.addr ≠ some a → (heap' a).val.next = (heap a).val.next
  data : ∀ a, q.owns ≠ some a → (heap' a).val.data = (heap a).val.data

omit [DecidableEq A] [DecidableEq ι] [Fintype ι] in
theorem Writes.refl (q : Pc A V) (heap : A → Cell (Node A V)) : Writes q heap heap where
  live _ := rfl
  gen _ := rfl
  internal _ := rfl
  next _ _ := rfl
  data _ _ := rfl

omit [DecidableEq ι] [Fintype ι] in
theorem Writes.store {heap : A → Cell (Node A V)} {v : Node A V}
    (hint : v.internal_count = (heap a).val.internal_count)
    (hnext : q.fresh.map Ref.addr = some a ∨ v.next = (heap a).val.next)
    (hdata : q.owns = some a ∨ v.data = (heap a).val.data) : Writes q heap (store heap a v) := by
  constructor <;> intro b <;> by_cases hb : b = a
  all_goals try rw [store_of_ne hb]
  all_goals try exact fun _ => rfl
  all_goals subst hb; rw [store_self]
  · exact hint
  · exact fun hne => hnext.resolve_left hne
  · exact fun hne => hdata.resolve_left hne

omit [DecidableEq A] [DecidableEq ι] [Fintype ι] in
theorem Writes.valid {heap heap' : A → Cell (Node A V)} (hw : Writes q heap heap')
    (hr : Valid heap r) : Valid heap' r :=
  hr.congr (hw.live _) (hw.gen _)

omit [DecidableEq A] [DecidableEq ι] [Fintype ι] in
theorem Writes.ref {heap heap' : A → Cell (Node A V)} (hw : Writes q heap heap') (a : A) :
    ref heap' a = ref heap a := by
  rw [Heap.ref, Heap.ref, hw.gen]

/-- The rule for a thread that goes on with the same nodes, and writes its own. -/
theorem Inv.quiet (h : Inv stack ext s) (hq : s.pc i = q) (hw : Writes q s.heap t.heap)
    (hpc : t.pc = Function.update s.pc i p)
    (hhead : t.head = s.head ∨ s.head.ptr = none ∧ t.head.ptr = none)
    (hpopped : t.popped = s.popped) (hdeleted : t.deleted = s.deleted)
    (hhistory : t.history = s.history) (hreturned : ∀ j, j ≠ i → t.returned j = s.returned j)
    (hfresh : p.fresh = q.fresh) (hpopper : p.popper = q.popper) (hdead : p.dead = q.dead)
    (hcount : p.count = q.count) (hheld : p.held = q.held)
    (hdata : ∀ v r, p = .push_next v r ∨ p = .push_cas v r → t.data r.addr = some v)
    (hcas : ∀ c r n, p = .cas_head c r n → t.next r.addr = n)
    (hres : t.returned i ++ (p.res t.data).toList = s.returned i ++ (q.res s.data).toList) :
    Inv stack ext t := by
  have hok := h.threads i
  rw [hq] at hok
  have hown : p.own = q.own := by rw [Pc.own, Pc.own, hfresh, hpopper, hdead]
  have howns : p.owns = q.owns := by rw [Pc.owns, Pc.owns, hown]
  have hint : ∀ a, t.internal a = s.internal a := hw.internal
  have hlive : ∀ a, (t.heap a).live = true → (s.heap a).live = true :=
    fun a ha => (hw.live a).symm.trans ha
  -- the nodes of the stack are not written
  have hout : ∀ a ∈ stack, q.owns ≠ some a := fun a ha hown => hok.outside a hown ha
  have hnext : ∀ a ∈ stack, t.next a = s.next a := by
    refine fun a ha => hw.next a fun hne => ?_
    obtain ⟨r, hr, rfl⟩ := Option.map_eq_some_iff.mp hne
    exact hout _ ha (Pc.owns_of_own (Pc.own_of_fresh hr))
  refine h.of_frame (p := p) (i := i)
    { entered := fun _ => Or.inl, valid := fun r hr => Or.inl (hw.valid hr)
      next := fun a _ ha => hw.next a (hq ▸ ha), data := fun a _ ha => hw.data a (hq ▸ ha)
      internal := fun a _ _ => (hint a).le, unheld := fun a _ _ _ => hint a
      outer := fun _ _ _ _ => rfl, popped := by rw [hpopped]; exact fun _ => id
      added := by rw [hpopped]; exact fun _ => Or.inl, history := by simp [hhistory]
      returned := hreturned } hpc
    (h.mem.frame hhead hnext (fun a ha => hw.data a (hout a ha)) (fun a _ => hw.live a)
      (fun a _ => hw.gen a) (fun a ha => (hint a).le.trans (h.mem.internal a ha))
      (fun _ _ => rfl) hpopped hhistory)
    (by rw [hpopped, hdeleted]; exact h.log.congr hw.live hw.gen)
    { own_valid := ?_, held_valid := ?_, outside := by rw [howns]; exact hok.outside
      settled := ?_, popper := ?_, popped := by rw [hpopper, hdead, hpopped]; exact hok.popped
      fresh := by rw [hfresh, hpopped]; exact hok.fresh, data := hdata, cas := hcas, res := ?_ }
    (fun a ha => Or.inl (by rw [hq, ← howns, ha])) ?_ ?_
  · rw [hown]
    exact fun r hr => hw.valid (hok.own_valid r hr)
  · rw [hheld]
    exact fun r hr => hw.valid (hok.held_valid r hr)
  · intro r hr
    rw [hint]
    rw [hfresh, hdead] at hr
    exact hok.settled r hr
  · intro r hr
    rw [hint, hcount]
    rw [hpopper] at hr
    exact hok.popper r hr
  · rw [hhistory, hres]
    exact hok.res
  · intro a ha
    refine Or.inl ⟨hlive a ha, ?_⟩
    rw [hint, hq, Pc.refs, Pc.refs, hheld]
  · intro a ha hmem hp hother
    rw [hint, hw.ref, hpopped]
    refine h.left a (hlive a ha) hmem fun j => ?_
    by_cases hj : j = i
    · rw [hj, hq, ← howns]
      exact hp
    · exact hother j hj

/-! ## `push` -/

/-- Nobody refers to a node that is not there. -/
theorem Inv.none_at_dead (h : Inv stack ext s) (hdead : (s.heap a).live = false) (j : ι) :
    (s.pc j).owns ≠ some a ∧ (s.pc j).held.map Ref.addr ≠ some a := by
  constructor <;> intro hj <;> obtain ⟨r, hr, rfl⟩ := Option.map_eq_some_iff.mp hj
  · rw [((h.threads j).own_valid r hr).1] at hdead
    cases hdead
  · rw [((h.threads j).held_valid r hr).1] at hdead
    cases hdead

/-- `new node`, at an address that is not in use. -/
theorem Inv.new_node (h : Inv stack ext s) {v : V} (hq : s.pc i = .idle)
    (hdead : (s.heap a).live = false) :
    Inv stack (Function.update ext a 1)
      { s.goto i (.push_next v (ref (alloc s.heap a ⟨some v, 0, ⟨0, none⟩⟩) a)) with
        heap := alloc s.heap a ⟨some v, 0, ⟨0, none⟩⟩ } := by
  have hok := h.threads i
  rw [hq] at hok
  have hne : ∀ {b}, (s.heap b).live = true → b ≠ a := fun hb heq => by
    rw [heq, hdead] at hb
    cases hb
  have heq : ∀ {b}, (s.heap b).live = true → alloc s.heap a ⟨some v, 0, ⟨0, none⟩⟩ b = s.heap b :=
    fun hb => alloc_of_ne (hne hb)
  have hvalid : ∀ r, Valid s.heap r → Valid (alloc s.heap a ⟨some v, 0, ⟨0, none⟩⟩) r :=
    fun r hr => hr.of_eq (heq hr.1)
  have hlive : ∀ b, b ≠ a → (alloc s.heap a ⟨some v, 0, ⟨0, none⟩⟩ b).live = true →
      (s.heap b).live = true := fun b hb hl => by rwa [alloc_of_ne hb] at hl
  have hext : ∀ {b}, b ≠ a → Function.update ext a 1 b = ext b :=
    fun hb => Function.update_of_ne hb ..
  have hint : (alloc s.heap a ⟨some v, 0, ⟨0, none⟩⟩ a).val.internal_count = 0 := by
    rw [alloc_self]
  have hdata : (alloc s.heap a ⟨some v, 0, ⟨0, none⟩⟩ a).val.data = some v := by rw [alloc_self]
  refine h.of_frame (p := .push_next v _) (i := i)
    { entered := fun _ => Or.inl, valid := fun r hr => Or.inl (hvalid r hr)
      next := fun b hb _ => congrArg (fun c => c.val.next) (heq hb)
      data := fun b hb _ => congrArg (fun c => c.val.data) (heq hb)
      internal := fun b hb _ => (congrArg (fun c => c.val.internal_count) (heq hb)).le
      unheld := fun b hb _ _ => congrArg (fun c => c.val.internal_count) (heq hb)
      outer := fun b hb _ _ => hext (hne hb), popped := fun _ => id, added := fun _ => Or.inl
      history := fun _ _ => rfl, returned := fun _ _ => rfl } rfl ?_ ?_ ?_ ?_ ?_ ?_
  · exact h.mem.congr (fun b hb => heq (h.mem.live b hb)) (fun b hb => hext (hne (h.mem.live b hb)))
      rfl rfl rfl
  · exact h.log.alloc hdead
  · refine { own_valid := ?_, held_valid := by rintro r ⟨⟩, outside := ?_, settled := ?_
             popper := by rintro r ⟨⟩, popped := by rintro r (⟨⟨⟩⟩ | ⟨⟨⟩⟩), fresh := ?_, data := ?_
             cas := by rintro c r n ⟨⟩, res := hok.res }
    · intro r hr
      obtain rfl := Option.some.inj hr
      exact valid_ref (congrArg Cell.live alloc_self)
    · intro b hb hmem
      obtain rfl := Option.some.inj hb
      exact hne (h.mem.live _ hmem) rfl
    · rintro r (hr | hr)
      · obtain rfl := Option.some.inj hr
        exact ⟨Function.update_self .., hint⟩
      · cases hr
    · intro r hr
      obtain rfl := Option.some.inj hr
      exact h.log.new
    · rintro v' r (hr | hr) <;> cases hr
      exact hdata
  · intro b hb
    obtain rfl := Option.some.inj hb
    exact Or.inr (Or.inr fun j => (h.none_at_dead hdead j).1)
  · intro b hb
    by_cases hba : b = a
    · subst hba
      refine Or.inr ⟨?_, fun j => ?_⟩
      · rw [Function.update_self]
        exact congrArg (1 + ·) hint
      · by_cases hj : j = i
        · subst hj
          change Pc.refs (Function.update s.pc j _ j) b = 0
          rw [Function.update_self]
          exact Pc.refs_of_ne (by rintro ⟨⟩)
        · change Pc.refs (Function.update s.pc i _ j) b = 0
          rw [Function.update_of_ne hj]
          exact Pc.refs_of_ne (h.none_at_dead hdead j).2
    · have hl := hlive b hba hb
      refine Or.inl ⟨hl, ?_⟩
      rw [hext hba, hq]
      change _ + (alloc s.heap a _ b).val.internal_count + _ = _
      rw [heq hl]
      rfl
  · intro b hb hmem hp hother
    have hba : b ≠ a := fun heq => hp (congrArg some heq.symm)
    have hl := hlive b hba hb
    rw [hext hba]
    change _ ∧ 0 < (alloc s.heap a _ b).val.internal_count ∧ Ref.mk b (alloc s.heap a _ b).gen ∈ _
    rw [heq hl]
    refine h.left b hl hmem fun j => ?_
    by_cases hj : j = i
    · rw [hj, hq]
      rintro ⟨⟩
    · exact hother j hj

/-- A push makes its node point to the head. -/
theorem Inv.push_store (h : Inv stack ext s) {v : V} (hq : s.pc i = q)
    (hp : q = .push_next v r ∨ q = .push_cas v r) :
    Inv stack ext { s.goto i (.push_cas v r) with heap := s.setNext r.addr s.head } := by
  have hfresh : q.fresh = some r := by rcases hp with rfl | rfl <;> rfl
  have hdata := (h.threads i).data v r (hq ▸ hp)
  have hw : Writes q s.heap (s.setNext r.addr s.head) :=
    Writes.store rfl (Or.inl (by rw [hfresh]; rfl)) (Or.inr rfl)
  refine h.quiet (p := .push_cas v r) hq hw rfl (Or.inl rfl) rfl rfl rfl (fun _ _ => rfl)
    hfresh.symm ?_ ?_ ?_ ?_ ?_ (by rintro c r' n ⟨⟩) ?_
  · rcases hp with rfl | rfl <;> rfl
  · rcases hp with rfl | rfl <;> rfl
  · rcases hp with rfl | rfl <;> rfl
  · rcases hp with rfl | rfl <;> rfl
  · rintro v' r' (hr | hr) <;> cases hr
    change (store s.heap r.addr _ r.addr).val.data = some v
    rw [store_self]
    exact hdata
  · rcases hp with rfl | rfl <;> rfl

/-- A push links its node. -/
theorem Inv.push_cas (h : Inv stack ext s) {v : V} (hq : s.pc i = .push_cas v r)
    (hhead : s.head = s.next r.addr) :
    Inv (r.addr :: stack) ext { s.goto i .idle with
      head := ⟨1, some r.addr⟩
      history := s.history ++ [.push v] } := by
  have hok := h.threads i
  rw [hq] at hok
  obtain ⟨hext, hint⟩ := hok.settled r (Or.inl rfl)
  have hout := hok.outside r.addr rfl
  have hvalid := hok.own_valid r rfl
  refine h.of_frame (p := .idle) (i := i)
    { entered := ?_, valid := fun r hr => Or.inl hr, next := fun _ _ _ => rfl
      data := fun _ _ _ => rfl, internal := fun _ _ _ => le_rfl, unheld := fun _ _ _ _ => rfl
      outer := fun _ _ _ _ => rfl, popped := fun _ => id, added := fun _ => Or.inl
      history := by simp [poppedBy], returned := fun _ _ => rfl } rfl
    { path := ⟨rfl, ?_⟩, nodup := List.nodup_cons.mpr ⟨hout, h.mem.nodup⟩
      live := ?_, head_count := ?_, next_count := ?_, internal := ?_, not_popped := ?_
      lifo := ?_ }
    h.log
    { own_valid := by rintro r ⟨⟩, held_valid := by rintro r ⟨⟩, outside := by rintro a ⟨⟩
      settled := by rintro r (⟨⟨⟩⟩ | ⟨⟨⟩⟩), popper := by rintro r ⟨⟩
      popped := by rintro r (⟨⟨⟩⟩ | ⟨⟨⟩⟩), fresh := by rintro r ⟨⟩
      data := by rintro v r (⟨⟨⟩⟩ | ⟨⟨⟩⟩), cas := by rintro c r n ⟨⟩, res := ?_ }
    (by rintro a ⟨⟩) ?_ ?_
  · intro a ha
    rcases List.mem_cons.mp ha with rfl | ha
    · exact Or.inr (by rw [hq]; rfl)
    · exact Or.inl ha
  · change Path (fun a => (s.next a).ptr) (s.next r.addr).ptr stack none
    rw [← hhead]
    exact h.mem.path
  · exact List.forall_mem_cons.mpr ⟨hvalid.1, h.mem.live⟩
  · intro a ha
    obtain rfl := Option.some.inj ha
    exact hext.symm
  · refine List.forall_mem_cons.mpr ⟨?_, h.mem.next_count⟩
    change ∀ b, (s.next r.addr).ptr = some b → (s.next r.addr).external_count = ext b
    rw [← hhead]
    exact h.mem.head_count
  · exact List.forall_mem_cons.mpr ⟨hint.le, h.mem.internal⟩
  · refine List.forall_mem_cons.mpr ⟨?_, h.mem.not_popped⟩
    change ref s.heap r.addr ∉ s.popped
    rw [hvalid.ref_eq]
    exact hok.fresh r rfl
  · obtain ⟨l, hl, hmap⟩ := h.mem.lifo
    refine ⟨v :: l, hl.push v, ?_⟩
    rw [List.map_cons, List.map_cons, ← hmap]
    exact congrArg (· :: _) (hok.data v r (Or.inr rfl))
  · refine Eq.trans ?_ hok.res
    simp [poppedBy]
  · exact fun a ha => Or.inl ⟨ha, by rw [hq]; rfl⟩
  · intro a ha hmem _ hother
    rw [List.mem_cons, not_or] at hmem
    refine h.left a ha hmem.2 fun j => ?_
    by_cases hj : j = i
    · rw [hj, hq]
      exact fun heq => hmem.1 (Option.some.inj heq).symm
    · exact hother j hj

/-! ## `pop` -/

/-- `increase_head_count`, of a stack that is not empty. -/
theorem Inv.inc (h : Inv stack ext s) {c : Int} (hq : s.pc i = .inc ⟨c, some a⟩)
    (hhead : s.head = ⟨c, some a⟩) :
    Inv stack (Function.update ext a (c + 1))
      { s.goto i (.read_next (c + 1) (ref s.heap a)) with head := ⟨c + 1, some a⟩ } := by
  have hok := h.threads i
  rw [hq] at hok
  have hptr : s.head.ptr = some a := by rw [hhead]
  have hmem := h.mem.head_mem hptr
  have hlive := h.mem.live a hmem
  have hc : c = ext a := by
    have hcount := h.mem.head_count a hptr
    rwa [hhead] at hcount
  have hext : ∀ {b}, b ≠ a → Function.update ext a (c + 1) b = ext b :=
    fun hb => Function.update_of_ne hb ..
  refine h.of_frame (p := .read_next (c + 1) (ref s.heap a)) (i := i)
    { entered := fun _ => Or.inl, valid := fun r hr => Or.inl hr, next := fun _ _ _ => rfl
      data := fun _ _ _ => rfl, internal := fun _ _ _ => le_rfl, unheld := fun _ _ _ _ => rfl
      outer := fun b _ hb _ => hext fun heq => hb (heq ▸ hmem), popped := fun _ => id
      added := fun _ => Or.inl, history := fun _ _ => rfl, returned := fun _ _ => rfl } rfl
    { h.mem with path := hptr ▸ h.mem.path, head_count := ?_, next_count := ?_ }
    h.log
    { own_valid := by rintro r ⟨⟩, held_valid := ?_, outside := by rintro a ⟨⟩
      settled := by rintro r (⟨⟨⟩⟩ | ⟨⟨⟩⟩), popper := by rintro r ⟨⟩
      popped := by rintro r (⟨⟨⟩⟩ | ⟨⟨⟩⟩), fresh := by rintro r ⟨⟩
      data := by rintro v r (⟨⟨⟩⟩ | ⟨⟨⟩⟩), cas := by rintro c r n ⟨⟩, res := hok.res }
    (by rintro a ⟨⟩) ?_ ?_
  · intro b hb
    obtain rfl := Option.some.inj hb
    change c + 1 = Function.update ext a (c + 1) a
    rw [Function.update_self]
  · intro b hb d hd
    have hda : d ≠ a := fun heq => by
      have hpath := h.mem.path
      rw [hptr] at hpath
      exact hpath.next_ne_head h.mem.nodup hb (heq ▸ hd)
    exact (h.mem.next_count b hb d hd).trans (hext hda).symm
  · intro r hr
    obtain rfl := Option.some.inj hr
    exact valid_ref hlive
  · intro b hb
    refine Or.inl ⟨hb, ?_⟩
    have hold : (s.pc i).refs b = 0 := by
      rw [hq]
      exact Pc.refs_of_ne (by rintro ⟨⟩)
    change _ + s.internal b + _ = _
    rw [hold]
    by_cases hba : b = a
    · have hnew : (Pc.read_next (c + 1) (ref s.heap a) : Pc A V).refs a = 1 := if_pos rfl
      rw [hba, Function.update_self, hnew, hc]
      omega
    · have hnew : (Pc.read_next (c + 1) (ref s.heap a) : Pc A V).refs b = 0 :=
        Pc.refs_of_ne fun heq => hba (Option.some.inj heq).symm
      rw [hext hba, hnew]
  · intro b hb hbs _ hother
    have hba : b ≠ a := fun heq => hbs (heq ▸ hmem)
    rw [hext hba]
    refine h.left b hb hbs fun j => ?_
    by_cases hj : j = i
    · rw [hj, hq]
      rintro ⟨⟩
    · exact hother j hj

/-- A pop takes the first node of the stack. -/
theorem Inv.pop_cas (h : Inv stack ext s) {c : Int} {n : CountedNodePtr A}
    (hq : s.pc i = .cas_head c r n) (hhead : s.head = ⟨c, some r.addr⟩) :
    ∃ stack', Inv stack' ext { s.goto i (.swap c r) with
      head := n
      popped := r :: s.popped
      history := s.history ++ [.pop i (s.data r.addr)] } := by
  have hok := h.threads i
  rw [hq] at hok
  have hptr : s.head.ptr = some r.addr := by rw [hhead]
  have hmem := h.mem.head_mem hptr
  have hvalid := hok.held_valid r rfl
  have hc : c = ext r.addr := by
    have hcount := h.mem.head_count r.addr hptr
    rwa [hhead] at hcount
  -- the node is the first of the stack, and what was read is its successor
  have hn : s.next r.addr = n := hok.cas c r n rfl
  obtain ⟨m, rfl, hpath⟩ := Path.eq_cons (hptr ▸ h.mem.path)
  have hnodup := List.nodup_cons.mp h.mem.nodup
  have hnot : r ∉ s.popped := by
    have hfirst := h.mem.not_popped r.addr List.mem_cons_self
    rwa [hvalid.ref_eq] at hfirst
  obtain ⟨l, hlifo, hdata⟩ := h.mem.lifo
  obtain ⟨v, l, rfl, hv, hrest⟩ : ∃ v l', l = v :: l' ∧ s.data r.addr = some v ∧
      m.map s.data = l'.map some := by
    cases l with
    | nil => exact absurd hdata (by rintro ⟨⟩)
    | cons v l' => exact ⟨v, l', rfl, (List.cons.inj hdata).1, (List.cons.inj hdata).2⟩
  rw [hv]
  refine ⟨m, h.of_frame (p := .swap c r) (i := i)
    { entered := fun a ha => Or.inl (List.mem_cons_of_mem _ ha), valid := fun r hr => Or.inl hr
      next := fun _ _ _ => rfl, data := fun _ _ _ => rfl, internal := fun _ _ _ => le_rfl
      unheld := fun _ _ _ _ => rfl, outer := fun _ _ _ _ => rfl
      popped := fun _ => List.mem_cons_of_mem _, added := ?_, history := ?_
      returned := fun _ _ => rfl } rfl
    { path := ?_, nodup := hnodup.2, live := fun a ha => h.mem.live a (List.mem_cons_of_mem _ ha)
      head_count := ?_, next_count := fun a ha => h.mem.next_count a (List.mem_cons_of_mem _ ha)
      internal := fun a ha => h.mem.internal a (List.mem_cons_of_mem _ ha), not_popped := ?_
      lifo := ⟨l, hlifo.pop i, hrest⟩ }
    (h.log.retire hvalid hnot)
    { own_valid := ?_, held_valid := ?_, outside := ?_, settled := by rintro r (⟨⟨⟩⟩ | ⟨⟨⟩⟩)
      popper := ?_, popped := ?_, fresh := by rintro r ⟨⟩
      data := by rintro v r (⟨⟨⟩⟩ | ⟨⟨⟩⟩), cas := by rintro c r n ⟨⟩, res := ?_ }
    ?_ ?_ ?_⟩
  · intro r' hr'
    rcases List.mem_cons.mp hr' with rfl | hr'
    · exact Or.inr List.mem_cons_self
    · exact Or.inl hr'
  · intro j hj
    change poppedBy j (s.history ++ [Ev.pop i (some v)]) = _
    rw [poppedBy_pop, if_neg (Ne.symm hj), List.append_nil]
  · rw [← hn]
    exact hpath
  · intro a ha
    rw [← hn] at ha ⊢
    exact h.mem.next_count r.addr List.mem_cons_self a ha
  · intro a ha hmem'
    rcases List.mem_cons.mp hmem' with heq | hmem'
    · have haddr : a = r.addr := congrArg Ref.addr heq
      exact hnodup.1 (haddr ▸ ha)
    · exact h.mem.not_popped a (List.mem_cons_of_mem _ ha) hmem'
  · intro r' hr'
    obtain rfl := Option.some.inj hr'
    exact hvalid
  · intro r' hr'
    obtain rfl := Option.some.inj hr'
    exact hvalid
  · intro a ha
    obtain rfl := Option.some.inj ha
    exact hnodup.1
  · intro r' hr'
    obtain rfl := Option.some.inj hr'
    exact ⟨hc.symm, h.mem.internal r.addr List.mem_cons_self⟩
  · rintro r' (hr' | hr')
    · obtain rfl := Option.some.inj hr'
      exact List.mem_cons_self
    · cases hr'
  · change poppedBy i (s.history ++ [Ev.pop i (some v)]) = s.returned i ++ (s.data r.addr).toList
    rw [poppedBy_pop, if_pos rfl, hv, hok.res]
    simp [Pc.res]
  · intro a ha
    obtain rfl := Option.some.inj ha
    exact Or.inr (Or.inl List.mem_cons_self)
  · intro a ha
    refine Or.inl ⟨ha, ?_⟩
    rw [hq]
    rfl
  · intro a ha hmem' hp hother
    have hne : a ≠ r.addr := fun heq => hp (congrArg some heq.symm)
    have hleft := h.left a ha (fun hs => (List.mem_cons.mp hs).elim hne hmem') fun j => by
      by_cases hj : j = i
      · rw [hj, hq]
        rintro ⟨⟩
      · exact hother j hj
    exact ⟨hleft.1, hleft.2.1, List.mem_cons_of_mem _ hleft.2.2⟩

omit [DecidableEq ι] [Fintype ι] in
theorem setInternal_self {n : Int} : s.setInternal a n a =
    { s.heap a with val := { (s.heap a).val with internal_count := n } } := store_self

omit [DecidableEq ι] [Fintype ι] in
theorem setInternal_of_ne {n : Int} {b : A} (hb : b ≠ a) : s.setInternal a n b = s.heap b :=
  store_of_ne hb

omit [DecidableEq ι] [Fintype ι] in
/-- Only the count is written. -/
theorem setInternal_same {n : Int} (b : A) :
    (s.setInternal a n b).live = (s.heap b).live ∧ (s.setInternal a n b).gen = (s.heap b).gen ∧
      (s.setInternal a n b).val.next = s.next b ∧ (s.setInternal a n b).val.data = s.data b := by
  by_cases hb : b = a
  · rw [hb, setInternal_self]
    exact ⟨rfl, rfl, rfl, rfl⟩
  · rw [setInternal_of_ne hb]
    exact ⟨rfl, rfl, rfl, rfl⟩

omit [DecidableEq ι] [Fintype ι] in
/-- The reference that is given up is taken off the counts. -/
theorem release_count {n e : Int} (hqh : q.held = some r)
    (hcount : e + n + 1 = ext r.addr + s.internal r.addr) (b : A) :
    Function.update ext r.addr e b + (s.setInternal r.addr n b).val.internal_count + q.refs b =
      ext b + s.internal b := by
  by_cases hb : b = r.addr
  · rw [hb, setInternal_self, Function.update_self, Pc.refs_of_held hqh]
    exact hcount
  · have hnone : q.refs b = 0 := by
      refine Pc.refs_of_ne ?_
      rw [hqh]
      exact fun heq => hb (Option.some.inj heq).symm
    rw [setInternal_of_ne hb, Function.update_of_ne hb, hnone, Int.add_zero]
    rfl

/-- The rule for a thread that gives up its reference to `r`, whose internal count becomes `n`
and whose external count `e`. -/
theorem Inv.release (h : Inv stack ext s) {n e : Int} {ret : ι → List V} (hq : s.pc i = q)
    (hqf : q.fresh = none) (hqd : q.dead = none) (hqh : q.held = some r)
    (hcount : e + n + 1 = ext r.addr + s.internal r.addr)
    (hold : q.popper = some r ∨ q.popper = none ∧ e = ext r.addr ∧ n ≤ s.internal r.addr)
    (hend : n < 0 ∧ (r.addr ∈ stack ∨ ∃ j, j ≠ i ∧ (s.pc j).owns = some r.addr) ∨
      0 ≤ n ∧ e = 1 ∧ r ∈ s.popped ∧ r.addr ∉ stack ∧
        ∀ j, j ≠ i → (s.pc j).owns ≠ some r.addr)
    (hpf : p.fresh = none) (hpp : p.popper = none) (hph : p.held = none)
    (hpd : p.dead = none ∧ n ≠ 0 ∨ p.dead = some r ∧ n = 0)
    (hret : ∀ j, j ≠ i → ret j = s.returned j)
    (hres : ∀ data, ret i ++ (p.res data).toList = s.returned i ++ (q.res s.data).toList) :
    Inv stack (Function.update ext r.addr e)
      { s.goto i p with heap := s.setInternal r.addr n, returned := ret } := by
  have hok := h.threads i
  rw [hq] at hok
  have hvalid := hok.held_valid r hqh
  have hqown : q.owns = q.popper.map Ref.addr := by
    rw [Pc.owns, Pc.own, hqf, hqd, Option.none_or, Option.or_none]
  have hpown : p.owns = p.dead.map Ref.addr := by
    rw [Pc.owns, Pc.own, hpf, hpp, Option.none_or, Option.none_or]
  have hsame := fun b => setInternal_same (s := s) (a := r.addr) (n := n) b
  -- only the popper of the node has its external count
  have hext : ∀ a, q.owns ≠ some a → Function.update ext r.addr e a = ext a := by
    intro a ha
    by_cases har : a = r.addr
    · rcases hold with hpop | ⟨-, he, -⟩
      · exact absurd (by rw [hqown, hpop, har]; rfl) ha
      · rw [har, Function.update_self, he]
    · exact Function.update_of_ne har ..
  -- whoever makes the count 0 is the last one that knows the node
  have hlast : ∀ r', p.dead = some r' → r' = r ∧ n = 0 ∧ e = 1 ∧ r ∈ s.popped ∧ r.addr ∉ stack ∧
      ∀ j, j ≠ i → (s.pc j).owns ≠ some r.addr := by
    intro r' hr'
    rcases hpd with ⟨hnone, -⟩ | ⟨hr, hn⟩
    · rw [hnone] at hr'
      cases hr'
    · obtain ⟨-, he, hrest⟩ := hend.resolve_left fun hlt => absurd hlt.1 (by omega)
      exact ⟨Option.some.inj (hr'.symm.trans hr), hn, he, hrest⟩
  have hfree : q.owns = some r.addr ∨ ∀ a, q.owns ≠ some a := by
    rw [hqown]
    rcases hold with hpop | ⟨hnone, -⟩
    · exact Or.inl (by rw [hpop]; rfl)
    · exact Or.inr (by rw [hnone]; rintro a ⟨⟩)
  refine h.of_frame (p := p) (i := i)
    { entered := fun _ => Or.inl
      valid := fun r' hr' => Or.inl (hr'.congr (hsame _).1 (hsame _).2.1)
      next := fun b _ _ => (hsame b).2.2.1, data := fun b _ _ => (hsame b).2.2.2
      internal := ?_, unheld := ?_, outer := fun b _ _ hb => hext b (hq ▸ hb)
      popped := fun _ => id, added := fun _ => Or.inl, history := fun _ _ => rfl
      returned := hret } rfl
    (h.mem.frame (.inl rfl) (fun b _ => (hsame b).2.2.1) (fun b _ => (hsame b).2.2.2)
      (fun b _ => (hsame b).1) (fun b _ => (hsame b).2.1) ?_
      (fun b hb => hext b fun hown => hok.outside b hown hb) rfl rfl)
    (h.log.congr (fun b => (hsame b).1) fun b => (hsame b).2.1)
    { own_valid := ?_, held_valid := by rw [hph]; rintro r' ⟨⟩, outside := ?_, settled := ?_
      popper := by rw [hpp]; rintro r' ⟨⟩, popped := ?_, fresh := by rw [hpf]; rintro r' ⟨⟩
      data := ?_, cas := ?_, res := (hok.res.trans (hres _).symm) }
    ?_ ?_ ?_
  · intro b _ hb
    by_cases hbr : b = r.addr
    · rcases hold with hpop | ⟨-, -, hn⟩
      · exact absurd (by rw [hq, hqown, hpop, hbr]; rfl) hb
      · change (s.setInternal r.addr n b).val.internal_count ≤ _
        rw [hbr, setInternal_self]
        exact hn
    · change (s.setInternal r.addr n b).val.internal_count ≤ _
      rw [setInternal_of_ne hbr]
      rfl
  · intro b _ _ hb
    have hbr : b ≠ r.addr := fun heq => hb (by rw [hq, hqh, heq]; rfl)
    change (s.setInternal r.addr n b).val.internal_count = _
    rw [setInternal_of_ne hbr]
    rfl
  · intro b hb
    change (s.setInternal r.addr n b).val.internal_count ≤ 0
    by_cases hbr : b = r.addr
    · rw [hbr, setInternal_self]
      rcases hend with ⟨hlt, -⟩ | ⟨-, -, -, hout, -⟩
      · exact hlt.le
      · exact absurd (hbr ▸ hb) hout
    · rw [setInternal_of_ne hbr]
      exact h.mem.internal b hb
  · intro r' hr'
    rw [Pc.own, hpf, hpp, Option.none_or, Option.none_or] at hr'
    rw [(hlast r' hr').1]
    exact hvalid.congr (hsame _).1 (hsame _).2.1
  · intro a ha
    rw [hpown] at ha
    obtain ⟨r', hr', rfl⟩ := Option.map_eq_some_iff.mp ha
    obtain ⟨rfl, -, -, -, hout, -⟩ := hlast r' hr'
    exact hout
  · rintro r' (hr' | hr')
    · rw [hpf] at hr'
      cases hr'
    · obtain ⟨rfl, hn, he, -⟩ := hlast r' hr'
      refine ⟨by rw [Function.update_self, he], ?_⟩
      change (s.setInternal r'.addr n r'.addr).val.internal_count = 0
      rw [setInternal_self]
      exact hn
  · rintro r' (hr' | hr')
    · rw [hpp] at hr'
      cases hr'
    · obtain ⟨rfl, -, -, hpopped, -⟩ := hlast r' hr'
      exact hpopped
  · rintro v r' (rfl | rfl)
    · cases hpf
    · cases hpf
  · rintro c r' m rfl
    cases hph
  · intro a ha
    rw [hpown] at ha
    obtain ⟨r', hr', rfl⟩ := Option.map_eq_some_iff.mp ha
    obtain ⟨rfl, -, -, -, -, hother⟩ := hlast r' hr'
    rcases hfree with hown | hnone
    · exact Or.inl (hq ▸ hown)
    · refine Or.inr (Or.inr fun j => ?_)
      by_cases hj : j = i
      · rw [hj, hq]
        exact hnone _
      · exact hother j hj
  · intro a ha
    refine Or.inl ⟨(hsame a).1.symm.trans ha, ?_⟩
    have hp : p.refs a = 0 := Pc.refs_of_ne (by rw [hph]; rintro ⟨⟩)
    rw [hp, hq, Int.add_zero]
    exact release_count hqh hcount a
  · intro a ha hmem hp hother
    change _ ∧ 0 < (s.setInternal r.addr n a).val.internal_count ∧
      Ref.mk a (s.setInternal r.addr n a).gen ∈ s.popped
    rw [(hsame a).2.1]
    by_cases har : a = r.addr
    · subst har
      rcases hend with ⟨-, hin⟩ | ⟨hge, he, hpopped, -⟩
      · rcases hin with hin | ⟨j, hj, hown⟩
        · exact absurd hin hmem
        · exact absurd hown (hother j hj)
      · rcases hpd with ⟨-, hn⟩ | ⟨hr, -⟩
        · rw [Function.update_self, setInternal_self]
          refine ⟨he, lt_of_le_of_ne hge (Ne.symm hn), ?_⟩
          change ref s.heap r.addr ∈ s.popped
          rwa [hvalid.ref_eq]
        · exact absurd (by rw [hpown, hr]; rfl) hp
    · rw [Function.update_of_ne har, setInternal_of_ne har]
      refine h.left a ((hsame a).1.symm.trans ha) hmem fun j => ?_
      by_cases hj : j = i
      · rw [hj, hq]
        rcases hfree with hown | hnone
        · rw [hown]
          exact fun heq => har (Option.some.inj heq).symm
        · exact hnone a
      · exact hother j hj

/-- The popper folds the external count into the internal one. -/
theorem Inv.fetch_add (h : Inv stack ext s) {c : Int} {v : Option V} {ret : ι → List V}
    (hq : s.pc i = .fetch_add c r v)
    (hp : p = .delete_old r v ∧ s.internal r.addr + (c - 2) = 0 ∧ ret = s.returned ∨
      p = .idle ∧ s.internal r.addr + (c - 2) ≠ 0 ∧
        ret = Function.update s.returned i (s.returned i ++ v.toList)) :
    Inv stack (Function.update ext r.addr 1)
      { s.goto i p with
        heap := s.setInternal r.addr (s.internal r.addr + (c - 2)), returned := ret } := by
  have hok := h.threads i
  rw [hq] at hok
  obtain ⟨hext, -⟩ := hok.popper r rfl
  have hheld : (s.pc i).held = some r := by rw [hq]; rfl
  have hcount := h.count r.addr (hok.held_valid r rfl).1
  have hpos := sum_refs_pos hheld
  change ext r.addr = c at hext
  refine h.release hq rfl rfl rfl ?_ (Or.inl rfl) (Or.inr ⟨?_, rfl, ?_, ?_, ?_⟩) ?_ ?_ ?_ ?_ ?_ ?_
  · omega
  · omega
  · exact hok.popped r (Or.inl rfl)
  · exact hok.outside r.addr rfl
  · exact fun j hj hown => hj (h.unique j i r.addr hown (by rw [hq]; rfl))
  · rcases hp with ⟨rfl, -⟩ | ⟨rfl, -⟩ <;> rfl
  · rcases hp with ⟨rfl, -⟩ | ⟨rfl, -⟩ <;> rfl
  · rcases hp with ⟨rfl, -⟩ | ⟨rfl, -⟩ <;> rfl
  · rcases hp with ⟨rfl, hzero, -⟩ | ⟨rfl, hne, -⟩
    · exact Or.inr ⟨rfl, hzero⟩
    · exact Or.inl ⟨rfl, hne⟩
  · rcases hp with ⟨-, -, rfl⟩ | ⟨-, -, rfl⟩
    · exact fun _ _ => rfl
    · exact fun j hj => Function.update_of_ne hj ..
  · rcases hp with ⟨rfl, -, rfl⟩ | ⟨rfl, -, rfl⟩
    · exact fun _ => rfl
    · intro _
      rw [Function.update_self]
      exact List.append_nil _

/-- A pop that has lost takes its reference off the internal count. -/
theorem Inv.fetch_sub (h : Inv stack ext s) {o : CountedNodePtr A}
    (hq : s.pc i = .fetch_sub r o)
    (hp : p = .delete_ptr r o ∧ s.internal r.addr = 1 ∨ p = .inc o ∧ s.internal r.addr ≠ 1) :
    Inv stack ext
      { s.goto i p with heap := s.setInternal r.addr (s.internal r.addr - 1) } := by
  have hok := h.threads i
  rw [hq] at hok
  have hvalid := hok.held_valid r rfl
  have hheld : (s.pc i).held = some r := by rw [hq]; rfl
  rw [← Function.update_eq_self r.addr ext]
  refine h.release hq rfl rfl rfl (by omega) (Or.inr ⟨rfl, rfl, by omega⟩) ?_ ?_ ?_ ?_ ?_
    (fun _ _ => rfl) ?_
  · -- the node is in the stack, or with its popper, or was left
    by_cases hmem : r.addr ∈ stack
    · have hle := h.mem.internal r.addr hmem
      exact Or.inl ⟨by omega, Or.inl hmem⟩
    · by_cases hown : ∃ j, (s.pc j).owns = some r.addr
      · obtain ⟨j, hj⟩ := hown
        obtain ⟨r', hpop, haddr⟩ := h.held_own hheld hj
        have hle := ((h.threads j).popper r' hpop).2
        rw [haddr] at hle
        refine Or.inl ⟨by omega, Or.inr ⟨j, ?_, hj⟩⟩
        rintro rfl
        rw [hq] at hpop
        cases hpop
      · have hnone : ∀ j, (s.pc j).owns ≠ some r.addr := fun j hj => hown ⟨j, hj⟩
        obtain ⟨hext, hpos, hpopped⟩ := h.left r.addr hvalid.1 hmem hnone
        rw [hvalid.ref_eq] at hpopped
        exact Or.inr ⟨by omega, hext, hpopped, hmem, fun j _ => hnone j⟩
  · rcases hp with ⟨rfl, -⟩ | ⟨rfl, -⟩ <;> rfl
  · rcases hp with ⟨rfl, -⟩ | ⟨rfl, -⟩ <;> rfl
  · rcases hp with ⟨rfl, -⟩ | ⟨rfl, -⟩ <;> rfl
  · rcases hp with ⟨rfl, hone⟩ | ⟨rfl, hne⟩
    · exact Or.inr ⟨rfl, by omega⟩
    · exact Or.inl ⟨rfl, by omega⟩
  · rcases hp with ⟨rfl, -⟩ | ⟨rfl, -⟩ <;> exact fun _ => rfl

/-- `delete`, by the thread that made the count 0. -/
theorem Inv.delete (h : Inv stack ext s) {ret : ι → List V} (hq : s.pc i = q)
    (hqd : q.dead = some r) (hpo : p.own = none) (hph : p.held = none)
    (hret : ∀ j, j ≠ i → ret j = s.returned j)
    (hres : ∀ data, ret i ++ (p.res data).toList = s.returned i ++ (q.res s.data).toList) :
    Inv stack ext
      { s.goto i p with
        heap := free s.heap r.addr, deleted := r :: s.deleted, returned := ret } := by
  have hok := h.threads i
  rw [hq] at hok
  have hown : q.own = some r := Pc.own_of_dead hqd
  have hvalid := hok.own_valid r hown
  have hqo : q.owns = some r.addr := Pc.owns_of_own hown
  have hout := hok.outside r.addr hqo
  have hqh : q.held = none := by cases q <;> cases hqd <;> rfl
  have hpowns : ∀ a, p.owns ≠ some a := by
    rw [Pc.owns, hpo]
    rintro a ⟨⟩
  have hpown : ∀ r', p.own ≠ some r' := by
    rw [hpo]
    rintro r' ⟨⟩
  have hsame : ∀ a, (free s.heap r.addr a).val = (s.heap a).val ∧
      (free s.heap r.addr a).gen = (s.heap a).gen := by
    intro a
    by_cases ha : a = r.addr
    · rw [ha, free_self]
      exact ⟨rfl, rfl⟩
    · rw [free_of_ne ha]
      exact ⟨rfl, rfl⟩
  have hlive : ∀ {a}, (free s.heap r.addr a).live = true → a ≠ r.addr ∧ (s.heap a).live = true := by
    intro a ha
    by_cases har : a = r.addr
    · rw [har, free_self] at ha
      cases ha
    · rw [free_of_ne har] at ha
      exact ⟨har, ha⟩
  refine h.of_frame (p := p) (i := i)
    { entered := fun _ => Or.inl, valid := ?_
      next := fun b _ _ => congrArg Node.next (hsame b).1
      data := fun b _ _ => congrArg Node.data (hsame b).1
      internal := fun b _ _ => (congrArg Node.internal_count (hsame b).1).le
      unheld := fun b _ _ _ => congrArg Node.internal_count (hsame b).1
      outer := fun _ _ _ _ => rfl, popped := fun _ => id, added := fun _ => Or.inl
      history := fun _ _ => rfl, returned := hret } rfl
    (h.mem.congr (fun b hb => free_of_ne fun heq => hout (heq ▸ hb)) (fun _ _ => rfl) rfl rfl rfl)
    (h.log.free hvalid (hok.popped r (Or.inr hqd)))
    { own_valid := by rw [hpo]; rintro r' ⟨⟩, held_valid := by rw [hph]; rintro r' ⟨⟩
      outside := fun a ha => absurd ha (hpowns a), settled := ?_, popper := ?_, popped := ?_
      fresh := ?_, data := ?_, cas := ?_, res := hok.res.trans (hres _).symm }
    (fun a ha => absurd ha (hpowns a)) ?_ ?_
  · intro r' hr'
    by_cases heq : r' = r
    · exact Or.inr (by rw [hq, hqd, heq])
    · exact Or.inl (hvalid.free hr' heq)
  · exact fun r' hr' => absurd (hr'.elim Pc.own_of_fresh Pc.own_of_dead) (hpown r')
  · exact fun r' hr' => absurd (Pc.own_of_popper hr') (hpown r')
  · exact fun r' hr' => absurd (hr'.elim Pc.own_of_popper Pc.own_of_dead) (hpown r')
  · exact fun r' hr' => absurd (Pc.own_of_fresh hr') (hpown r')
  · rintro v r' (rfl | rfl)
    · exact absurd rfl (hpown r')
    · exact absurd rfl (hpown r')
  · rintro c r' m rfl
    cases hph
  · intro a ha
    refine Or.inl ⟨(hlive ha).2, ?_⟩
    have hp : p.refs a = 0 := Pc.refs_of_ne (by rw [hph]; rintro ⟨⟩)
    have hold : q.refs a = 0 := Pc.refs_of_ne (by rw [hqh]; rintro ⟨⟩)
    change _ + (free s.heap r.addr a).val.internal_count + _ = _
    rw [(hsame a).1, hq, hp, hold]
    rfl
  · intro a ha hmem _ hother
    obtain ⟨hne, hl⟩ := hlive ha
    change _ ∧ 0 < (free s.heap r.addr a).val.internal_count ∧
      Ref.mk a (free s.heap r.addr a).gen ∈ s.popped
    rw [free_of_ne hne]
    refine h.left a hl hmem fun j => ?_
    by_cases hj : j = i
    · rw [hj, hq, hqo]
      exact fun heq => hne (Option.some.inj heq).symm
    · exact hother j hj

/-! ## The other steps of `pop` -/

/-- A thread goes on, and has the same node before and after, none of its own. -/
theorem Inv.move (h : Inv stack ext s) (hq : s.pc i = q) (hqo : q.own = none) (hpo : p.own = none)
    (hheld : p.held = q.held) (hcas : ∀ c r n, p = .cas_head c r n → s.next r.addr = n) :
    Inv stack ext (s.goto i p) := by
  obtain ⟨hqx, hqd⟩ := Option.or_eq_none_iff.mp hqo
  obtain ⟨hpx, hpd⟩ := Option.or_eq_none_iff.mp hpo
  obtain ⟨hqf, hqp⟩ := Option.or_eq_none_iff.mp hqx
  obtain ⟨hpf, hpp⟩ := Option.or_eq_none_iff.mp hpx
  refine h.quiet hq (Writes.refl q s.heap) rfl (Or.inl rfl) rfl rfl rfl (fun _ _ => rfl)
    (hpf.trans hqf.symm) (hpp.trans hqp.symm) (hpd.trans hqd.symm) ?_ hheld ?_ hcas ?_
  · rw [Pc.count_of_none hpp, Pc.count_of_none hqp]
  · rintro v r (rfl | rfl)
    · cases hpf
    · cases hpf
  · change _ ++ (p.res s.data).toList = _
    rw [Pc.res_of_none hpo, Pc.res_of_none hqo]
    rfl

/-- `increase_head_count`, of an empty stack. -/
theorem Inv.inc_null (h : Inv stack ext s) {c : Int} (hq : s.pc i = .inc ⟨c, none⟩)
    (hhead : s.head = ⟨c, none⟩) :
    Inv stack ext { s.ret i none with head := ⟨c + 1, none⟩ } := by
  refine h.quiet (p := .idle) hq (Writes.refl _ _) rfl (Or.inr ⟨by rw [hhead], rfl⟩) rfl rfl rfl ?_
    rfl rfl rfl rfl rfl (by rintro v r (⟨⟨⟩⟩ | ⟨⟨⟩⟩)) (by rintro c r n ⟨⟩) ?_
  · exact fun j hj => Function.update_of_ne hj ..
  · change Function.update s.returned i (s.returned i ++ []) i ++ [] = s.returned i ++ []
    rw [Function.update_self, List.append_nil]

/-- `res.swap(ptr->data)`. -/
theorem Inv.swap (h : Inv stack ext s) {c : Int} (hq : s.pc i = .swap c r) :
    Inv stack ext { s.goto i (.fetch_add c r (s.data r.addr)) with
      heap := store s.heap r.addr { (s.heap r.addr).val with data := none } } :=
  h.quiet (p := .fetch_add c r (s.data r.addr)) hq
    (Writes.store rfl (Or.inr rfl) (Or.inl rfl)) rfl (Or.inl rfl) rfl rfl rfl
    (fun _ _ => rfl) rfl rfl rfl rfl rfl (by rintro v r (⟨⟨⟩⟩ | ⟨⟨⟩⟩)) (by rintro c r n ⟨⟩) rfl

/-! ## The step lemma -/

/-- The next step of a thread keeps the invariant. -/
theorem inv_stepThread (h : Inv stack ext s) (hstep : s.stepThread i = some t) :
    ∃ stack ext, Inv stack ext t := by
  unfold Stack.stepThread at hstep
  cases hpc : s.pc i <;> simp only [hpc, reduceCtorEq, Option.some.injEq] at hstep
  case push_next v r =>
    subst hstep
    exact ⟨_, _, h.push_store hpc (Or.inl rfl)⟩
  case push_cas v r =>
    split at hstep <;> obtain rfl := Option.some.inj hstep
    case isTrue hhead => exact ⟨_, _, h.push_cas hpc hhead⟩
    case isFalse => exact ⟨_, _, h.push_store hpc (Or.inr rfl)⟩
  case load_head =>
    subst hstep
    exact ⟨_, _, h.move hpc rfl rfl rfl (by rintro c r n ⟨⟩)⟩
  case inc o =>
    obtain ⟨c, ptr⟩ := o
    split at hstep
    case isTrue hhead =>
      cases ptr <;> obtain rfl := Option.some.inj hstep
      case none => exact ⟨_, _, h.inc_null hpc hhead⟩
      case some a => exact ⟨_, _, h.inc hpc hhead⟩
    case isFalse =>
      obtain rfl := Option.some.inj hstep
      exact ⟨_, _, h.move hpc rfl rfl rfl (by rintro c r n ⟨⟩)⟩
  case read_next c r =>
    subst hstep
    exact ⟨_, _, h.move hpc rfl rfl rfl (by rintro c r n ⟨⟩; rfl)⟩
  case cas_head c r n =>
    split at hstep <;> obtain rfl := Option.some.inj hstep
    case isTrue hhead =>
      obtain ⟨stack', h'⟩ := h.pop_cas hpc hhead
      exact ⟨_, _, h'⟩
    case isFalse => exact ⟨_, _, h.move hpc rfl rfl rfl (by rintro c r n ⟨⟩)⟩
  case swap c r =>
    subst hstep
    exact ⟨_, _, h.swap hpc⟩
  case fetch_add c r v =>
    subst hstep
    split
    case isTrue hzero => exact ⟨_, _, h.fetch_add hpc (Or.inl ⟨rfl, by omega, rfl⟩)⟩
    case isFalse hne => exact ⟨_, _, h.fetch_add hpc (Or.inr ⟨rfl, by omega, rfl⟩)⟩
  case delete_old r v =>
    subst hstep
    refine ⟨_, _, h.delete (p := .idle) hpc rfl rfl rfl (fun j hj => ?_) fun _ => ?_⟩
    · exact Function.update_of_ne hj ..
    · change Function.update s.returned i (s.returned i ++ v.toList) i ++ [] = _
      rw [Function.update_self, List.append_nil]
      rfl
  case fetch_sub r o =>
    subst hstep
    split
    case isTrue hone => exact ⟨_, _, h.fetch_sub hpc (Or.inl ⟨rfl, hone⟩)⟩
    case isFalse hne => exact ⟨_, _, h.fetch_sub hpc (Or.inr ⟨rfl, hne⟩)⟩
  case delete_ptr r o =>
    subst hstep
    exact ⟨_, _, h.delete (p := .inc o) hpc rfl rfl rfl (fun _ _ => rfl) fun _ => rfl⟩

/-- **The step lemma.** -/
theorem inv_step {kind : Kind} (s : Stack ι A V) (a : Action ι A V) (t : Stack ι A V)
    (h : ∃ stack ext, Inv stack ext s) (hstep : (system kind ι A V).step s a = some t) :
    ∃ stack ext, Inv stack ext t := by
  obtain ⟨stack, ext, h⟩ := h
  change s.step kind a = some t at hstep
  cases a with
  | push i v a =>
      unfold Stack.step at hstep
      cases hpc : s.pc i <;> simp only [hpc, reduceCtorEq] at hstep
      by_cases hlive : (s.heap a).live = true
      · rw [if_pos hlive] at hstep
        exact absurd hstep (by rintro ⟨⟩)
      · rw [if_neg hlive, Option.some.injEq] at hstep
        subst hstep
        exact ⟨_, _, h.new_node hpc (Bool.eq_false_iff.mpr hlive)⟩
  | pop i =>
      unfold Stack.step at hstep
      cases hpc : s.pc i <;> simp only [hpc, reduceCtorEq, Option.some.injEq] at hstep
      subst hstep
      exact ⟨_, _, h.move hpc rfl rfl rfl (by rintro c r n ⟨⟩)⟩
  | step i => exact inv_stepThread h hstep
  | spurious i =>
      unfold Stack.step at hstep
      cases hpc : s.pc i <;> simp only [hpc, reduceCtorEq, Option.some.injEq] at hstep
      case push_cas v r =>
        subst hstep
        exact ⟨_, _, h.push_store hpc (Or.inr rfl)⟩
      case inc o =>
        split at hstep
        case isTrue =>
          obtain rfl := Option.some.inj hstep
          exact ⟨_, _, h.move hpc rfl rfl rfl (by rintro c r n ⟨⟩)⟩
        case isFalse => cases hstep

end BoostNet.RefCountStack
