/-
Every step of the lock-free stack keeps the invariant, one lemma for each operation of the
source.
-/
import BoostNet.LockFreeStackInv

set_option autoImplicit false

namespace BoostNet.LockFreeStack

open Heap

variable {ι A V : Type*} [DecidableEq ι] [Fintype ι] [DecidableEq A]
  {g g' : Ghost ι A} {s t : Stack ι A V} {i j : ι} {p : Pc A V} {r : Ref A} {x : Label ι}
  {returned : ι → List V}

/-! ## Where a thread finds its nodes -/

omit [DecidableEq ι] [Fintype ι] [DecidableEq A] in
/-- A node of the stack is live. -/
theorem Mem.live_of_stack (h : Mem g s) {a : A} (ha : g.label a = .stack) :
    (s.heap a).live = true :=
  (h.live a).mpr (by rw [ha]; rintro ⟨⟩)

omit [DecidableEq ι] [Fintype ι] [DecidableEq A] in
/-- The head is the first node of the stack. -/
theorem Mem.head_label (h : Mem g s) {a : A} (ha : s.head = some a) : g.label a = .stack := by
  have hpath := h.stack
  rw [ha] at hpath
  exact (h.stack_label a).mpr hpath.head_mem

omit [Fintype ι] [DecidableEq A] in
/-- A thread's pointers into a list point to its own nodes. -/
theorem ThreadOk.own_link (h : ThreadOk g s i p) (hr : r ∈ p.links) : (g.label r.addr).Own i := by
  rcases h.shape.links hr with hmem | hold
  · rw [(h.detached r.addr).mpr hmem]
    rfl
  · rw [(h.old r.addr).mpr hold]
    rfl

omit [Fintype ι] [DecidableEq A] in
/-- The nodes of a detached list are live. -/
theorem ThreadOk.live_of_detached (h : ThreadOk g s i p) (hmem : Mem g s) {a : A}
    (ha : a ∈ g.detached i) : (s.heap a).live = true :=
  (hmem.live a).mpr (by rw [(h.detached a).mpr ha]; rintro ⟨⟩)

/-! ## `push` -/

/-- `new node`, at an address that is not in use. -/
theorem Inv.new_node (h : Inv g s) {v : V} {a : A} (hpc : s.pc i = .idle)
    (hdead : (s.heap a).live = false) :
    Inv { g with label := relabel g.label [a] (.push i) }
      { s.goto i (.push_next v (ref (alloc s.heap a ⟨some v, none⟩) a)) with
        heap := alloc s.heap a ⟨some v, none⟩
        popped := Function.update s.popped a false } := by
  have hi := h.threads i
  rw [hpc] at hi
  -- the node was nobody's
  have hlabel : g.label a = .free := by
    by_contra hne
    rw [(h.mem.live a).mpr hne] at hdead
    exact absurd hdead (by rintro ⟨⟩)
  have hother := relabel_other (x := .push i) (List.forall_mem_singleton.mpr hlabel)
  have hsame : ∀ b, g.label b ≠ .free → alloc s.heap a ⟨some v, none⟩ b = s.heap b :=
    fun b hb => alloc_of_ne (fun heq => hb (heq ▸ hlabel))
  have hstack : ∀ b ∈ g.stack, alloc s.heap a ⟨some v, none⟩ b = s.heap b :=
    fun b hb => hsame b (by rw [(h.mem.stack_label b).mpr hb]; rintro ⟨⟩)
  have hpending : ∀ b ∈ g.pending, alloc s.heap a ⟨some v, none⟩ b = s.heap b :=
    fun b hb => hsame b (by rw [(h.mem.pending_label b).mpr hb]; rintro ⟨⟩)
  refine h.of_frame (p := .push_next v _) rfl ?_ ?_ ?_ (by rw [hpc]; rfl) (by rintro _ ⟨⟩) ?_
  · refine ⟨?_, ?_, fun _ _ => rfl, ?_, ?_, ?_, fun _ _ => rfl, fun _ _ => rfl⟩
    · intro b
      by_cases hb : b = a
      · subst hb
        refine Or.inr ⟨by rw [hlabel]; trivial, ?_⟩
        change (relabel g.label [b] (.push i) b).Of i
        rw [relabel_of_mem (List.mem_singleton_self _)]
        rfl
      · exact Or.inl (relabel_of_not_mem (by simpa using hb))
    · intro b j hb
      by_cases heq : b = a
      · exact Or.inr (heq ▸ hdead)
      · exact Or.inl ((relabel_of_not_mem (by simpa using heq)).symm.trans hb)
    · intro b
      by_cases hb : g.label b = .free
      · exact Or.inr (Or.inr hb)
      · exact Or.inl (hsame b hb)
    · intro j _ r _ hvalid
      exact hvalid.of_eq (hsame r.addr ((h.mem.live r.addr).mp hvalid.1))
    · intro b hb
      have hb' := (hother .stack (by rintro ⟨⟩) (by rintro ⟨⟩) b).mp hb
      exact Or.inr ⟨hb', congrArg (fun c : Cell (Node A V) => c.val.next)
        (hsame b (by rw [hb']; rintro ⟨⟩))⟩
  · refine { h.mem with live := ?_, popped := ?_, stack := ?_, stack_label := ?_, pending := ?_,
                        pending_label := ?_, lifo := ?_ }
    · intro b
      by_cases hb : b = a
      · subst hb
        change (alloc s.heap b ⟨some v, none⟩ b).live = true ↔
          relabel g.label [b] (.push i) b ≠ .free
        rw [alloc_self, relabel_of_mem (List.mem_singleton_self _)]
        simp
      · change (alloc s.heap a ⟨some v, none⟩ b).live = true ↔
          relabel g.label [a] (.push i) b ≠ .free
        rw [alloc_of_ne hb, relabel_of_not_mem (by simpa using hb)]
        exact h.mem.live b
    · intro b hb
      change Function.update s.popped a false b = true ↔
        ∃ o, relabel g.label [a] (.push i) b = .of o
      by_cases heq : b = a
      · subst heq
        rw [Function.update_self, relabel_of_mem (List.mem_singleton_self _)]
        simp
      · rw [Function.update_of_ne heq, relabel_of_not_mem (by simpa using heq)]
        refine h.mem.popped b ?_
        rw [← alloc_of_ne heq (h := s.heap) (v := ⟨some v, none⟩)]
        exact hb
    · exact h.mem.stack.congr (fun b hb => congrArg (fun c => c.val.next) (hstack b hb))
    · exact fun b => (hother .stack (by rintro ⟨⟩) (by rintro ⟨⟩) b).trans (h.mem.stack_label b)
    · exact h.mem.pending.congr (fun b hb => congrArg (fun c => c.val.next) (hpending b hb))
    · exact fun b => (hother (.of .to_be_deleted) (by rintro ⟨⟩) (by rintro ⟨⟩) b).trans
        (h.mem.pending_label b)
    · obtain ⟨l, hl, hdata⟩ := h.mem.lifo
      refine ⟨l, hl, ?_⟩
      rw [← hdata]
      exact List.map_congr_left (fun b hb => congrArg (fun c => c.val.data) (hstack b hb))
  · refine { new := ?_, old := ?_, detached := ?_, nodup := hi.nodup, shape := hi.shape,
             refs := ?_, held := by rintro _ ⟨⟩, cas := by rintro _ _ ⟨⟩, data := ?_,
             res := hi.res }
    · intro b
      refine relabel_eq_self_iff.trans ?_
      rw [hi.new]
      simp [Pc.new, eq_comm]
    · exact fun b => (hother (.of (.pop i)) (by rintro ⟨⟩) (by rintro ⟨⟩) b).trans (hi.old b)
    · exact fun b => (hother (.of (.detached i)) (by rintro ⟨⟩) (by rintro ⟨⟩) b).trans
        (hi.detached b)
    · rintro r (hr | hr | hr | hr) <;> cases hr
      exact valid_ref (congrArg Cell.live alloc_self)
    · rintro v' r (hr | hr) <;> cases hr
      change (alloc s.heap a ⟨some v, none⟩ a).val.data = some v
      rw [alloc_self]
  · rintro b (hb | ⟨hb, -⟩) <;> exact absurd hb (by rintro ⟨⟩)

/-- A push makes its node point to the head. -/
theorem Inv.push_store (h : Inv g s) {v : V} (hpc : s.pc i = p)
    (hp : p = .push_next v r ∨ p = .push_cas v r) :
    Inv g { s.goto i (.push_cas v r) with heap := s.setNext r.addr s.head } := by
  have hi := h.threads i
  rw [hpc] at hi
  have hnew : p.new = some r := by rcases hp with rfl | rfl <;> rfl
  have hw : WritesOwn g i s.heap (s.setNext r.addr s.head) :=
    WritesOwn.store (by rw [(hi.new r.addr).mpr (by rw [hnew]; rfl)]; rfl)
  refine h.local hw (fun _ _ => rfl) ?_ (by rcases hp with rfl | rfl <;> rw [hpc] <;> rfl)
    (by rintro _ ⟨⟩) (by rintro _ (h | ⟨h, -⟩) <;> cases h)
  have hold : p.old = none := by rcases hp with rfl | rfl <;> rfl
  refine { hi with
    new := ?_, old := ?_, shape := ?_, refs := ?_, held := by rintro _ ⟨⟩,
    cas := by rintro _ _ ⟨⟩, data := ?_, res := ?_ }
  · intro a
    rw [hi.new, hnew]
    rfl
  · intro a
    rw [hi.old, hold]
    rfl
  · have hshape := hi.shape
    rcases hp with rfl | rfl <;> exact hshape
  · rintro r' (hr | hr | hr | hr) <;> cases hr
    exact hw.valid (hi.refs r (Or.inl hnew))
  · rintro v' r' (hr | hr)
    · cases hr
    · cases hr
      rw [← hi.data v r hp]
      simp [Stack.data, Stack.setNext]
  · have hres := hi.res
    rcases hp with rfl | rfl <;> exact hres

/-- A push links its node. -/
theorem Inv.push_cas (h : Inv g s) {v : V} (hpc : s.pc i = .push_cas v r)
    (hhead : s.head = s.next r.addr) :
    Inv { g with label := relabel g.label [r.addr] .stack, stack := r.addr :: g.stack }
      { s.goto i .idle with head := some r.addr, history := s.history ++ [.push v] } := by
  have hi := h.threads i
  rw [hpc] at hi
  -- the node was the thread's own
  have hlabel : g.label r.addr = .push i := (hi.new r.addr).mpr rfl
  have hother := relabel_other (x := .stack) (List.forall_mem_singleton.mpr hlabel)
  refine h.of_frame (p := .idle) rfl ?_ ?_ ?_ (by rw [hpc]; rfl) (by rintro _ ⟨⟩) ?_
  · refine Frame.of_relabel (x := .stack) ?_ trivial (by rintro _ ⟨⟩) ?_ rfl (fun _ _ => rfl) rfl ?_
      rfl
    · simp [hlabel, Label.Of]
    · simp [hlabel]
    · simp [poppedBy]
  · obtain ⟨l, hlifo, hdata⟩ := h.mem.lifo
    refine { h.mem with live := ?_, popped := ?_, stack := ?_, stack_nodup := ?_,
                        stack_label := ?_, pending_label := ?_, lifo := ?_ }
    · exact h.mem.live_relabel (by simp [hlabel]) (by rintro ⟨⟩)
    · exact fun a ha => (h.mem.popped a ha).trans
        (exists_congr (fun o => (hother (.of o) (by rintro ⟨⟩) (by rintro ⟨⟩) a).symm))
    · exact ⟨rfl, hhead ▸ h.mem.stack⟩
    · refine List.nodup_cons.mpr ⟨?_, h.mem.stack_nodup⟩
      rw [← h.mem.stack_label, hlabel]
      rintro ⟨⟩
    · intro a
      refine relabel_eq_self_iff.trans ?_
      rw [h.mem.stack_label, List.mem_singleton, List.mem_cons]
    · exact fun a => (hother (.of .to_be_deleted) (by rintro ⟨⟩) (by rintro ⟨⟩) a).trans
        (h.mem.pending_label a)
    · refine ⟨v :: l, hlifo.push v, ?_⟩
      rw [List.map_cons, List.map_cons, ← hdata]
      exact congrArg (· :: _) (hi.data v r (Or.inr rfl))
  · refine { new := ?_, old := ?_, detached := ?_, nodup := hi.nodup, shape := hi.shape,
             refs := ?_, held := by rintro _ ⟨⟩, cas := by rintro _ _ ⟨⟩, data := by simp,
             res := ?_ }
    · intro a
      refine (relabel_eq_iff (x := .stack) (y := .push i) (by rintro ⟨⟩)).trans ?_
      rw [hi.new]
      simp [Pc.new, eq_comm]
    · exact fun a => (hother (.of (.pop i)) (by rintro ⟨⟩) (by rintro ⟨⟩) a).trans (hi.old a)
    · exact fun a => (hother (.of (.detached i)) (by rintro ⟨⟩) (by rintro ⟨⟩) a).trans
        (hi.detached a)
    · rintro r' (hr | hr | hr | hr) <;> exact absurd hr (by rintro ⟨⟩)
    · refine Eq.trans ?_ hi.res
      simp [poppedBy]
  · rintro a (ha | ⟨ha, -⟩) <;> exact absurd ha (by rintro ⟨⟩)

/-! ## `pop` -/

omit [DecidableEq A] in
/-- `head.load()`, of a stack that is not empty. -/
theorem Inv.load_head (h : Inv g s) {a : A} (hpc : s.pc i = .load_head) (hhead : s.head = some a) :
    Inv g (s.goto i (.read_next (ref s.heap a))) := by
  have hi := h.threads i
  rw [hpc] at hi
  have hlabel := h.mem.head_label hhead
  refine h.local WritesOwn.refl (fun _ _ => rfl) ?_ (by rw [hpc]; rfl) ?_
    (by rintro _ (h | ⟨h, -⟩) <;> cases h)
  · refine { hi with refs := ?_, held := ?_, cas := by rintro _ _ ⟨⟩, data := by simp }
    · rintro r (hr | hr | hr | hr) <;> cases hr
      exact valid_ref (h.mem.live_of_stack hlabel)
    · intro r hr j
      obtain rfl := Option.some.inj hr
      rw [ref_addr, hlabel]
      rintro ⟨⟩
  · intro r hr
    obtain rfl := Option.some.inj hr
    exact Or.inr hlabel

omit [DecidableEq A] in
/-- `old_head->next`. -/
theorem Inv.read_next (h : Inv g s) (hpc : s.pc i = .read_next r) :
    Inv g (s.goto i (.cas_head r (s.next r.addr))) := by
  have hi := h.threads i
  rw [hpc] at hi
  refine h.local WritesOwn.refl (fun _ _ => rfl) ?_ (by rw [hpc]; rfl) ?_
    (by rintro _ (h | ⟨h, -⟩) <;> cases h)
  · refine { hi with cas := ?_, data := by simp }
    rintro r' n hr -
    cases hr
    rfl
  · intro r' hr
    rw [hpc]
    exact Or.inl hr

omit [DecidableEq A] in
/-- The CAS on `head` fails. -/
theorem Inv.retry (h : Inv g s) {n : Option A} (hpc : s.pc i = .cas_head r n) :
    Inv g (s.goto i .load_head) := by
  have hi := h.threads i
  rw [hpc] at hi
  refine h.local WritesOwn.refl (fun _ _ => rfl) ?_ (by rw [hpc]; rfl) (by rintro _ ⟨⟩)
    (by rintro _ (h | ⟨h, -⟩) <;> cases h)
  exact hi.move WritesOwn.refl rfl ⟨rfl, rfl⟩ rfl (by rintro _ ⟨⟩) hi.shape rfl rfl

/-- A pop takes the first node of the stack. -/
theorem Inv.pop_cas (h : Inv g s) {n : Option A} (hpc : s.pc i = .cas_head r n)
    (hhead : s.head = some r.addr) :
    Inv { g with label := relabel g.label [r.addr] (.of (.pop i)), stack := g.stack.tail }
      { s.goto i (.swap r) with
        head := n
        popped := Function.update s.popped r.addr true
        history := s.history ++ [.pop i (s.data r.addr)] } := by
  have hi := h.threads i
  rw [hpc] at hi
  have hlabel : g.label r.addr = .stack := h.mem.head_label hhead
  have hother := relabel_other (x := .of (.pop i)) (List.forall_mem_singleton.mpr hlabel)
  -- the node is the first of the stack, and what was read is its successor
  obtain ⟨m, hm, hpath⟩ := Path.eq_cons (hhead ▸ h.mem.stack)
  rw [hi.cas r n rfl hlabel] at hpath
  have hnodup := h.mem.stack_nodup
  rw [hm, List.nodup_cons] at hnodup
  obtain ⟨l, hlifo, hdata⟩ := h.mem.lifo
  rw [hm, List.map_cons] at hdata
  obtain ⟨v, l, rfl, hv, hrest⟩ : ∃ v l', l = v :: l' ∧ s.data r.addr = some v ∧
      m.map s.data = l'.map some := by
    cases l with
    | nil => exact absurd hdata (by rintro ⟨⟩)
    | cons v l' => exact ⟨v, l', rfl, (List.cons.inj hdata).1, (List.cons.inj hdata).2⟩
  rw [hv, hm]
  refine h.of_frame (p := .swap r) rfl ?_ ?_ ?_ (by rw [hpc]; rfl) (by rintro _ ⟨⟩) ?_
  · refine Frame.of_relabel (x := .of (.pop i)) ?_ rfl (by rintro _ ⟨⟩) (by rintro ⟨⟩) rfl
      (fun _ _ => rfl) rfl ?_ rfl
    · simp [hlabel, Label.Of]
    · intro j hji
      simp [poppedBy, Ne.symm hji]
  · refine { h.mem with live := ?_, popped := ?_, stack := hpath, stack_nodup := hnodup.2,
                        stack_label := ?_, pending_label := ?_, lifo := ⟨l, hlifo.pop i, hrest⟩ }
    · exact h.mem.live_relabel (by simp [hlabel]) (by rintro ⟨⟩)
    · intro a ha
      by_cases hr : a = r.addr
      · subst hr
        exact ⟨fun _ => ⟨.pop i, relabel_of_mem (List.mem_singleton_self _)⟩,
          fun _ => Function.update_self ..⟩
      · change Function.update s.popped r.addr true a = true ↔
          ∃ o, relabel g.label [r.addr] (.of (.pop i)) a = .of o
        rw [Function.update_of_ne hr, relabel_of_not_mem (by simpa using hr)]
        exact h.mem.popped a ha
    · intro a
      refine (relabel_eq_iff (x := .of (.pop i)) (y := .stack) (by rintro ⟨⟩)).trans ?_
      rw [h.mem.stack_label, hm, List.mem_singleton, List.mem_cons]
      constructor
      · exact fun ha => ha.2.resolve_left ha.1
      · exact fun ha => ⟨fun heq => hnodup.1 (heq ▸ ha), Or.inr ha⟩
    · exact fun a => (hother (.of .to_be_deleted) (by rintro ⟨⟩) (by rintro ⟨⟩) a).trans
        (h.mem.pending_label a)
  · refine { new := ?_, old := ?_, detached := ?_, nodup := hi.nodup, shape := hi.shape,
             refs := ?_, held := by rintro _ ⟨⟩, cas := by rintro _ _ ⟨⟩, data := by simp,
             res := ?_ }
    · exact fun a => (hother (.push i) (by rintro ⟨⟩) (by rintro ⟨⟩) a).trans (hi.new a)
    · intro a
      refine relabel_eq_self_iff.trans ?_
      rw [hi.old]
      simp [Pc.old, eq_comm]
    · exact fun a => (hother (.of (.detached i)) (by rintro ⟨⟩) (by rintro ⟨⟩) a).trans
        (hi.detached a)
    · rintro r' (hr | hr | hr | hr) <;> cases hr
      exact hi.refs r (Or.inr (Or.inr (Or.inl rfl)))
    · have hres : poppedBy i s.history = s.returned i ++ [] := hi.res
      change poppedBy i (s.history ++ [.pop i (some v)]) = s.returned i ++ (s.data r.addr).toList
      rw [hv, ← List.append_nil (s.returned i), ← hres]
      simp [poppedBy]
  · rintro a (ha | ⟨ha, -⟩) <;> exact absurd ha (by rintro ⟨⟩)

/-- `res.swap(old_head->data)`. -/
theorem Inv.swap (h : Inv g s) (hpc : s.pc i = .swap r) :
    Inv g { s.goto i (.check r (s.data r.addr)) with
      heap := store s.heap r.addr { (s.heap r.addr).val with data := none } } := by
  have hi := h.threads i
  rw [hpc] at hi
  have hw : WritesOwn g i s.heap (store s.heap r.addr { (s.heap r.addr).val with data := none }) :=
    WritesOwn.store (by rw [(hi.old r.addr).mpr rfl]; rfl)
  refine h.local hw (fun _ _ => rfl) ?_ (by rw [hpc]; rfl) (by rintro _ ⟨⟩)
    (by rintro _ (h | ⟨h, -⟩) <;> cases h)
  exact hi.move hw rfl ⟨rfl, rfl⟩ rfl (by rintro _ ⟨⟩) hi.shape rfl rfl

omit [DecidableEq A] in
/-- `pop` returns, and the thread has no node left. -/
theorem Inv.ret (h : Inv g s) {v : Option V} (hi : ThreadOk g s i p) (hpc : s.pc i = p)
    (hold : p.old = none) (hnew : p.new = none) (hdetached : g.detached i = [])
    (hres : p.res s.data = v) (hcount : p.counted = 1) :
    Inv g { s.ret i v with threads_in_pop := s.threads_in_pop - 1 } := by
  refine h.local WritesOwn.refl (fun j hji => Function.update_of_ne hji ..) ?_ ?_ (by rintro _ ⟨⟩)
    (by rintro _ (h | ⟨h, -⟩) <;> cases h)
  · refine hi.move WritesOwn.refl rfl ⟨hnew, rfl⟩ hold.symm (by rintro _ ⟨⟩) hdetached rfl ?_
    rw [hres]
    change Function.update s.returned i (s.returned i ++ v.toList) i ++ [] = _
    rw [Function.update_self, List.append_nil]
  · rw [hpc, hcount]
    change _ = s.threads_in_pop + 0
    omega

/-! ## `try_reclaim` -/

omit [DecidableEq A] in
/-- Thread `i` is the only one that counts, and holds nothing: nobody does. -/
theorem Inv.unheld_of_alone (h : Inv g s) (hcount : s.threads_in_pop = (s.pc i).counted)
    (hheld : p.held = none) (a : A) :
    (Function.update s.pc i p j).held.map Ref.addr ≠ some a := by
  by_cases hji : j = i
  · rw [hji, Function.update_self, hheld]
    rintro ⟨⟩
  · rw [Function.update_of_ne hji, h.alone hcount hji]
    rintro ⟨⟩

omit [DecidableEq A] in
/-- The first look at `threads_in_pop` finds the thread alone. -/
theorem Inv.check_alone (h : Inv g s) {v : Option V} (hpc : s.pc i = .check r v)
    (hone : s.threads_in_pop = 1) : Inv g (s.goto i (.exchange r v)) := by
  have hi := h.threads i
  rw [hpc] at hi
  refine h.local WritesOwn.refl (fun _ _ => rfl) ?_ (by rw [hpc]; rfl) (by rintro _ ⟨⟩) ?_
  · exact hi.move WritesOwn.refl rfl ⟨rfl, rfl⟩ rfl (by rintro _ ⟨⟩) hi.shape rfl rfl
  · exact fun a _ => Or.inr (fun j => h.unheld_of_alone (by rw [hone, hpc]; rfl) rfl a)

omit [DecidableEq A] in
/-- It finds others. -/
theorem Inv.check_others (h : Inv g s) {v : Option V} (hpc : s.pc i = .check r v) :
    Inv g (s.goto i (.chain_next r r .dec v)) := by
  have hi := h.threads i
  rw [hpc] at hi
  refine h.local WritesOwn.refl (fun _ _ => rfl) ?_ (by rw [hpc]; rfl) (by rintro _ ⟨⟩) ?_
  · refine hi.move WritesOwn.refl rfl ⟨rfl, rfl⟩ rfl ?_ ⟨hi.shape, rfl⟩ rfl rfl
    intro r' hr
    obtain rfl : r' = r := by simpa [Pc.links] using hr
    exact Or.inl (Or.inr (Or.inl rfl))
  · rintro a (ha | ⟨ha, -⟩) <;> exact absurd ha (by rintro ⟨⟩)

/-- A thread takes the list `to_be_deleted`. -/
theorem Inv.exchange (h : Inv g s) {v : Option V} (hpc : s.pc i = .exchange r v) :
    Inv { g with
        label := relabel g.label g.pending (.of (.detached i))
        pending := []
        detached := Function.update g.detached i g.pending }
      { s.goto i (.dec r (s.to_be_deleted.map (ref s.heap)) v) with to_be_deleted := none } := by
  have hi := h.threads i
  rw [hpc] at hi
  have hpending : ∀ a ∈ g.pending, g.label a = .of .to_be_deleted :=
    fun a ha => (h.mem.pending_label a).mpr ha
  -- the thread has detached nothing else yet, and all labels but these two stay
  have hempty : g.detached i = [] := hi.shape
  have hother := relabel_other (x := .of (.detached i)) hpending
  refine h.of_frame (p := .dec r (s.to_be_deleted.map (ref s.heap)) v) rfl ?_ ?_ ?_
    (by rw [hpc]; rfl) (by rintro _ ⟨⟩) ?_
  · refine Frame.of_relabel (x := .of (.detached i)) ?_ rfl (by rintro _ ⟨⟩) (by rintro ⟨⟩) rfl ?_
      rfl
      (fun _ _ => rfl) rfl
    · intro a ha
      rw [hpending a ha]
      trivial
    · exact fun j hji => Function.update_of_ne hji ..
  · refine { h.mem with live := ?_, popped := ?_, stack_label := ?_, pending := rfl,
                        pending_nodup := List.nodup_nil, pending_label := ?_ }
    · exact h.mem.live_relabel (fun a ha => by rw [hpending a ha]; rintro ⟨⟩) (by rintro ⟨⟩)
    · intro a ha
      refine (h.mem.popped a ha).trans ?_
      by_cases hp : a ∈ g.pending
      · exact ⟨fun _ => ⟨.detached i, relabel_of_mem hp⟩, fun _ => ⟨_, hpending a hp⟩⟩
      · change _ ↔ ∃ o, relabel g.label g.pending (.of (.detached i)) a = .of o
        rw [relabel_of_not_mem hp]
    · exact fun a => (hother .stack (by rintro ⟨⟩) (by rintro ⟨⟩) a).trans (h.mem.stack_label a)
    · intro a
      refine
        (relabel_eq_iff (x := .of (.detached i)) (y := .of .to_be_deleted) (by rintro ⟨⟩)).trans ?_
      rw [h.mem.pending_label]
      simp
  · refine { new := ?_, old := ?_, detached := ?_, nodup := ?_, shape := ?_, refs := ?_,
             held := by rintro _ ⟨⟩, cas := by rintro _ _ ⟨⟩, data := by simp, res := hi.res }
    · exact fun a => (hother (.push i) (by rintro ⟨⟩) (by rintro ⟨⟩) a).trans (hi.new a)
    · exact fun a => (hother (.of (.pop i)) (by rintro ⟨⟩) (by rintro ⟨⟩) a).trans (hi.old a)
    · intro a
      refine relabel_eq_self_iff.trans ?_
      rw [hi.detached, hempty]
      simp
    · simpa using h.mem.pending_nodup
    · change Path s.next ((s.to_be_deleted.map (ref s.heap)).map Ref.addr)
        (Function.update g.detached i g.pending i) none
      rw [map_addr_map_ref, Function.update_self]
      exact h.mem.pending
    · rintro r' (hr | hr | hr | hr)
      · exact absurd hr (by rintro ⟨⟩)
      · exact hi.refs r' (Or.inr (Or.inl hr))
      · exact absurd hr (by rintro ⟨⟩)
      · obtain ⟨a, ha, rfl⟩ := Option.map_eq_some_iff.mp (Option.mem_toList.mp hr)
        have hpath := h.mem.pending
        rw [ha] at hpath
        refine valid_ref ((h.mem.live a).mpr ?_)
        rw [hpending a hpath.head_mem]
        rintro ⟨⟩
  · rintro a (ha | ⟨ha, -⟩)
    · rw [hpc]
      exact Or.inl (Or.inl ha)
    · exact absurd ha (by rintro ⟨⟩)

omit [DecidableEq A] in
/-- The second look, when the thread leaves the count, finds nobody. -/
theorem Inv.dec_alone (h : Inv g s) {nodes : Option (Ref A)} {v : Option V}
    (hpc : s.pc i = .dec r nodes v) (hzero : s.threads_in_pop - 1 = 0) :
    Inv g { s.goto i (deleteNodes nodes r v) with threads_in_pop := s.threads_in_pop - 1 } := by
  have hi := h.threads i
  rw [hpc] at hi
  obtain ⟨hheld, hnew, hold, hcount, hlinks, hres⟩ :=
    deleteNodes_spec nodes r v
  refine h.local WritesOwn.refl (fun _ _ => rfl) ?_ ?_ ?_ ?_
  · exact hi.move WritesOwn.refl hheld ⟨rfl, hnew⟩ hold
      (fun r' hr => Or.inl (Or.inr (Or.inr (Or.inr (hlinks r' hr)))))
      (detached_deleteNodes hi.shape) rfl (by rw [hres]; rfl)
  · rw [hpc, hcount]
    change _ + 1 = _
    omega
  · rw [hheld]
    rintro _ ⟨⟩
  · have hone : s.threads_in_pop = (s.pc i).counted := by
      rw [hpc]
      change _ = (1 : Int)
      omega
    exact fun a _ => Or.inr (fun j => h.unheld_of_alone hone hheld a)

omit [DecidableEq A] in
/-- It finds others. -/
theorem Inv.dec_others (h : Inv g s) {nodes : Option (Ref A)} {v : Option V}
    (hpc : s.pc i = .dec r nodes v) :
    Inv g { s.goto i (chainNodes nodes r v) with threads_in_pop := s.threads_in_pop - 1 } := by
  have hi := h.threads i
  rw [hpc] at hi
  obtain ⟨hheld, hnew, hold, hcount, hlinks, hres⟩ :=
    chainNodes_spec nodes r v
  refine h.local WritesOwn.refl (fun _ _ => rfl) ?_ ?_ ?_ ?_
  · exact hi.move WritesOwn.refl hheld ⟨rfl, hnew⟩ hold
      (fun r' hr => Or.inl (Or.inr (Or.inr (Or.inr (hlinks r' hr)))))
      (detached_chainNodes hi.shape) rfl (by rw [hres]; rfl)
  · rw [hpc, hcount]
    change _ + 1 = _
    omega
  · rw [hheld]
    rintro _ ⟨⟩
  · intro a ha
    left
    rw [hpc, ← reclaims_chainNodes ha]
    exact Or.inl rfl

/-! ## Deleting nodes -/

omit [Fintype ι] in
/-- A thread deletes a node of its own that nobody holds. -/
theorem Frame.of_free {a : A} (hown : (g.label a).Own i)
    (hunheld : ∀ j, (s.pc j).held.map Ref.addr ≠ some a) {detached : ι → List A}
    (hdetached : ∀ j, j ≠ i → detached j = g.detached j)
    (hret : ∀ j, j ≠ i → returned j = s.returned j) :
    Frame i g s { g with label := relabel g.label [a] .free, detached := detached }
      { s.goto i p with heap := free s.heap a, returned := returned } where
  label := by
    intro b
    by_cases hb : b ∈ [a]
    · obtain rfl := List.mem_singleton.mp hb
      refine Or.inr ⟨hown.of, ?_⟩
      change (relabel g.label [b] .free b).Of i
      rw [relabel_of_mem hb]
      trivial
    · exact Or.inl (relabel_of_not_mem hb)
  push := fun b j hb => Or.inl ((relabel_eq_iff (x := .free) (y := .push j) (by rintro ⟨⟩)).mp hb).2
  detached := hdetached
  heap := by
    intro b
    by_cases hb : b = a
    · exact Or.inr (Or.inl (hb ▸ hown))
    · exact Or.inl (free_of_ne hb)
  valid := by
    intro j _ r hr hvalid
    have hne : r.addr ≠ a := fun heq => hunheld j (by rw [hr, ← heq]; rfl)
    have hsame : free s.heap a r.addr = s.heap r.addr := free_of_ne hne
    exact hvalid.of_eq hsame
  stack := by
    intro b hb
    obtain ⟨hne, hstack⟩ := (relabel_eq_iff (x := .free) (y := .stack) (by rintro ⟨⟩)).mp hb
    exact Or.inr ⟨hstack, congrArg (fun c : Cell (Node A V) => c.val.next)
      (free_of_ne (by simpa using hne))⟩
  history := fun _ _ => rfl
  returned := hret

omit [Fintype ι] in
/-- The memory without the node. -/
theorem Mem.of_free (h : Mem g s) {a : A} (hown : (g.label a).Own i) (detached : ι → List A) :
    Mem { g with label := relabel g.label [a] .free, detached := detached }
      { s.goto i p with heap := free s.heap a, returned := returned } := by
  have hne : ∀ b, g.label b = .stack ∨ g.label b = .of .to_be_deleted → b ≠ a := by
    rintro b (hb | hb) rfl <;> rw [hb] at hown <;> exact hown
  have hstack : ∀ b ∈ g.stack, free s.heap a b = s.heap b :=
    fun b hb => free_of_ne (hne b (Or.inl ((h.stack_label b).mpr hb)))
  have hpending : ∀ b ∈ g.pending, free s.heap a b = s.heap b :=
    fun b hb => free_of_ne (hne b (Or.inr ((h.pending_label b).mpr hb)))
  refine { h with live := ?_, popped := ?_, stack := ?_, stack_label := ?_, pending := ?_,
                  pending_label := ?_, lifo := ?_ }
  · intro b
    by_cases hb : b = a
    · subst hb
      change (free s.heap b b).live = true ↔ relabel g.label [b] .free b ≠ .free
      rw [free_self, relabel_of_mem (List.mem_singleton_self _)]
      simp
    · change (free s.heap a b).live = true ↔ relabel g.label [a] .free b ≠ .free
      rw [free_of_ne hb, relabel_of_not_mem (by simpa using hb)]
      exact h.live b
  · intro b hlive
    have hb : b ≠ a := by
      rintro rfl
      change (free s.heap b b).live = true at hlive
      rw [free_self] at hlive
      exact absurd hlive (by rintro ⟨⟩)
    change (free s.heap a b).live = true at hlive
    change s.popped b = true ↔ ∃ o, relabel g.label [a] .free b = .of o
    rw [free_of_ne hb] at hlive
    rw [relabel_of_not_mem (by simpa using hb)]
    exact h.popped b hlive
  · exact h.stack.congr (fun b hb => congrArg (fun c => c.val.next) (hstack b hb))
  · intro b
    refine (relabel_eq_iff (x := .free) (y := .stack) (by rintro ⟨⟩)).trans ?_
    rw [← h.stack_label]
    exact ⟨fun hb => hb.2, fun hb => ⟨by simpa using hne b (Or.inl hb), hb⟩⟩
  · exact h.pending.congr (fun b hb => congrArg (fun c => c.val.next) (hpending b hb))
  · intro b
    refine (relabel_eq_iff (x := .free) (y := .of .to_be_deleted) (by rintro ⟨⟩)).trans ?_
    rw [← h.pending_label]
    exact ⟨fun hb => hb.2, fun hb => ⟨by simpa using hne b (Or.inr hb), hb⟩⟩
  · obtain ⟨l, hl, hdata⟩ := h.lifo
    refine ⟨l, hl, ?_⟩
    rw [← hdata]
    exact List.map_congr_left (fun b hb => congrArg (fun c => c.val.data) (hstack b hb))

/-- `delete old_head`. -/
theorem Inv.delete_old (h : Inv g s) {v : Option V} (hpc : s.pc i = .delete_old r v) :
    Inv { g with label := relabel g.label [r.addr] .free, detached := g.detached }
      { s.ret i v with heap := free s.heap r.addr } := by
  have hi := h.threads i
  rw [hpc] at hi
  have hlabel : g.label r.addr = .of (.pop i) := (hi.old r.addr).mpr rfl
  have hown : (g.label r.addr).Own i := by rw [hlabel]; rfl
  have hunheld := h.unheld i r.addr (by rw [hpc]; exact Or.inl rfl)
  have hother := relabel_other (x := .free) (List.forall_mem_singleton.mpr hlabel)
  refine h.of_frame (p := .idle) rfl
    (Frame.of_free hown hunheld (fun _ _ => rfl) (fun j hji => Function.update_of_ne hji ..))
    (h.mem.of_free hown _) ?_ (by rw [hpc]; rfl) (by rintro _ ⟨⟩) ?_
  · refine { new := ?_, old := ?_, detached := ?_, nodup := hi.nodup, shape := hi.shape,
             refs := ?_, held := by rintro _ ⟨⟩, cas := by rintro _ _ ⟨⟩, data := by simp,
             res := ?_ }
    · exact fun a => (hother (.push i) (by rintro ⟨⟩) (by rintro ⟨⟩) a).trans (hi.new a)
    · intro a
      refine (relabel_eq_iff (x := .free) (y := .of (.pop i)) (by rintro ⟨⟩)).trans ?_
      rw [hi.old]
      simp [Pc.old, eq_comm]
    · exact fun a => (hother (.of (.detached i)) (by rintro ⟨⟩) (by rintro ⟨⟩) a).trans
        (hi.detached a)
    · rintro r' (hr | hr | hr | hr) <;> exact absurd hr (by rintro ⟨⟩)
    · have hres := hi.res
      change poppedBy i s.history = Function.update s.returned i (s.returned i ++ v.toList) i ++ []
      rw [Function.update_self, List.append_nil]
      exact hres
  · rintro a (ha | ⟨ha, -⟩) <;> exact absurd ha (by rintro ⟨⟩)

omit [DecidableEq A] in
/-- `nodes->next`. -/
theorem Inv.delete_next (h : Inv g s) {n : Ref A} {v : Option V}
    (hpc : s.pc i = .delete_next n r v) :
    Inv g (s.goto i (.delete_node n ((s.next n.addr).map (ref s.heap)) r v)) := by
  have hi := h.threads i
  rw [hpc] at hi
  refine h.local WritesOwn.refl (fun _ _ => rfl) ?_ (by rw [hpc]; rfl) (by rintro _ ⟨⟩) ?_
  · obtain ⟨m, hm, hpath⟩ := Path.eq_cons hi.shape
    refine hi.move WritesOwn.refl rfl ⟨rfl, rfl⟩ rfl ?_ ⟨m, hm, ?_⟩ rfl rfl
    · intro r' hr
      rcases List.mem_cons.mp hr with rfl | hr
      · exact Or.inl (Or.inr (Or.inr (Or.inr List.mem_cons_self)))
      · obtain ⟨a, ha, rfl⟩ := Option.map_eq_some_iff.mp (Option.mem_toList.mp hr)
        rw [ha] at hpath
        have hmem : a ∈ g.detached i := by
          rw [hm]
          exact List.mem_cons_of_mem _ hpath.head_mem
        exact Or.inr (valid_ref (hi.live_of_detached h.mem hmem))
    · rw [map_addr_map_ref]
      exact hpath
  · intro a ha
    rw [hpc]
    exact Or.inl ha

/-- `delete nodes`. -/
theorem Inv.delete_node (h : Inv g s) {n : Ref A} {rest : Option (Ref A)} {v : Option V}
    (hpc : s.pc i = .delete_node n rest r v) :
    ∃ g', Inv g' { s.goto i (deleteNodes rest r v) with heap := free s.heap n.addr } := by
  have hi := h.threads i
  rw [hpc] at hi
  obtain ⟨m, hm, hpath⟩ := hi.shape
  have hnodup := hi.nodup
  rw [hm, List.nodup_cons] at hnodup
  have hmem : n.addr ∈ g.detached i := by
    rw [hm]
    exact List.mem_cons_self
  have hlabel : g.label n.addr = .of (.detached i) := (hi.detached n.addr).mpr hmem
  have hown : (g.label n.addr).Own i := by rw [hlabel]; rfl
  have hunheld := h.unheld i n.addr (by rw [hpc]; exact Or.inr ⟨rfl, hmem⟩)
  have hother := relabel_other (x := .free) (List.forall_mem_singleton.mpr hlabel)
  -- the rest of the list, and the node popped, are other nodes
  have hrest : ∀ a ∈ m, free s.heap n.addr a = s.heap a :=
    fun a ha => free_of_ne (fun heq => hnodup.1 (heq ▸ ha))
  obtain ⟨hheld, hnew, hold, hcount, hlinks, hres⟩ :=
    deleteNodes_spec rest r v
  refine ⟨{ g with label := relabel g.label [n.addr] .free,
                   detached := Function.update g.detached i m },
    h.of_frame (p := deleteNodes rest r v) rfl
      (Frame.of_free hown hunheld (fun j hji => Function.update_of_ne hji ..) (fun _ _ => rfl))
      (h.mem.of_free hown _) ?_ ?_ ?_ ?_⟩
  · refine { new := ?_, old := ?_, detached := ?_, nodup := ?_, shape := ?_, refs := ?_,
             held := ?_, cas := ?_, data := ?_, res := ?_ }
    · intro a
      rw [hnew]
      exact (hother (.push i) (by rintro ⟨⟩) (by rintro ⟨⟩) a).trans (hi.new a)
    · intro a
      rw [hold]
      exact (hother (.of (.pop i)) (by rintro ⟨⟩) (by rintro ⟨⟩) a).trans (hi.old a)
    · intro a
      refine (relabel_eq_iff (x := .free) (y := .of (.detached i)) (by rintro ⟨⟩)).trans ?_
      change _ ↔ a ∈ Function.update g.detached i m i
      rw [hi.detached, hm, Function.update_self, List.mem_singleton, List.mem_cons]
      constructor
      · exact fun ha => ha.2.resolve_left ha.1
      · exact fun ha => ⟨fun heq => hnodup.1 (heq ▸ ha), Or.inr ha⟩
    · change (Function.update g.detached i m i).Nodup
      rw [Function.update_self]
      exact hnodup.2
    · change (deleteNodes rest r v).Detached _ (Function.update g.detached i m i)
      rw [Function.update_self]
      exact detached_deleteNodes
        (hpath.congr (fun a ha => congrArg (fun c => c.val.next) (hrest a ha)))
    · rintro r' (hr | hr | hr | hr)
      · exact absurd (hnew.symm.trans hr) (by rintro ⟨⟩)
      · obtain rfl := Option.some.inj (hold.symm.trans hr)
        have hne : r.addr ≠ n.addr := by
          intro heq
          have hpop := (hi.old r.addr).mpr rfl
          rw [heq, hlabel] at hpop
          exact absurd hpop (by rintro ⟨⟩)
        have hsame : free s.heap n.addr r.addr = s.heap r.addr := free_of_ne hne
        exact (hi.refs r (Or.inr (Or.inl rfl))).of_eq hsame
      · exact absurd (hheld.symm.trans hr) (by rintro ⟨⟩)
      · have hr' := hlinks r' hr
        have hm' : r'.addr ∈ m := by
          obtain rfl := Option.mem_toList.mp hr'
          exact hpath.head_mem
        exact (hi.refs r' (Or.inr (Or.inr (Or.inr (List.mem_cons_of_mem _ hr'))))).of_eq
          (hrest _ hm')
    · intro r' hr
      exact absurd (hheld.symm.trans hr) (by rintro ⟨⟩)
    · intro r' n' hr
      rw [hr] at hheld
      exact absurd hheld (by rintro ⟨⟩)
    · rintro v' r' (hr | hr) <;> rw [hr] at hnew <;> exact absurd hnew (by rintro ⟨⟩)
    · rw [hres]
      exact hi.res
  · rw [hpc, hcount]
    rfl
  · intro r' hr
    exact absurd (hheld.symm.trans hr) (by rintro ⟨⟩)
  · intro a ha
    left
    rw [hpc]
    rcases ha with ha | ⟨hdel, ha⟩
    · left
      rw [← ha]
      cases rest <;> rfl
    · right
      change a ∈ Function.update g.detached i m i at ha
      rw [Function.update_self] at ha
      rw [hm]
      exact ⟨rfl, List.mem_cons_of_mem _ ha⟩

/-! ## `chain_pending_nodes` -/

omit [DecidableEq A] in
/-- The walk comes to the last node. -/
theorem Inv.walk_end (h : Inv g s) {first last : Ref A} {v : Option V}
    (hpc : s.pc i = .walk first last r v) (hnext : s.next last.addr = none) :
    Inv g (s.goto i (.chain_next first last (.delete_old r) v)) := by
  have hi := h.threads i
  rw [hpc] at hi
  refine h.local WritesOwn.refl (fun _ _ => rfl) ?_ (by rw [hpc]; rfl) (by rintro _ ⟨⟩) ?_
  · obtain ⟨m, m', hm, hpath, hpath'⟩ := hi.shape
    rw [hnext] at hpath'
    rw [hpath'.eq_nil] at hm
    exact hi.move WritesOwn.refl rfl ⟨rfl, rfl⟩ rfl
      (fun r hr => Or.inl (Or.inr (Or.inr (Or.inr hr)))) ⟨m, hm, hpath⟩ rfl rfl
  · intro a ha
    rw [hpc]
    exact Or.inl ha

omit [DecidableEq A] in
/-- The walk goes on. -/
theorem Inv.walk_next (h : Inv g s) {first last : Ref A} {v : Option V} {a : A}
    (hpc : s.pc i = .walk first last r v) (hnext : s.next last.addr = some a) :
    Inv g (s.goto i (.walk first (ref s.heap a) r v)) := by
  have hi := h.threads i
  rw [hpc] at hi
  refine h.local WritesOwn.refl (fun _ _ => rfl) ?_ (by rw [hpc]; rfl) (by rintro _ ⟨⟩) ?_
  · obtain ⟨m, m', hm, hpath, hpath'⟩ := hi.shape
    rw [hnext] at hpath'
    obtain ⟨m', rfl, hrest⟩ := hpath'.eq_cons
    refine hi.move WritesOwn.refl rfl ⟨rfl, rfl⟩ rfl ?_
      ⟨m ++ [last.addr], m', ?_, ?_, hrest⟩ rfl rfl
    · intro r' hr
      simp only [Pc.links, List.mem_cons, List.not_mem_nil, or_false] at hr
      rcases hr with rfl | rfl
      · exact Or.inl (Or.inr (Or.inr (Or.inr List.mem_cons_self)))
      · exact Or.inr (valid_ref (hi.live_of_detached h.mem (by rw [hm]; simp)))
    · rw [hm]
      simp
    · exact path_concat.mpr ⟨hpath, hnext⟩
  · intro b hb
    rw [hpc]
    exact Or.inl hb

/-- The last node of a list that is chained points to the list `to_be_deleted`. -/
theorem Inv.chain_store (h : Inv g s) {first last : Ref A} {k : After A} {v : Option V}
    (hpc : s.pc i = p) (hp : p = .chain_next first last k v ∨ p = .chain_cas first last k v) :
    Inv g { s.goto i (.chain_cas first last k v) with
      heap := s.setNext last.addr s.to_be_deleted } := by
  have hi := h.threads i
  rw [hpc] at hi
  have hlast : (g.label last.addr).Own i := by
    apply hi.own_link
    rcases hp with rfl | rfl <;> simp [Pc.links]
  have hw : WritesOwn g i s.heap (s.setNext last.addr s.to_be_deleted) := WritesOwn.store hlast
  -- the store is to the last node, and the list before it stays linked
  have hshape : (Pc.chain_cas first last k v).Detached s.next (g.detached i) := by
    have hshape := hi.shape
    rcases hp with rfl | rfl <;> exact hshape
  refine h.local hw (fun _ _ => rfl) ?_ ?_ ?_ ?_
  · refine hi.move hw rfl ?_ ?_ ?_ ?_ rfl ?_
    · rcases hp with rfl | rfl <;> exact ⟨rfl, rfl⟩
    · rcases hp with rfl | rfl <;> rfl
    · rcases hp with rfl | rfl <;> exact fun r hr => Or.inl (Or.inr (Or.inr (Or.inr hr)))
    · cases k with
      | delete_old r =>
          obtain ⟨m, hm, hpath⟩ := hshape
          have hnodup := hi.nodup
          rw [hm, ← List.concat_eq_append, List.nodup_concat] at hnodup
          refine ⟨m, hm, hpath.congr (fun a ha => ?_)⟩
          have hne : a ≠ last.addr := fun heq => hnodup.1 (heq ▸ ha)
          exact congrArg (fun c : Cell (Node A V) => c.val.next) (store_of_ne hne)
      | dec => exact hshape
    · rcases hp with rfl | rfl <;> rfl
  · rcases hp with rfl | rfl <;> rw [hpc] <;> cases k <;> rfl
  · rintro _ ⟨⟩
  · intro a ha
    left
    rcases hp with rfl | rfl <;> rw [hpc] <;> cases k <;> exact ha

omit [Fintype ι] in
/-- A list of popped nodes is linked in front of `to_be_deleted`. -/
theorem Mem.chain (h : Mem g s) {first last : A} {m : List A} {o : Owner ι}
    (detached : ι → List A) (hlabel : ∀ a ∈ m ++ [last], g.label a = .of o)
    (ho : o ≠ .to_be_deleted) (hnodup : (m ++ [last]).Nodup)
    (hpath : Path s.next (some first) m (some last)) (hlast : s.to_be_deleted = s.next last) :
    Mem { g with
        label := relabel g.label (m ++ [last]) (.of .to_be_deleted)
        pending := m ++ [last] ++ g.pending
        detached := detached }
      { s.goto i p with to_be_deleted := some first } where
  live := h.live_relabel (fun a ha => by rw [hlabel a ha]; rintro ⟨⟩) (by rintro ⟨⟩)
  popped := by
    intro a ha
    refine (h.popped a ha).trans ?_
    by_cases hm : a ∈ m ++ [last]
    · exact ⟨fun _ => ⟨_, relabel_of_mem hm⟩, fun _ => ⟨o, hlabel a hm⟩⟩
    · exact exists_congr (fun o' => by
        change _ ↔ relabel g.label (m ++ [last]) (.of .to_be_deleted) a = _
        rw [relabel_of_not_mem hm])
  stack := h.stack
  stack_nodup := h.stack_nodup
  stack_label := fun a =>
    (relabel_eq_iff_of_ne (x := .of .to_be_deleted) (y := .stack) (by rintro ⟨⟩)
    (fun a ha => by rw [hlabel a ha]; rintro ⟨⟩)).trans (h.stack_label a)
  pending := path_append.mpr ⟨s.to_be_deleted, path_concat.mpr ⟨hpath, hlast.symm⟩, h.pending⟩
  pending_nodup := by
    refine hnodup.append h.pending_nodup ?_
    intro a ha hp
    rw [← h.pending_label, hlabel a ha] at hp
    exact ho (Label.of.inj hp)
  pending_label := by
    intro a
    refine relabel_eq_self_iff.trans ?_
    rw [h.pending_label, ← List.mem_append]
  lifo := h.lifo

/-- A thread chains the list that it has detached. -/
theorem Inv.chain_detached (h : Inv g s) {first last r : Ref A} {v : Option V}
    (hpc : s.pc i = .chain_cas first last (.delete_old r) v)
    (hlast : s.to_be_deleted = s.next last.addr) :
    Inv { g with
        label := relabel g.label (g.detached i) (.of .to_be_deleted)
        pending := g.detached i ++ g.pending
        detached := Function.update g.detached i [] }
      { s.goto i (.delete_old r v) with to_be_deleted := some first.addr } := by
  have hi := h.threads i
  rw [hpc] at hi
  obtain ⟨m, hm, hpath⟩ := hi.shape
  have hlabel : ∀ a ∈ g.detached i, g.label a = .of (.detached i) :=
    fun a ha => (hi.detached a).mpr ha
  have hother := relabel_other (x := .of .to_be_deleted) hlabel
  refine h.of_frame (p := .delete_old r v) rfl ?_ ?_ ?_ (by rw [hpc]; rfl) (by rintro _ ⟨⟩) ?_
  · refine Frame.of_relabel (x := .of .to_be_deleted) ?_ trivial (by rintro _ ⟨⟩) (by rintro ⟨⟩) rfl
      ?_ rfl
      (fun _ _ => rfl) rfl
    · intro a ha
      rw [hlabel a ha]
      rfl
    · exact fun j hji => Function.update_of_ne hji ..
  · have hmem := h.mem.chain (i := i) (p := .delete_old r v) (o := .detached i)
      (Function.update g.detached i []) (hm ▸ hlabel) (by rintro ⟨⟩) (hm ▸ hi.nodup) hpath hlast
    rw [← hm] at hmem
    exact hmem
  · refine { new := ?_, old := ?_, detached := ?_, nodup := ?_, shape := ?_, refs := ?_,
             held := by rintro _ ⟨⟩, cas := by rintro _ _ ⟨⟩, data := by simp, res := hi.res }
    · exact fun a => (hother (.push i) (by rintro ⟨⟩) (by rintro ⟨⟩) a).trans (hi.new a)
    · exact fun a => (hother (.of (.pop i)) (by rintro ⟨⟩) (by rintro ⟨⟩) a).trans (hi.old a)
    · intro a
      refine
        (relabel_eq_iff (x := .of .to_be_deleted) (y := .of (.detached i)) (by rintro ⟨⟩)).trans ?_
      rw [hi.detached]
      simp
    · simp
    · exact Function.update_self ..
    · rintro r' (hr | hr | hr | hr)
      · exact absurd hr (by rintro ⟨⟩)
      · exact hi.refs r' (Or.inr (Or.inl hr))
      · exact absurd hr (by rintro ⟨⟩)
      · exact absurd hr (by rintro ⟨⟩)
  · rintro a (ha | ⟨ha, -⟩)
    · rw [hpc]
      exact Or.inl (Or.inl ha)
    · exact absurd ha (by rintro ⟨⟩)

/-- A thread chains the node that it has popped. -/
theorem Inv.chain_single (h : Inv g s) {first last : Ref A} {v : Option V}
    (hpc : s.pc i = .chain_cas first last .dec v) (hlast : s.to_be_deleted = s.next last.addr) :
    Inv { g with
        label := relabel g.label [last.addr] (.of .to_be_deleted)
        pending := [last.addr] ++ g.pending }
      { s.goto i (.dec_end v) with to_be_deleted := some first.addr } := by
  have hi := h.threads i
  rw [hpc] at hi
  obtain ⟨hempty, rfl⟩ := hi.shape
  have hlabel : g.label first.addr = .of (.pop i) := (hi.old first.addr).mpr rfl
  have hother := relabel_other (x := .of .to_be_deleted) (List.forall_mem_singleton.mpr hlabel)
  refine h.of_frame (p := .dec_end v) rfl ?_ ?_ ?_ (by rw [hpc]; rfl) (by rintro _ ⟨⟩) ?_
  · refine Frame.of_relabel (x := .of .to_be_deleted) ?_ trivial (by rintro _ ⟨⟩) (by rintro ⟨⟩) rfl
      (fun _ _ => rfl) rfl (fun _ _ => rfl) rfl
    simp [hlabel, Label.Of]
  · exact h.mem.chain (m := []) (o := .pop i) g.detached (by simpa using hlabel) (by rintro ⟨⟩)
      (List.nodup_singleton _) rfl hlast
  · refine { new := ?_, old := ?_, detached := ?_, nodup := hi.nodup, shape := hempty, refs := ?_,
             held := by rintro _ ⟨⟩, cas := by rintro _ _ ⟨⟩, data := by simp, res := hi.res }
    · exact fun a => (hother (.push i) (by rintro ⟨⟩) (by rintro ⟨⟩) a).trans (hi.new a)
    · intro a
      refine (relabel_eq_iff (x := .of .to_be_deleted) (y := .of (.pop i)) (by rintro ⟨⟩)).trans ?_
      rw [hi.old]
      simp [Pc.old, eq_comm]
    · exact fun a => (hother (.of (.detached i)) (by rintro ⟨⟩) (by rintro ⟨⟩) a).trans
        (hi.detached a)
    · rintro r' (hr | hr | hr | hr) <;> exact absurd hr (by rintro ⟨⟩)
  · rintro a (ha | ⟨ha, -⟩) <;> exact absurd ha (by rintro ⟨⟩)

/-! ## The step lemma -/

/-- The next step of a thread keeps the invariant. -/
theorem inv_stepThread (h : Inv g s) (hstep : s.stepThread i = some t) : ∃ g', Inv g' t := by
  have hi := h.threads i
  unfold Stack.stepThread at hstep
  cases hpc : s.pc i <;> simp only [hpc, reduceCtorEq, Option.some.injEq] at hstep <;>
    rw [hpc] at hi
  case push_next data r =>
    -- push
    subst hstep
    exact ⟨g, h.push_store hpc (Or.inl rfl)⟩
  case push_cas data r =>
    split at hstep <;> obtain rfl := Option.some.inj hstep
    case isTrue hhead => exact ⟨_, h.push_cas hpc hhead⟩
    case isFalse => exact ⟨g, h.push_store hpc (Or.inr rfl)⟩
  case pop_inc =>
    -- pop: from here on the thread is counted in `threads_in_pop`
    subst hstep
    refine ⟨g, h.local WritesOwn.refl (fun _ _ => rfl) ?_ (by simp [hpc, Pc.counted])
      (by rintro _ ⟨⟩) (by rintro _ (h | ⟨h, -⟩) <;> cases h)⟩
    exact hi.move WritesOwn.refl rfl ⟨rfl, rfl⟩ rfl (by rintro _ ⟨⟩) hi.shape rfl rfl
  case load_head =>
    cases hhead : s.head <;> simp only [hhead, Option.some.injEq] at hstep <;> subst hstep
    case none =>
      refine ⟨g, h.local WritesOwn.refl (fun _ _ => rfl) ?_ (by rw [hpc]; rfl) (by rintro _ ⟨⟩)
        (by rintro _ (h | ⟨h, -⟩) <;> cases h)⟩
      exact hi.move WritesOwn.refl rfl ⟨rfl, rfl⟩ rfl (by rintro _ ⟨⟩) hi.shape rfl rfl
    case some a => exact ⟨g, h.load_head hpc hhead⟩
  case null_dec | dec_end =>
    subst hstep
    exact ⟨g, h.ret hi hpc rfl rfl hi.shape rfl rfl⟩
  case read_next r =>
    subst hstep
    exact ⟨g, h.read_next hpc⟩
  case cas_head r n =>
    -- the CAS makes the node this thread's own
    split at hstep <;> obtain rfl := Option.some.inj hstep
    case isTrue hhead => exact ⟨_, h.pop_cas hpc hhead⟩
    case isFalse => exact ⟨g, h.retry hpc⟩
  case swap r =>
    subst hstep
    exact ⟨g, h.swap hpc⟩
  case check r v =>
    -- try_reclaim: whether it was alone is read twice, before and after the exchange
    subst hstep
    split
    case isTrue hone => exact ⟨g, h.check_alone hpc hone⟩
    case isFalse => exact ⟨g, h.check_others hpc⟩
  case exchange r v =>
    subst hstep
    exact ⟨_, h.exchange hpc⟩
  case dec r nodes v =>
    subst hstep
    split
    case isTrue hzero => exact ⟨g, h.dec_alone hpc hzero⟩
    case isFalse => exact ⟨g, h.dec_others hpc⟩
  case delete_old r v =>
    subst hstep
    exact ⟨_, h.delete_old hpc⟩
  case delete_next n r v =>
    -- delete_nodes
    subst hstep
    exact ⟨g, h.delete_next hpc⟩
  case delete_node n rest r v =>
    subst hstep
    exact h.delete_node hpc
  case walk first last r v =>
    -- chain_pending_nodes
    cases hnext : s.next last.addr <;> simp only [hnext, Option.some.injEq] at hstep <;> subst hstep
    case none => exact ⟨g, h.walk_end hpc hnext⟩
    case some a => exact ⟨g, h.walk_next hpc hnext⟩
  case chain_next first last k v =>
    subst hstep
    exact ⟨g, h.chain_store hpc (Or.inl rfl)⟩
  case chain_cas first last k v =>
    split at hstep <;> obtain rfl := Option.some.inj hstep
    case isTrue hlast =>
      cases k with
      | delete_old r => exact ⟨_, h.chain_detached hpc hlast⟩
      | dec => exact ⟨_, h.chain_single hpc hlast⟩
    case isFalse => exact ⟨g, h.chain_store hpc (Or.inr rfl)⟩

/-- **The step lemma.** -/
theorem inv_step (s : Stack ι A V) (a : Action ι A V) (t : Stack ι A V) (h : ∃ g, Inv g s)
    (hstep : (system ι A V).step s a = some t) : ∃ g, Inv g t := by
  obtain ⟨g, h⟩ := h
  change s.step a = some t at hstep
  cases a with
  | push i v a =>
      unfold Stack.step at hstep
      cases hpc : s.pc i <;> simp only [hpc, reduceCtorEq] at hstep
      by_cases hlive : (s.heap a).live = true
      · rw [if_pos hlive] at hstep
        exact absurd hstep (by rintro ⟨⟩)
      · rw [if_neg hlive, Option.some.injEq] at hstep
        subst hstep
        exact ⟨_, h.new_node hpc (Bool.eq_false_iff.mpr hlive)⟩
  | pop i =>
      have hi := h.threads i
      unfold Stack.step at hstep
      cases hpc : s.pc i <;> simp only [hpc, reduceCtorEq, Option.some.injEq] at hstep
      subst hstep
      rw [hpc] at hi
      refine ⟨g, h.local WritesOwn.refl (fun _ _ => rfl) ?_ (by rw [hpc]; rfl) (by rintro _ ⟨⟩)
        (by rintro _ (h | ⟨h, -⟩) <;> cases h)⟩
      exact hi.move WritesOwn.refl rfl ⟨rfl, rfl⟩ rfl (by rintro _ ⟨⟩) hi.shape rfl rfl
  | step i => exact inv_stepThread h hstep
  | spurious i =>
      have hi := h.threads i
      unfold Stack.step at hstep
      cases hpc : s.pc i <;> simp only [hpc, reduceCtorEq, Option.some.injEq] at hstep <;>
        subst hstep <;> rw [hpc] at hi
      case push_cas v r => exact ⟨g, h.push_store hpc (Or.inr rfl)⟩
      case cas_head r n => exact ⟨g, h.retry hpc⟩
      case chain_cas first last k v => exact ⟨g, h.chain_store hpc (Or.inr rfl)⟩

theorem inv_init : Inv {} (system ι A V).init where
  mem := {
    live := fun _ => by simp [system]
    popped := (by rintro _ ⟨⟩)
    stack := rfl
    stack_nodup := List.nodup_nil
    stack_label := fun _ => by simp
    pending := rfl
    pending_nodup := List.nodup_nil
    pending_label := fun _ => by simp
    lifo := ⟨[], Lifo.nil, rfl⟩ }
  count := by simp [system, Pc.counted]
  threads := by
    intro i
    refine { new := fun _ => by simp [system, Pc.new], old := fun _ => by simp [system, Pc.old],
             detached := fun _ => by simp, nodup := List.nodup_nil, shape := rfl, refs := ?_,
             held := by rintro _ ⟨⟩, cas := by rintro _ _ ⟨⟩,
             data := (by rintro _ _ (h | h) <;> cases h), res := rfl }
    rintro r (hr | hr | hr | hr) <;> exact absurd hr (by rintro ⟨⟩)
  unheld := fun i a _ j => (by rintro ⟨⟩)

end BoostNet.LockFreeStack
