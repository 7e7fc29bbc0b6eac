/-
Every step of `hazard_pointer_stack` keeps the invariant.

A thread is bare, and has nothing but its slot, or it has a node that it has popped, or cells;
there is one lemma for what has to be shown of each kind, and one for the steps that write
nothing but what is the thread's own (`Inv.quiet`).
-/
import BoostNet.HazardPointerStackInv

set_option autoImplicit false

namespace BoostNet.HazardPointerStack

open Heap
open LockFreeStack (Ev Lifo pushed poppedBy poppedBy_pop)

variable {ι A B V : Type*} [DecidableEq ι] [Fintype ι] {g g' : Ghost ι A B} {s t : Stack ι A B V}
  {i j : ι} {p q : Pc A B V} {r : Ref A} {c : Ref B} {a : A} {b : B} {m : Slot}

/-! ## Threads that have nothing -/

/-- The thread has no node and no cell. -/
def Pc.bare : Pc A B V → Bool
  | .idle | .bind _ | .unbind_pointer _ | .unbind_id _ | .ended | .load_head _ | .publish _ _
  | .recheck _ _ | .read_next _ _ | .cas_head _ _ _ | .exchange _ => true
  | .clear _ o => o.isNone
  | _ => false

structure Pc.Bare (p : Pc A B V) : Prop where
  own : p.own = none
  spare : p.spare = none
  cells : p.cells = []
  later : p.later = none
  target : p.target = none
  unseen : p.unseen = none
  fresh : p.fresh = none
  detached : ∀ next l, p.Detached next l ↔ l = []

omit [DecidableEq ι] [Fintype ι] in
theorem Pc.bare_spec (hp : p.bare = true) : p.Bare := by
  cases p with
  | clear hp' o =>
      obtain rfl := Option.isNone_iff_eq_none.mp hp
      exact ⟨rfl, rfl, rfl, rfl, rfl, rfl, rfl, fun _ _ => Iff.rfl⟩
  | idle | bind | unbind_pointer | unbind_id | ended | load_head | publish | recheck | read_next
  | cas_head | exchange => exact ⟨rfl, rfl, rfl, rfl, rfl, rfl, rfl, fun _ _ => Iff.rfl⟩
  | _ => cases hp

structure Ghost.Nothing (g : Ghost ι A B) (i : ι) : Prop where
  node : ∀ a, g.node a ≠ .thread i
  spare : ∀ b, g.cell b ≠ .spare i
  cell : ∀ b, g.cell b ≠ .detached i
  detached : g.detached i = []

omit [Fintype ι] in
/-- A thread that is between its calls has nothing of its own. -/
theorem ThreadOk.nothing (h : ThreadOk g s i q) (hq : q.bare = true) : g.Nothing i := by
  have hbare := Pc.bare_spec hq
  have hd : g.detached i = [] := (hbare.detached _ _).mp h.detached
  refine ⟨fun a ha => ?_, fun b hb => ?_, fun b hb => ?_, hd⟩
  · rw [← h.own_at, Pc.owns, hbare.own] at ha
    cases ha
  · rw [← h.spare_at, hbare.spare] at hb
    cases hb
  · rw [← h.detached_at, hd] at hb
    cases hb

omit [Fintype ι] in
/-- What has to be shown of a thread that has nothing. -/
theorem ThreadOk.of_bare (hp : p.bare = true) (hg : g.Nothing i)
    (hslot : ∀ m, p.slot = some m → s.hazzard i = some m)
    (hpub : ∀ m o, p.published = some (m, o) → s.pointer m = o)
    (hguard : ∀ m r, p.guard = some (m, r) → Valid s.heap r)
    (hcas : ∀ m r n, p = .cas_head m r n → s.next r.addr = n)
    (hres : poppedBy i s.history = s.returned i ++ (p.res s.data).toList) : ThreadOk g s i p := by
  have hbare := Pc.bare_spec hp
  have hnone : ∀ {r}, p.own ≠ some r := by
    rw [hbare.own]
    rintro r ⟨⟩
  exact
    { own_at := fun a => by
        rw [Pc.owns, hbare.own]
        exact iff_of_false (by rintro ⟨⟩) (hg.node a)
      own_valid := fun r hr => absurd hr hnone
      fresh := fun r hr => absurd (Pc.own_of_fresh hr) hnone
      old := fun r hr => absurd (Pc.own_of_old hr) hnone
      spare_at := fun b => by
        rw [hbare.spare]
        exact iff_of_false (by rintro ⟨⟩) (hg.spare b)
      later := fun c r hc => by
        rw [hbare.later] at hc
        cases hc
      detached := (hbare.detached _ _).mpr hg.detached
      detached_nodup := hg.detached ▸ List.nodup_nil
      detached_at := fun b => by
        rw [hg.detached]
        exact iff_of_false List.not_mem_nil (hg.cell b)
      cells_valid := fun c hc => by
        rw [hbare.cells] at hc
        exact absurd hc List.not_mem_nil
      target := fun d c hc => by
        rw [hbare.target] at hc
        cases hc
      slot := hslot
      published := hpub
      guard_valid := hguard
      data := by rintro v r (rfl | rfl) <;> cases hp
      cas := hcas
      res := hres }

/-! ## Slots -/

/-- A thread goes on, and slots and threads stay bound as they are. -/
theorem SlotsOk.move (h : SlotsOk s) (hq : s.pc i ≠ .ended)
    (hbind : ∀ k, p = .bind k → s.hazzard i = none ∧ ∀ m < k, ∃ j, s.hazzard j = some m)
    (hpc : t.pc = Function.update s.pc i p)
    (hid : ∀ m, (t.hazard_pointers m).id = (s.hazard_pointers m).id)
    (hhazzard : t.hazzard = s.hazzard) (hthrown : t.Slots) : SlotsOk t where
  id_of := by
    intro j m hj hended
    rw [hhazzard] at hj
    rw [hid]
    refine h.id_of j m hj fun heq => ?_
    by_cases hji : j = i
    · exact hq (hji ▸ heq)
    · rw [hpc, Function.update_of_ne hji] at hended
      exact hended heq
  of_id := by
    intro j m hj
    rw [hid] at hj
    rw [hhazzard]
    exact h.of_id j m hj
  bind := by
    intro j k hj
    rw [hhazzard]
    by_cases hji : j = i
    · rw [hji, hpc, Function.update_self] at hj
      rw [hji]
      exact hbind k hj
    · rw [hpc, Function.update_of_ne hji] at hj
      exact h.bind j k hj
  thrown := hthrown

omit [DecidableEq ι] [Fintype ι] in
theorem setPointer_id {o : Option A} (m' : Slot) :
    (s.setPointer m o m').id = (s.hazard_pointers m').id := by
  by_cases hm : m' = m
  · rw [hm, Stack.setPointer, Function.update_self]
  · rw [Stack.setPointer, Function.update_of_ne hm]

omit [DecidableEq ι] [Fintype ι] in
theorem setPointer_self {o : Option A} : (s.setPointer m o m).pointer = o := by
  rw [Stack.setPointer, Function.update_self]

omit [DecidableEq ι] [Fintype ι] in
theorem setPointer_of_ne {o : Option A} {m' : Slot} (hm : m' ≠ m) :
    (s.setPointer m o m').pointer = s.pointer m' := by
  rw [Stack.setPointer, Function.update_of_ne hm]
  rfl

/-! ## Steps that write only what is the thread's own -/

structure Quiet (g : Ghost ι A B) (s t : Stack ι A B V) (i : ι) : Prop where
  live : ∀ a, (t.heap a).live = (s.heap a).live
  gen : ∀ a, (t.heap a).gen = (s.heap a).gen
  next : ∀ a, (s.pc i).fresh.map Ref.addr ≠ some a → t.next a = s.next a
  data : ∀ a, g.node a ≠ .thread i → t.data a = s.data a
  cell_live : ∀ b, (t.cells b).live = (s.cells b).live
  cell_gen : ∀ b, (t.cells b).gen = (s.cells b).gen
  cell_data : ∀ b, t.cellData b = s.cellData b
  cell_next : ∀ b, g.cell b ≠ .detached i → g.cell b ≠ .spare i → t.cellNext b = s.cellNext b
  pointer : ∀ m, (s.pc i).slot ≠ some m → t.pointer m = s.pointer m
  hazzard : ∀ j, j ≠ i → t.hazzard j = s.hazzard j
  head : t.head = s.head
  nodes_to_reclaim : t.nodes_to_reclaim = s.nodes_to_reclaim
  popped : t.popped = s.popped
  deleted : t.deleted = s.deleted
  history : t.history = s.history
  returned : ∀ j, j ≠ i → t.returned j = s.returned j

/-- The rule for such a step. -/
theorem Inv.quiet (h : Inv g s) (hw : Quiet g s t i) (hpc : t.pc = Function.update s.pc i p)
    (hslots : SlotsOk t) (hi : ThreadOk g t i p)
    (hguard : ∀ m r, p.guard = some (m, r) →
      (s.pc i).guard = some (m, r) ∨ g.node r.addr = .stack)
    (hunseen : ∀ a n, p.unseen = some (a, n) → ∀ j, j ≠ i → ∀ m r,
      (s.pc j).guard = some (m, r) → r.addr = a → n ≤ m.val) : Inv g t := by
  have hnext : ∀ a ∈ g.stack, t.next a = s.next a := by
    refine fun a ha => hw.next a fun hfresh => ?_
    obtain ⟨r, hr, rfl⟩ := Option.map_eq_some_iff.mp hfresh
    exact ((h.threads i).with_own (Pc.own_of_fresh hr)).ne_stack ((h.mem.stack_at _).mp ha)
  have hcell : ∀ b ∈ g.reclaim, t.cellNext b = s.cellNext b := by
    intro b hb
    have hat := (h.mem.reclaim_at b).mp hb
    refine hw.cell_next b ?_ ?_ <;> rw [hat] <;> rintro ⟨⟩
  have href : ∀ a, ref t.heap a = ref s.heap a := fun a => congrArg (Ref.mk a) (hw.gen a)
  refine h.of_frame (p := p) (i := i)
    { thread_at := fun _ _ _ => Iff.rfl, detached := fun _ _ => rfl
      detached_at := fun _ _ _ => Iff.rfl, spare_at := fun _ _ _ => Iff.rfl
      valid := fun r hr => Or.inl (hr.congr (hw.live _) (hw.gen _))
      next := fun a _ => hw.next a, data := fun a _ => hw.data a
      cell_valid := fun c hc => Or.inl (hc.congr (hw.cell_live _) (hw.cell_gen _))
      cell_next := fun b _ => hw.cell_next b, cell_data := fun b _ => hw.cell_data b
      pointer := hw.pointer, hazzard := hw.hazzard
      popped := by rw [hw.popped]; exact fun _ => id
      added := by rw [hw.popped]; exact fun _ => Or.inl
      history := fun j _ => by rw [hw.history], returned := hw.returned } hpc
    { live := fun a => by rw [hw.live]; exact h.mem.live a
      cell_live := fun b => by rw [hw.cell_live]; exact h.mem.cell_live b
      stack := by rw [hw.head]; exact h.mem.stack.congr hnext
      stack_nodup := h.mem.stack_nodup, stack_at := h.mem.stack_at
      reclaim := by rw [hw.nodes_to_reclaim]; exact h.mem.reclaim.congr hcell
      reclaim_nodup := h.mem.reclaim_nodup, reclaim_at := h.mem.reclaim_at
      data_at := fun a b => by rw [hw.cell_data]; exact h.mem.data_at a b
      data_some := fun b hb => by
        obtain ⟨a, ha⟩ := h.mem.data_some b hb
        exact ⟨a, (hw.cell_data b).trans ha⟩
      unpopped := fun a ha => by rw [href, hw.popped]; exact h.mem.unpopped a ha
      retired := fun a b hb => by rw [href, hw.popped]; exact h.mem.retired a b hb
      lifo := ?_ }
    (by rw [hw.popped, hw.deleted]; exact h.log.congr hw.live hw.gen) hslots hi hguard hunseen
  obtain ⟨l, hl, hmap⟩ := h.mem.lifo
  refine ⟨l, hw.history ▸ hl, ?_⟩
  rw [← hmap]
  refine List.map_congr_left fun a ha => hw.data a fun hat => ?_
  cases hat.symm.trans ((h.mem.stack_at a).mp ha)

omit [DecidableEq ι] [Fintype ι] in
/-- The heap is not written. -/
theorem Quiet.of_eq (hheap : t.heap = s.heap) (hcells : t.cells = s.cells) (hhead : t.head = s.head)
    (hlist : t.nodes_to_reclaim = s.nodes_to_reclaim) (hpopped : t.popped = s.popped)
    (hdeleted : t.deleted = s.deleted) (hhistory : t.history = s.history)
    (hpointer : ∀ m, (s.pc i).slot ≠ some m → t.pointer m = s.pointer m)
    (hhazzard : ∀ j, j ≠ i → t.hazzard j = s.hazzard j)
    (hreturned : ∀ j, j ≠ i → t.returned j = s.returned j) : Quiet g s t i where
  live a := by rw [hheap]
  gen a := by rw [hheap]
  next a _ := by rw [Stack.next, hheap]; rfl
  data a _ := by rw [Stack.data, hheap]; rfl
  cell_live b := by rw [hcells]
  cell_gen b := by rw [hcells]
  cell_data b := by rw [Stack.cellData, hcells]; rfl
  cell_next b _ _ := by rw [Stack.cellNext, hcells]; rfl
  pointer := hpointer
  hazzard := hhazzard
  head := hhead
  nodes_to_reclaim := hlist
  popped := hpopped
  deleted := hdeleted
  history := hhistory
  returned := hreturned

/-- A thread that has nothing goes on with nothing. -/
theorem Inv.bare_step (h : Inv g s) (hq : s.pc i = q) (hqb : q.bare = true) (hpb : p.bare = true)
    (hw : Quiet g s t i) (hpc : t.pc = Function.update s.pc i p) (hslots : SlotsOk t)
    (hslot : ∀ m, p.slot = some m → t.hazzard i = some m)
    (hpub : ∀ m o, p.published = some (m, o) → t.pointer m = o)
    (hguard : ∀ m r, p.guard = some (m, r) →
      q.guard = some (m, r) ∨ g.node r.addr = .stack ∧ Valid s.heap r)
    (hcas : ∀ m r n, p = .cas_head m r n → t.next r.addr = n)
    (hres : t.returned i ++ (p.res t.data).toList = s.returned i ++ (q.res s.data).toList) :
    Inv g t := by
  have hok := h.threads i
  rw [hq] at hok
  refine h.quiet hw hpc hslots
    (ThreadOk.of_bare hpb (hok.nothing hqb) hslot hpub (fun m r hr => ?_) hcas ?_) ?_ ?_
  · have hvalid : Valid s.heap r := (hguard m r hr).elim (hok.guard_valid m r) fun hs => hs.2
    exact hvalid.congr (hw.live _) (hw.gen _)
  · rw [hw.history, hres]
    exact hok.res
  · intro m r hr
    rw [hq]
    exact (hguard m r hr).imp id And.left
  · intro a n hp
    rw [(Pc.bare_spec hpb).unseen] at hp
    cases hp

/-! ## The slot of a thread -/

/-- `pop` is called, by a thread that has a slot. -/
theorem Inv.pop_bound (h : Inv g s) (hq : s.pc i = .idle) (hm : s.hazzard i = some m) :
    Inv g (s.goto i (.load_head m)) := by
  refine h.bare_step (p := .load_head m) hq rfl rfl
    (.of_eq rfl rfl rfl rfl rfl rfl rfl (fun _ _ => rfl) (fun _ _ => rfl) fun _ _ => rfl) rfl
    (h.slots.move (i := i) (p := .load_head m) (by rw [hq]; rintro ⟨⟩) (by rintro k ⟨⟩) rfl
      (fun _ => rfl) rfl h.slots.thrown) ?_ (by rintro m o ⟨⟩) (by rintro m r ⟨⟩)
    (by rintro m r n ⟨⟩) rfl
  rintro m' ⟨⟩
  exact hm

/-- `pop` is called for the first time. -/
theorem Inv.pop_unbound (h : Inv g s) (hq : s.pc i = .idle) (hm : s.hazzard i = none) :
    Inv g (s.goto i (.bind Slot.first)) := by
  refine h.bare_step (p := .bind Slot.first) hq rfl rfl
    (.of_eq rfl rfl rfl rfl rfl rfl rfl (fun _ _ => rfl) (fun _ _ => rfl) fun _ _ => rfl) rfl
    (h.slots.move (i := i) (p := .bind Slot.first) (by rw [hq]; rintro ⟨⟩) ?_ rfl (fun _ => rfl)
      rfl h.slots.thrown)
    (by rintro m ⟨⟩) (by rintro m o ⟨⟩) (by rintro m r ⟨⟩) (by rintro m r n ⟨⟩) rfl
  rintro k ⟨⟩
  exact ⟨hm, fun m hlt => absurd hlt (Nat.not_lt_zero _)⟩

omit [DecidableEq ι] [Fintype ι] in
/-- The slots of the array are gone through in their order. -/
theorem Slot.next_val {k k' : Slot} (h : k.next = some k') : k'.val = k.val + 1 := by
  unfold Slot.next at h
  split at h
  · exact (congrArg Fin.val (Option.some.inj h)).symm
  · cases h

omit [DecidableEq ι] [Fintype ι] in
theorem Slot.next_none {k : Slot} (h : k.next = none) : k.val + 1 = max_hazard_pointers := by
  unfold Slot.next at h
  split at h
  · cases h
  · have hk := k.isLt
    omega

omit [DecidableEq ι] in
/-- The slots before the one that is taken, and this one, were found taken. -/
theorem SlotsOk.taken (h : SlotsOk s) {k : Slot} (hq : s.pc i = .bind k)
    (hid : (s.hazard_pointers k).id ≠ none) (hm : m ≤ k) : ∃ j, s.hazzard j = some m := by
  rcases Nat.lt_or_eq_of_le hm with hlt | heq
  · exact (h.bind i k hq).2 m hlt
  · obtain rfl := Fin.ext heq
    obtain ⟨j, hj⟩ := Option.ne_none_iff_exists'.mp hid
    exact ⟨j, h.of_id j m hj⟩

/-- The next slot. -/
theorem Inv.bind_next (h : Inv g s) {k k' : Slot} (hq : s.pc i = .bind k)
    (hid : (s.hazard_pointers k).id ≠ none) (hnext : k.next = some k') :
    Inv g (s.goto i (.bind k')) := by
  refine h.bare_step (p := .bind k') hq rfl rfl
    (.of_eq rfl rfl rfl rfl rfl rfl rfl (fun _ _ => rfl) (fun _ _ => rfl) fun _ _ => rfl) rfl
    (h.slots.move (i := i) (p := .bind k') (by rw [hq]; rintro ⟨⟩) ?_ rfl (fun _ => rfl) rfl
      h.slots.thrown)
    (by rintro m ⟨⟩) (by rintro m o ⟨⟩) (by rintro m r ⟨⟩) (by rintro m r n ⟨⟩) rfl
  rintro k'' ⟨⟩
  refine ⟨(h.slots.bind i k hq).1, fun m hlt => h.slots.taken hq hid ?_⟩
  have hval := Slot.next_val hnext
  change m.val < k'.val at hlt
  change m.val ≤ k.val
  omega

/-- No slot was free. There are more threads than slots. -/
theorem Inv.bind_throw (h : Inv g s) {k : Slot} (hq : s.pc i = .bind k)
    (hid : (s.hazard_pointers k).id ≠ none) (hnext : k.next = none) :
    Inv g { s.goto i .idle with thrown := i :: s.thrown } := by
  refine h.bare_step (p := .idle) hq rfl rfl
    (.of_eq rfl rfl rfl rfl rfl rfl rfl (fun _ _ => rfl) (fun _ _ => rfl) fun _ _ => rfl) rfl
    (h.slots.move (i := i) (p := .idle) (by rw [hq]; rintro ⟨⟩) (by rintro k ⟨⟩) rfl
      (fun _ => rfl) rfl fun hcard => ?_)
    (by rintro m ⟨⟩) (by rintro m o ⟨⟩) (by rintro m r ⟨⟩) (by rintro m r n ⟨⟩) rfl
  -- every slot belongs to another thread
  have hlast := Slot.next_none hnext
  have htaken : ∀ m : Slot, ∃ j, s.hazzard j = some m :=
    fun m => h.slots.taken hq hid (by change m.val ≤ k.val; have := m.isLt; omega)
  choose f hf using htaken
  have hinj : Function.Injective f := fun m m' heq =>
    Option.some.inj ((hf m).symm.trans (heq ▸ hf m'))
  have hni : ∀ m, f m ≠ i := fun m heq => by
    have hnone := (h.slots.bind i k hq).1
    rw [← heq, hf m] at hnone
    cases hnone
  have hlt : Fintype.card Slot < Fintype.card ι :=
    Fintype.card_lt_of_injective_of_notMem f hinj (b := i) fun ⟨m, hm⟩ => hni m hm
  rw [Fintype.card_fin] at hlt
  exact absurd hcard (Nat.not_le.mpr hlt)

omit [DecidableEq ι] [Fintype ι] in
theorem setId_self {o : Option ι} : (s.setId m o m).id = o := by
  rw [Stack.setId, Function.update_self]

omit [DecidableEq ι] [Fintype ι] in
theorem setId_of_ne {o : Option ι} {m' : Slot} (hm : m' ≠ m) :
    s.setId m o m' = s.hazard_pointers m' := Function.update_of_ne hm ..

omit [DecidableEq ι] [Fintype ι] in
theorem setId_pointer {o : Option ι} (m' : Slot) :
    (s.setId m o m').pointer = s.pointer m' := by
  by_cases hm : m' = m
  · rw [hm, Stack.setId, Function.update_self]
    rfl
  · rw [setId_of_ne hm]
    rfl

/-- A slot is free, and the thread takes it. -/
theorem Inv.bind_slot (h : Inv g s) {k : Slot} (hq : s.pc i = .bind k)
    (hid : (s.hazard_pointers k).id = none) :
    Inv g { s.goto i (.load_head k) with
      hazard_pointers := s.setId k (some i)
      hazzard := Function.update s.hazzard i (some k) } := by
  have hnone := (h.slots.bind i k hq).1
  have hne : ∀ {j : ι} {m : Slot}, s.hazzard j = some m → j ≠ i := by
    rintro j m hj rfl
    rw [hnone] at hj
    cases hj
  refine h.bare_step (p := .load_head k) hq rfl rfl
    (.of_eq rfl rfl rfl rfl rfl rfl rfl (fun m _ => setId_pointer m)
      (fun j hj => Function.update_of_ne hj ..) fun _ _ => rfl) rfl
    { id_of := ?_, of_id := ?_, bind := ?_, thrown := h.slots.thrown }
    ?_ (by rintro m o ⟨⟩) (by rintro m r ⟨⟩) (by rintro m r n ⟨⟩) rfl
  · intro j m hj hended
    by_cases hji : j = i
    · subst hji
      change Function.update s.hazzard j (some k) j = some m at hj
      rw [Function.update_self] at hj
      obtain rfl := Option.some.inj hj
      exact setId_self
    · change Function.update s.hazzard i (some k) j = some m at hj
      change Function.update s.pc i (.load_head k) j ≠ _ at hended
      rw [Function.update_of_ne hji] at hj hended
      have hold := h.slots.id_of j m hj hended
      have hmk : m ≠ k := fun heq => by
        rw [heq, hid] at hold
        cases hold
      change (s.setId k (some i) m).id = some j
      rw [setId_of_ne hmk]
      exact hold
  · intro j m hj
    change (s.setId k (some i) m).id = some j at hj
    change Function.update s.hazzard i (some k) j = some m
    by_cases hmk : m = k
    · subst hmk
      rw [setId_self] at hj
      obtain rfl := Option.some.inj hj
      rw [Function.update_self]
    · rw [setId_of_ne hmk] at hj
      have hold := h.slots.of_id j m hj
      rw [Function.update_of_ne (hne hold)]
      exact hold
  · intro j k' hj
    change Function.update s.pc i (.load_head k) j = .bind k' at hj
    by_cases hji : j = i
    · rw [hji, Function.update_self] at hj
      cases hj
    · rw [Function.update_of_ne hji] at hj
      obtain ⟨hjn, htaken⟩ := h.slots.bind j k' hj
      refine ⟨(Function.update_of_ne hji ..).trans hjn, fun m hm => ?_⟩
      obtain ⟨u, hu⟩ := htaken m hm
      exact ⟨u, (Function.update_of_ne (hne hu) ..).trans hu⟩
  · rintro m ⟨⟩
    exact Function.update_self ..

/-- A thread that has no slot ends. -/
theorem Inv.exit_unbound (h : Inv g s) (hq : s.pc i = .idle) :
    Inv g (s.goto i .ended) :=
  h.bare_step (p := .ended) hq rfl rfl
    (.of_eq rfl rfl rfl rfl rfl rfl rfl (fun _ _ => rfl) (fun _ _ => rfl) fun _ _ => rfl) rfl
    (h.slots.move (i := i) (p := .ended) (by rw [hq]; rintro ⟨⟩) (by rintro k ⟨⟩) rfl
      (fun _ => rfl) rfl h.slots.thrown)
    (by rintro m ⟨⟩) (by rintro m o ⟨⟩) (by rintro m r ⟨⟩) (by rintro m r n ⟨⟩) rfl

/-- A thread ends, and has a slot to give back. -/
theorem Inv.exit_bound (h : Inv g s) (hq : s.pc i = .idle) (hm : s.hazzard i = some m) :
    Inv g (s.goto i (.unbind_pointer m)) := by
  refine h.bare_step (p := .unbind_pointer m) hq rfl rfl
    (.of_eq rfl rfl rfl rfl rfl rfl rfl (fun _ _ => rfl) (fun _ _ => rfl) fun _ _ => rfl) rfl
    (h.slots.move (i := i) (p := .unbind_pointer m) (by rw [hq]; rintro ⟨⟩) (by rintro k ⟨⟩) rfl
      (fun _ => rfl) rfl h.slots.thrown)
    ?_ (by rintro m o ⟨⟩) (by rintro m r ⟨⟩) (by rintro m r n ⟨⟩) rfl
  rintro m' ⟨⟩
  exact hm

/-- The slot is free again. -/
theorem Inv.unbind_id (h : Inv g s) (hq : s.pc i = .unbind_id m) :
    Inv g { s.goto i .ended with hazard_pointers := s.setId m none } := by
  have hm : s.hazzard i = some m := (h.threads i).slot m (by rw [hq]; rfl)
  have hid := h.slots.id_of i m hm (by rw [hq]; rintro ⟨⟩)
  refine h.bare_step (p := .ended) hq rfl rfl
    (.of_eq rfl rfl rfl rfl rfl rfl rfl (fun m _ => setId_pointer m) (fun _ _ => rfl)
      fun _ _ => rfl) rfl
    { id_of := ?_, of_id := ?_, bind := ?_, thrown := h.slots.thrown }
    (by rintro m ⟨⟩) (by rintro m o ⟨⟩) (by rintro m r ⟨⟩) (by rintro m r n ⟨⟩) rfl
  · intro j m' hj hended
    change Function.update s.pc i .ended j ≠ _ at hended
    by_cases hji : j = i
    · rw [hji, Function.update_self] at hended
      exact absurd rfl hended
    · rw [Function.update_of_ne hji] at hended
      have hold := h.slots.id_of j m' hj hended
      have hmm : m' ≠ m := fun heq => by
        rw [heq, hid] at hold
        exact hji (Option.some.inj hold).symm
      change (s.setId m none m').id = some j
      rw [setId_of_ne hmm]
      exact hold
  · intro j m' hj
    change (s.setId m none m').id = some j at hj
    by_cases hmm : m' = m
    · rw [hmm, setId_self] at hj
      cases hj
    · rw [setId_of_ne hmm] at hj
      exact h.slots.of_id j m' hj
  · intro j k hj
    change Function.update s.pc i .ended j = .bind k at hj
    by_cases hji : j = i
    · rw [hji, Function.update_self] at hj
      cases hj
    · rw [Function.update_of_ne hji] at hj
      exact h.slots.bind j k hj

/-! ## The loop of `pop` -/

/-- A thread in the loop goes on in it, and writes nothing. -/
theorem Inv.loop_step (h : Inv g s) (hq : s.pc i = q) (hqb : q.bare = true) (hpb : p.bare = true)
    (hslot : ∀ m, p.slot = some m → q.slot = some m) (hbind : ∀ k, p ≠ .bind k)
    (hpub : ∀ m o, p.published = some (m, o) → q.published = some (m, o))
    (hguard : ∀ m r, p.guard = some (m, r) →
      q.guard = some (m, r) ∨ g.node r.addr = .stack ∧ Valid s.heap r)
    (hcas : ∀ m r n, p = .cas_head m r n → s.next r.addr = n)
    (hres : p.res s.data = q.res s.data) (hended : q ≠ .ended) : Inv g (s.goto i p) := by
  have hok := h.threads i
  rw [hq] at hok
  exact h.bare_step hq hqb hpb
    (.of_eq rfl rfl rfl rfl rfl rfl rfl (fun _ _ => rfl) (fun _ _ => rfl) fun _ _ => rfl) rfl
    (h.slots.move (by rw [hq]; exact hended) (fun k hk => absurd hk (hbind k)) rfl (fun _ => rfl)
      rfl h.slots.thrown)
    (fun m hm => hok.slot m (hslot m hm)) (fun m o ho => hok.published m o (hpub m o ho)) hguard
    hcas (congrArg (fun o => s.returned i ++ o.toList) hres)

/-- The thread has found its node at the head. So it is in the stack, and `next` may be read. -/
theorem Inv.recheck (h : Inv g s) (hq : s.pc i = .recheck m (some a)) (hhead : s.head = some a) :
    Inv g (s.goto i (.read_next m (ref s.heap a))) := by
  have hmem : a ∈ g.stack := by
    have hpath := h.mem.stack
    rw [hhead] at hpath
    exact hpath.head_mem
  have hat := (h.mem.stack_at a).mp hmem
  have hlive : (s.heap a).live = true := by
    rw [h.mem.live, hat]
    rintro ⟨⟩
  refine h.loop_step hq rfl rfl (fun _ => id) (by rintro k ⟨⟩) (fun _ _ => id) ?_
    (by rintro m r n ⟨⟩) rfl (by rintro ⟨⟩)
  rintro m' r' ⟨⟩
  exact Or.inr ⟨hat, valid_ref hlive⟩

/-- A thread writes its slot. -/
theorem Inv.set_pointer (h : Inv g s) {o : Option A} {ret : ι → List V} (hq : s.pc i = q)
    (hqb : q.bare = true) (hpb : p.bare = true) (hqm : q.slot = some m)
    (hslot : ∀ m', p.slot = some m' → m' = m) (hbind : ∀ k, p ≠ .bind k)
    (hpub : ∀ m' o', p.published = some (m', o') → m' = m ∧ o' = o) (hguard : p.guard = none)
    (hret : ∀ j, j ≠ i → ret j = s.returned j)
    (hres : ret i ++ (p.res s.data).toList = s.returned i ++ (q.res s.data).toList) :
    Inv g { s.goto i p with hazard_pointers := s.setPointer m o, returned := ret } := by
  have hok := h.threads i
  rw [hq] at hok
  have hended : s.pc i ≠ .ended := by
    rw [hq]
    rintro rfl
    cases hqm
  refine h.bare_step hq hqb hpb (.of_eq rfl rfl rfl rfl rfl rfl rfl ?_ (fun _ _ => rfl) hret) rfl
    (h.slots.move hended (fun k hk => absurd hk (hbind k)) rfl setPointer_id rfl h.slots.thrown)
    ?_ ?_ ?_ ?_ hres
  · intro m' hm
    rw [hq, hqm] at hm
    exact setPointer_of_ne fun heq => hm (congrArg some heq.symm)
  · intro m' hm'
    rw [hslot m' hm']
    exact hok.slot m hqm
  · intro m' o' ho
    obtain ⟨rfl, rfl⟩ := hpub m' o' ho
    exact setPointer_self
  · intro m' r hr
    rw [hguard] at hr
    cases hr
  · rintro m' r n rfl
    cases hguard

/-! ## Threads that have a node -/

structure Pc.NoCells (p : Pc A B V) : Prop where
  spare : p.spare = none
  cells : p.cells = []
  later : p.later = none
  target : p.target = none
  detached : ∀ next l, p.Detached next l ↔ l = []

/-- A thread that has a node has no cells, but for the one that it has made for the node. -/
theorem Pc.noCells_of_own (hown : p.own = some r) (hspare : p.spare = none) : p.NoCells := by
  cases p with
  | add_next c k v | add_cas c k v =>
      cases k with
      | later _ => cases hspare
      | loop _ => cases hown
  | _ => first | exact ⟨rfl, rfl, rfl, rfl, fun _ _ => Iff.rfl⟩ | cases hown

structure Ghost.NoCells (g : Ghost ι A B) (i : ι) : Prop where
  spare : ∀ b, g.cell b ≠ .spare i
  cell : ∀ b, g.cell b ≠ .detached i
  detached : g.detached i = []

omit [Fintype ι] in
theorem ThreadOk.noCells (h : ThreadOk g s i q) (hq : q.NoCells) : g.NoCells i := by
  have hd : g.detached i = [] := (hq.detached _ _).mp h.detached
  refine ⟨fun b hb => ?_, fun b hb => ?_, hd⟩
  · rw [← h.spare_at, hq.spare] at hb
    cases hb
  · rw [← h.detached_at, hd] at hb
    cases hb

omit [Fintype ι] in
/-- What has to be shown of a thread that has the node `r`, and no cell. -/
theorem ThreadOk.of_own (hspare : p.spare = none) (hg : g.NoCells i) (hown : p.own = some r)
    (hat : ∀ a, g.node a = .thread i ↔ a = r.addr) (hvalid : Valid s.heap r)
    (hkind : p.fresh = some r ∧ p.old = none ∧ r ∉ s.popped ∨
      p.fresh = none ∧ p.old = some r ∧ r ∈ s.popped)
    (hslot : ∀ m, p.slot = some m → s.hazzard i = some m) (hpub : p.published = none)
    (hguard : p.guard = none)
    (hdata : ∀ v r, p = .push_next v r ∨ p = .push_cas v r → s.data r.addr = some v)
    (hres : poppedBy i s.history = s.returned i ++ (p.res s.data).toList) : ThreadOk g s i p where
  own_at := by
    intro a
    rw [Pc.owns_of_own hown, hat, Option.some.injEq, eq_comm]
  own_valid := by
    intro r' hr'
    obtain rfl := Option.some.inj (hown.symm.trans hr')
    exact hvalid
  fresh := by
    intro r' hr'
    obtain ⟨hf, -, hnot⟩ | ⟨hf, -⟩ := hkind
    · obtain rfl := Option.some.inj (hf.symm.trans hr')
      exact hnot
    · cases hf.symm.trans hr'
  old := by
    intro r' hr'
    obtain ⟨-, ho, -⟩ | ⟨-, ho, hmem⟩ := hkind
    · cases ho.symm.trans hr'
    · obtain rfl := Option.some.inj (ho.symm.trans hr')
      exact hmem
  spare_at := by
    intro b
    rw [hspare]
    exact iff_of_false (by rintro ⟨⟩) (hg.spare b)
  later := by
    intro c r' hc
    cases (Pc.noCells_of_own hown hspare).later.symm.trans hc
  detached := ((Pc.noCells_of_own hown hspare).detached _ _).mpr hg.detached
  detached_nodup := hg.detached ▸ List.nodup_nil
  detached_at := by
    intro b
    rw [hg.detached]
    exact iff_of_false List.not_mem_nil (hg.cell b)
  cells_valid := by
    rw [(Pc.noCells_of_own hown hspare).cells]
    exact fun c hc => absurd hc List.not_mem_nil
  target := by
    intro d c hc
    cases (Pc.noCells_of_own hown hspare).target.symm.trans hc
  slot := hslot
  published := by
    intro m o ho
    cases hpub.symm.trans ho
  guard_valid := by
    intro m r' hr'
    cases hguard.symm.trans hr'
  data := hdata
  cas := by
    rintro m r' n rfl
    cases hguard
  res := hres

/-! ## `push` -/

section Push

variable [DecidableEq A]

omit [DecidableEq A] in
/-- A node that is not there has no label. -/
theorem Inv.node_at_dead (h : Inv g s) (hdead : (s.heap a).live = false) :
    g.node a = .nowhere := by
  by_contra hne
  rw [(h.mem.live a).mpr hne] at hdead
  cases hdead

/-- `new node`, at an address that is not in use. -/
theorem Inv.new_node (h : Inv g s) {v : V} (hq : s.pc i = .idle)
    (hdead : (s.heap a).live = false) :
    Inv { g with node := Function.update g.node a (.thread i) }
      { s.goto i (.push_next v (ref (alloc s.heap a ⟨some v, none⟩) a)) with
        heap := alloc s.heap a ⟨some v, none⟩ } := by
  have hok := h.threads i
  rw [hq] at hok
  have hnow := h.node_at_dead hdead
  have hno := hok.nothing rfl
  have hne : ∀ {b}, (s.heap b).live = true → b ≠ a := by
    rintro b hb rfl
    rw [hdead] at hb
    cases hb
  have heq : ∀ {b}, (s.heap b).live = true → alloc s.heap a ⟨some v, none⟩ b = s.heap b :=
    fun hb => alloc_of_ne (hne hb)
  have hlive : (alloc s.heap a (⟨some v, none⟩ : Node A V) a).live = true :=
    congrArg Cell.live alloc_self
  refine h.of_frame (p := .push_next v (ref (alloc s.heap a ⟨some v, none⟩) a)) (i := i)
    { thread_at := ?_, detached := fun _ _ => rfl, detached_at := fun _ _ _ => Iff.rfl
      spare_at := fun _ _ _ => Iff.rfl, valid := fun r hr => Or.inl (hr.of_eq (heq hr.1))
      next := fun b hb _ => congrArg (fun c => c.val.next) (heq hb)
      data := fun b hb _ => congrArg (fun c => c.val.data) (heq hb)
      cell_valid := fun c hc => Or.inl hc, cell_next := fun _ _ _ _ => rfl
      cell_data := fun _ _ => rfl, pointer := fun _ _ => rfl, hazzard := fun _ _ => rfl
      popped := fun _ => id, added := fun _ => Or.inl, history := fun _ _ => rfl
      returned := fun _ _ => rfl } rfl
    { toNodes := h.mem.toNodes.alloc hdead (by rintro ⟨⟩) (by rintro ⟨⟩)
      toCells := h.mem.toCells, data_at := ?_, retired := ?_ }
    (h.log.alloc hdead)
    (h.slots.move (i := i) (by rw [hq]; rintro ⟨⟩) (by rintro k ⟨⟩) rfl (fun _ => rfl) rfl
      h.slots.thrown)
    (ThreadOk.of_own (r := ref (alloc s.heap a ⟨some v, none⟩) a)
      rfl ⟨hno.spare, hno.cell, hno.detached⟩ rfl ?_
      (valid_ref hlive) (Or.inl ⟨rfl, rfl, h.log.new⟩) (by rintro m ⟨⟩) rfl rfl ?_ hok.res)
    (by rintro m r ⟨⟩) ?_
  · exact fun j hj b => update_eq_iff (fun heq => hj (NodeAt.thread.inj heq).symm)
      (by rw [hnow]; rintro ⟨⟩)
  · exact fun b c => (update_eq_iff (by rintro ⟨⟩) (by rw [hnow]; rintro ⟨⟩)).trans
      (h.mem.data_at b c)
  · intro b c hb
    have hold := (update_eq_iff (by rintro ⟨⟩) (by rw [hnow]; rintro ⟨⟩)).mp hb
    have hl : (s.heap b).live = true := (h.mem.live b).mpr (by rw [hold]; rintro ⟨⟩)
    change Ref.mk b (alloc s.heap a _ b).gen ∈ s.popped
    rw [heq hl]
    exact h.mem.retired b c hold
  · intro b
    by_cases hb : b = a
    · rw [hb]
      exact iff_of_true (Function.update_self ..) rfl
    · change Function.update g.node a (.thread i) b = _ ↔ _
      rw [Function.update_of_ne hb]
      exact iff_of_false (hno.node b) hb
  · rintro v' r (hr | hr) <;> cases hr
    change (alloc s.heap a _ a).val.data = some v
    rw [alloc_self]
  · rintro b n ⟨⟩ j - m r hr haddr
    have hl := ((h.threads j).guard_valid m r hr).1
    rw [haddr] at hl
    exact absurd rfl (hne hl)

omit [DecidableEq ι] [Fintype ι] in
/-- A thread writes its new node, or the data of its own. -/
theorem Quiet.store {v : Node A V} (hheap : t.heap = store s.heap a v)
    (hnext : (s.pc i).fresh.map Ref.addr = some a ∨ v.next = s.next a)
    (hdata : g.node a = .thread i ∨ v.data = s.data a) (hcells : t.cells = s.cells)
    (hhead : t.head = s.head) (hlist : t.nodes_to_reclaim = s.nodes_to_reclaim)
    (hpopped : t.popped = s.popped) (hdeleted : t.deleted = s.deleted)
    (hhistory : t.history = s.history) (hpointers : t.hazard_pointers = s.hazard_pointers)
    (hhazzard : t.hazzard = s.hazzard) (hreturned : t.returned = s.returned) :
    Quiet g s t i where
  live b := by
    rw [hheap]
    by_cases hb : b = a
    · rw [hb, store_self]
    · rw [store_of_ne hb]
  gen b := by
    rw [hheap]
    by_cases hb : b = a
    · rw [hb, store_self]
    · rw [store_of_ne hb]
  next b hb := by
    rw [Stack.next, hheap]
    by_cases hba : b = a
    · rw [hba, store_self]
      exact hnext.resolve_left fun heq => hb (hba ▸ heq)
    · rw [store_of_ne hba]
      rfl
  data b hb := by
    rw [Stack.data, hheap]
    by_cases hba : b = a
    · rw [hba, store_self]
      exact hdata.resolve_left fun heq => hb (hba ▸ heq)
    · rw [store_of_ne hba]
      rfl
  cell_live b := by rw [hcells]
  cell_gen b := by rw [hcells]
  cell_data b := by rw [Stack.cellData, hcells]; rfl
  cell_next b _ _ := by rw [Stack.cellNext, hcells]; rfl
  pointer m _ := by rw [Stack.pointer, hpointers]; rfl
  hazzard j _ := by rw [hhazzard]
  head := hhead
  nodes_to_reclaim := hlist
  popped := hpopped
  deleted := hdeleted
  history := hhistory
  returned j _ := by rw [hreturned]

/-- A push makes its node point to the head. -/
theorem Inv.push_store (h : Inv g s) {v : V} (hq : s.pc i = q)
    (hp : q = .push_next v r ∨ q = .push_cas v r) :
    Inv g { s.goto i (.push_cas v r) with heap := s.setNext r.addr s.head } := by
  have hok := h.threads i
  rw [hq] at hok
  have hown : q.own = some r := by rcases hp with rfl | rfl <;> rfl
  have hfresh : q.fresh = some r := by rcases hp with rfl | rfl <;> rfl
  have hno : q.NoCells := Pc.noCells_of_own hown (by rcases hp with rfl | rfl <;> rfl)
  have hunseen : q.unseen = some (r.addr, max_hazard_pointers) := Pc.unseen_of_fresh hfresh
  have hres : poppedBy i s.history = s.returned i ++ (q.res s.data).toList := hok.res
  have hw : Quiet g s { s.goto i (.push_cas v r) with heap := s.setNext r.addr s.head } i :=
    .store rfl (Or.inl (by rw [hq, hfresh]; rfl)) (Or.inr rfl) rfl rfl rfl rfl rfl rfl rfl rfl rfl
  refine h.quiet (p := .push_cas v r) hw rfl
    (h.slots.move (i := i) (by rw [hq]; rcases hp with rfl | rfl <;> rintro ⟨⟩) (by rintro k ⟨⟩) rfl
      (fun _ => rfl) rfl h.slots.thrown)
    (ThreadOk.of_own rfl (hok.noCells hno) rfl ?_
      ((hok.own_valid r hown).congr (hw.live _) (hw.gen _))
      (Or.inl ⟨rfl, rfl, hok.fresh r hfresh⟩) (by rintro m ⟨⟩) rfl rfl ?_ ?_)
    (by rintro m r' ⟨⟩) ?_
  · intro a
    rw [← hok.own_at, Pc.owns_of_own hown, Option.some.injEq, eq_comm]
  · rintro v' r' (hr | hr) <;> cases hr
    change (store s.heap r.addr _ r.addr).val.data = some v
    rw [store_self]
    exact hok.data v r hp
  · rcases hp with rfl | rfl <;> exact hres
  · rintro b n ⟨⟩ j - m r' hr haddr
    exact absurd haddr (h.unguarded (hq ▸ hunseen) hr)

/-- A push links its node. -/
theorem Inv.push_cas (h : Inv g s) {v : V} (hq : s.pc i = .push_cas v r)
    (hhead : s.head = s.next r.addr) :
    Inv { g with node := Function.update g.node r.addr .stack, stack := r.addr :: g.stack }
      { s.goto i .idle with
        head := some r.addr
        history := s.history ++ [.push v] } := by
  have hok := h.threads i
  rw [hq] at hok
  have hat : g.node r.addr = .thread i := (hok.own_at _).mp rfl
  have hvalid := hok.own_valid r rfl
  have hno := hok.noCells (Pc.noCells_of_own rfl rfl)
  have hmine : ∀ a, g.node a = .thread i → a = r.addr := fun a ha =>
    (Option.some.inj ((hok.own_at a).mpr ha)).symm
  have hnodes := h.mem.toNodes.push (a := r.addr) (v := v) (by rw [hat]; rintro ⟨⟩)
    (by rw [hat]; rintro ⟨⟩) hhead.symm (hok.data v r (Or.inr rfl))
    (by rw [hvalid.ref_eq]; exact hok.fresh r rfl)
  refine h.of_frame (p := .idle) (i := i)
    { thread_at := ?_, detached := fun _ _ => rfl, detached_at := fun _ _ _ => Iff.rfl
      spare_at := fun _ _ _ => Iff.rfl, valid := fun r hr => Or.inl hr
      next := fun _ _ _ => rfl, data := fun _ _ _ => rfl
      cell_valid := fun c hc => Or.inl hc, cell_next := fun _ _ _ _ => rfl
      cell_data := fun _ _ => rfl, pointer := fun _ _ => rfl, hazzard := fun _ _ => rfl
      popped := fun _ => id, added := fun _ => Or.inl
      history := fun _ _ => LockFreeStack.poppedBy_push .., returned := fun _ _ => rfl } rfl
    { toNodes := hnodes, toCells := h.mem.toCells, data_at := ?_, retired := ?_ }
    h.log
    (h.slots.move (i := i) (by rw [hq]; rintro ⟨⟩) (by rintro k ⟨⟩) rfl (fun _ => rfl) rfl
      h.slots.thrown)
    (ThreadOk.of_bare rfl ⟨?_, hno.spare, hno.cell, hno.detached⟩ (by rintro m ⟨⟩)
      (by rintro m o ⟨⟩) (by rintro m r ⟨⟩) (by rintro m r n ⟨⟩) ?_)
    (by rintro m r ⟨⟩) (by rintro b n ⟨⟩)
  · exact fun j hj b => update_eq_iff (by rintro ⟨⟩)
      (by rw [hat]; exact fun heq => hj (NodeAt.thread.inj heq).symm)
  · exact fun b c => (update_eq_iff (by rintro ⟨⟩) (by rw [hat]; rintro ⟨⟩)).trans
      (h.mem.data_at b c)
  · exact fun b c hb => h.mem.retired b c
      ((update_eq_iff (by rintro ⟨⟩) (by rw [hat]; rintro ⟨⟩)).mp hb)
  · intro b hb
    by_cases hba : b = r.addr
    · rw [hba] at hb
      change Function.update g.node r.addr .stack r.addr = _ at hb
      rw [Function.update_self] at hb
      cases hb
    · change Function.update g.node r.addr .stack b = _ at hb
      rw [Function.update_of_ne hba] at hb
      exact hba (hmine b hb)
  · exact (LockFreeStack.poppedBy_push ..).trans hok.res

end Push

/-! ## The node that was popped -/

/-- A pop takes the first node of the stack. -/
theorem Inv.pop_cas [DecidableEq A] (h : Inv g s) {n : Option A} (hq : s.pc i = .cas_head m r n)
    (hhead : s.head = some r.addr) :
    ∃ stack', Inv { g with node := Function.update g.node r.addr (.thread i), stack := stack' }
      { s.goto i (.clear m (some r)) with
        head := n
        popped := r :: s.popped
        history := s.history ++ [.pop i (s.data r.addr)] } := by
  have hok := h.threads i
  rw [hq] at hok
  have hvalid := hok.guard_valid m r rfl
  have hn : s.next r.addr = n := hok.cas m r n rfl
  have hno := hok.nothing rfl
  have hnodes := h.mem.toNodes
  rw [hhead] at hnodes
  obtain ⟨rest, v, hstack, hv, hnodes'⟩ :=
    hnodes.pop (x := .thread i) i (by rintro ⟨⟩) (by rintro ⟨⟩)
  have hat : g.node r.addr = .stack :=
    (h.mem.stack_at _).mp (by rw [hstack]; exact List.mem_cons_self)
  have hnot : r ∉ s.popped := by
    have hun := h.mem.unpopped _ hat
    rwa [hvalid.ref_eq] at hun
  rw [hvalid.ref_eq, show (s.heap r.addr).val.next = n from hn] at hnodes'
  rw [show s.data r.addr = some v from hv]
  refine ⟨rest, h.of_frame (p := .clear m (some r)) (i := i)
    { thread_at := ?_, detached := fun _ _ => rfl, detached_at := fun _ _ _ => Iff.rfl
      spare_at := fun _ _ _ => Iff.rfl, valid := fun r hr => Or.inl hr
      next := fun _ _ _ => rfl, data := fun _ _ _ => rfl
      cell_valid := fun c hc => Or.inl hc, cell_next := fun _ _ _ _ => rfl
      cell_data := fun _ _ => rfl, pointer := fun _ _ => rfl, hazzard := fun _ _ => rfl
      popped := fun _ => List.mem_cons_of_mem _, added := ?_, history := ?_
      returned := fun _ _ => rfl } rfl
    { toNodes := hnodes', toCells := h.mem.toCells, data_at := ?_, retired := ?_ }
    (h.log.retire hvalid hnot)
    (h.slots.move (i := i) (by rw [hq]; rintro ⟨⟩) (by rintro k ⟨⟩) rfl (fun _ => rfl) rfl
      h.slots.thrown)
    (ThreadOk.of_own (r := r) rfl
      ⟨hno.spare, hno.cell, hno.detached⟩ rfl ?_ hvalid
      (Or.inr ⟨rfl, rfl, List.mem_cons_self⟩) (by rintro m' ⟨⟩; exact hok.slot m rfl) rfl rfl
      (by rintro v r (⟨⟨⟩⟩ | ⟨⟨⟩⟩)) ?_)
    (by rintro m r ⟨⟩) (by rintro b n ⟨⟩)⟩
  · exact fun j hj b => update_eq_iff (fun heq => hj (NodeAt.thread.inj heq).symm)
      (by rw [hat]; rintro ⟨⟩)
  · intro r' hr'
    rcases List.mem_cons.mp hr' with rfl | hr'
    · exact Or.inr hat
    · exact Or.inl hr'
  · intro j hj
    change poppedBy j (s.history ++ [Ev.pop i (some v)]) = _
    rw [poppedBy_pop, if_neg (Ne.symm hj), List.append_nil]
  · exact fun b c => (update_eq_iff (by rintro ⟨⟩) (by rw [hat]; rintro ⟨⟩)).trans
      (h.mem.data_at b c)
  · exact fun b c hb => List.mem_cons_of_mem _ (h.mem.retired b c
      ((update_eq_iff (by rintro ⟨⟩) (by rw [hat]; rintro ⟨⟩)).mp hb))
  · intro b
    by_cases hb : b = r.addr
    · rw [hb]
      exact iff_of_true (Function.update_self ..) rfl
    · change Function.update g.node r.addr (.thread i) b = _ ↔ _
      rw [Function.update_of_ne hb]
      exact iff_of_false (hno.node b) hb
  · change poppedBy i (s.history ++ [Ev.pop i (some v)]) = s.returned i ++ (s.data r.addr).toList
    rw [poppedBy_pop, if_pos rfl, hok.res, show s.data r.addr = some v from hv]
    exact congrArg (· ++ [v]) (List.append_nil _)

/-- A thread that has popped a node goes on with it. -/
theorem Inv.old_step (h : Inv g s) (hq : s.pc i = q) (hw : Quiet g s t i)
    (hqs : q.spare = none) (hps : p.spare = none) (hqo : q.own = some r) (hqf : q.fresh = none)
    (hpf : p.fresh = none) (hpo : p.old = some r)
    (hslot : p.slot = none) (hpub : p.published = none) (hguard : p.guard = none)
    (hpc : t.pc = Function.update s.pc i p) (hslots : SlotsOk t)
    (hunseen : ∀ a n, p.unseen = some (a, n) → ∀ j, j ≠ i → ∀ m r',
      (s.pc j).guard = some (m, r') → r'.addr = a → n ≤ m.val)
    (hres : t.returned i ++ (p.res t.data).toList = s.returned i ++ (q.res s.data).toList) :
    Inv g t := by
  have hok := h.threads i
  rw [hq] at hok
  have hold : q.old = some r := (Pc.own_cases hqo).resolve_left (by rw [hqf]; rintro ⟨⟩)
  refine h.quiet hw hpc hslots
    (ThreadOk.of_own hps (hok.noCells (Pc.noCells_of_own hqo hqs)) (Pc.own_of_old hpo) ?_
      ((hok.own_valid r hqo).congr (hw.live _) (hw.gen _))
      (Or.inr ⟨hpf, hpo, by rw [hw.popped]; exact hok.old r hold⟩) ?_ hpub hguard ?_ ?_) ?_ hunseen
  · intro a
    rw [← hok.own_at, Pc.owns_of_own hqo, Option.some.injEq, eq_comm]
  · intro m hm
    cases hslot.symm.trans hm
  · rintro v r' (rfl | rfl) <;> cases hpf
  · rw [hw.history, hres]
    exact hok.res
  · intro m r' hr'
    cases hguard.symm.trans hr'

/-- `hp.store(nullptr)`, after a node was popped. -/
theorem Inv.clear_some (h : Inv g s) (hq : s.pc i = .clear m (some r)) :
    Inv g { s.goto i (.swap r) with hazard_pointers := s.setPointer m none } := by
  refine h.old_step (r := r) (p := .swap r) hq
    (.of_eq rfl rfl rfl rfl rfl rfl rfl ?_ (fun _ _ => rfl) fun _ _ => rfl)
    rfl rfl rfl rfl rfl rfl rfl rfl rfl rfl
    (h.slots.move (i := i) (by rw [hq]; rintro ⟨⟩) (by rintro k ⟨⟩) rfl setPointer_id rfl
      h.slots.thrown) (by rintro b n ⟨⟩) rfl
  intro m' hm
  rw [hq] at hm
  exact setPointer_of_ne fun heq => hm (congrArg some heq.symm)

/-- `res.swap(old_head->data)`. -/
theorem Inv.swap [DecidableEq A] (h : Inv g s) (hq : s.pc i = .swap r) :
    Inv g { s.goto i (.check_old r Slot.first (s.data r.addr)) with
      heap := store s.heap r.addr { (s.heap r.addr).val with data := none } } := by
  have hat : g.node r.addr = .thread i := ((h.threads i).own_at _).mp (by rw [hq]; rfl)
  refine h.old_step (r := r) (p := .check_old r Slot.first (s.data r.addr)) hq
    (.store rfl (Or.inr rfl) (Or.inl hat) rfl rfl rfl rfl rfl rfl rfl rfl rfl)
    rfl rfl rfl rfl rfl rfl rfl rfl rfl rfl
    (h.slots.move (i := i) (by rw [hq]; rintro ⟨⟩) (by rintro k ⟨⟩) rfl (fun _ => rfl) rfl
      h.slots.thrown) ?_ rfl
  rintro b n ⟨⟩ j - m r' - -
  exact Nat.zero_le _

omit [DecidableEq ι] [Fintype ι] in
/-- One round of the loop: the slot has the pointer, or the next slot is looked at, or there is
none. -/
theorem check_cases [DecidableEq A] {P : Pc A B V → Prop} {o : Option A} {k : Slot}
    {found unused : Pc A B V} {again : Slot → Pc A B V} (hfound : P found)
    (hagain : s.pointer k ≠ o → ∀ k', k'.val = k.val + 1 → P (again k'))
    (hunused : s.pointer k ≠ o → k.val + 1 = max_hazard_pointers → P unused) :
    P (s.check o k found again unused) := by
  unfold Stack.check
  split
  case isTrue => exact hfound
  case isFalse hne =>
    cases hnext : k.next with
    | none => exact hunused hne (Slot.next_none hnext)
    | some k' => exact hagain hne k' (Slot.next_val hnext)

/-- Who does not have the node in the slot that is looked at has it in a later one. -/
theorem Inv.unseen_next (h : Inv g s) {k : Slot} (hi : (s.pc i).unseen = some (a, k.val))
    (hk : s.pointer k ≠ some a) (hj : (s.pc j).guard = some (m, r)) (hr : r.addr = a) :
    k.val + 1 ≤ m.val := by
  have hle := h.unseen i j a _ m r hi hj hr
  have hpub := (h.threads j).published m (some r.addr) (Pc.published_of_guard hj)
  refine Nat.lt_of_le_of_ne hle fun heq => hk ?_
  obtain rfl : k = m := Fin.ext heq
  rw [hpub, hr]

/-- `outstanding_hazard_pointers_for(old_head)`. -/
theorem Inv.check_old [DecidableEq A] (h : Inv g s) {k : Slot} {v : Option V}
    (hq : s.pc i = .check_old r k v) :
    Inv g (s.goto i (s.check (some r.addr) k (.new_reclaim r v) (fun k' => .check_old r k' v)
      (.delete_old r v))) := by
  have hunseen : (s.pc i).unseen = some (r.addr, k.val) := by rw [hq]; rfl
  have hw : ∀ p : Pc A B V, Quiet g s (s.goto i p) i := fun p =>
    .of_eq rfl rfl rfl rfl rfl rfl rfl (fun _ _ => rfl) (fun _ _ => rfl) fun _ _ => rfl
  have hslots : ∀ p : Pc A B V, (∀ k, p ≠ .bind k) → SlotsOk (s.goto i p) := fun p hp =>
    h.slots.move (by rw [hq]; rintro ⟨⟩) (fun k hk => absurd hk (hp k)) rfl (fun _ => rfl) rfl
      h.slots.thrown
  refine check_cases (P := fun p => Inv g (s.goto i p)) ?_ (fun hne k' hk' => ?_) fun hne hk => ?_
  · exact h.old_step (p := .new_reclaim r v) hq (hw _) rfl rfl rfl rfl rfl rfl rfl rfl
      rfl rfl (hslots _ (by rintro k ⟨⟩)) (by rintro b n ⟨⟩) rfl
  · refine h.old_step (p := .check_old r k' v) hq (hw _) rfl rfl rfl rfl rfl rfl rfl
      rfl rfl rfl (hslots _ (by rintro k ⟨⟩)) ?_ rfl
    rintro b n ⟨⟩ j - m r' hr haddr
    rw [hk']
    exact h.unseen_next hunseen hne hr haddr
  · refine h.old_step (p := .delete_old r v) hq (hw _) rfl rfl rfl rfl rfl rfl rfl
      rfl rfl rfl (hslots _ (by rintro k ⟨⟩)) ?_ rfl
    rintro b n ⟨⟩ j - m r' hr haddr
    exact hk.ge.trans (h.unseen_next hunseen hne hr haddr)

/-- `delete old_head`. -/
theorem Inv.delete_old [DecidableEq A] (h : Inv g s) {v : Option V}
    (hq : s.pc i = .delete_old r v) :
    Inv { g with node := Function.update g.node r.addr .nowhere }
      { s.goto i (.exchange v) with
        heap := free s.heap r.addr
        deleted := r :: s.deleted } := by
  have hok := h.threads i
  rw [hq] at hok
  have hvalid := hok.own_valid r rfl
  have hat : g.node r.addr = .thread i := (hok.own_at _).mp rfl
  have hno := hok.noCells (Pc.noCells_of_own rfl rfl)
  have hmine : ∀ a, g.node a = .thread i → a = r.addr := fun a ha =>
    (Option.some.inj ((hok.own_at a).mpr ha)).symm
  refine h.of_frame (p := .exchange v) (i := i)
    { thread_at := ?_, detached := fun _ _ => rfl, detached_at := fun _ _ _ => Iff.rfl
      spare_at := fun _ _ _ => Iff.rfl, valid := ?_
      next := fun b _ _ => congrArg Node.next (free_same b).1
      data := fun b _ _ => congrArg Node.data (free_same b).1
      cell_valid := fun c hc => Or.inl hc, cell_next := fun _ _ _ _ => rfl
      cell_data := fun _ _ => rfl, pointer := fun _ _ => rfl, hazzard := fun _ _ => rfl
      popped := fun _ => id, added := fun _ => Or.inl, history := fun _ _ => rfl
      returned := fun _ _ => rfl } rfl
    { toNodes := h.mem.toNodes.free (by rw [hat]; rintro ⟨⟩), toCells := h.mem.toCells
      data_at := ?_, retired := ?_ }
    (h.log.free hvalid (hok.old r rfl))
    (h.slots.move (i := i) (by rw [hq]; rintro ⟨⟩) (by rintro k ⟨⟩) rfl (fun _ => rfl) rfl
      h.slots.thrown)
    (ThreadOk.of_bare rfl ⟨?_, hno.spare, hno.cell, hno.detached⟩ (by rintro m ⟨⟩)
      (by rintro m o ⟨⟩) (by rintro m r ⟨⟩) (by rintro m r n ⟨⟩) hok.res)
    (by rintro m r ⟨⟩) (by rintro b n ⟨⟩)
  · exact fun j hj b => update_eq_iff (by rintro ⟨⟩)
      (by rw [hat]; exact fun heq => hj (NodeAt.thread.inj heq).symm)
  · intro r' hr'
    by_cases heq : r' = r
    · exact Or.inr (by rw [hq, heq]; rfl)
    · exact Or.inl (hvalid.free hr' heq)
  · exact fun b c => (update_eq_iff (by rintro ⟨⟩) (by rw [hat]; rintro ⟨⟩)).trans
      (h.mem.data_at b c)
  · intro b c hb
    change Ref.mk b (free s.heap r.addr b).gen ∈ s.popped
    rw [(free_same b).2]
    exact h.mem.retired b c ((update_eq_iff (by rintro ⟨⟩) (by rw [hat]; rintro ⟨⟩)).mp hb)
  · intro b hb
    by_cases hba : b = r.addr
    · rw [hba] at hb
      change Function.update g.node r.addr .nowhere r.addr = _ at hb
      rw [Function.update_self] at hb
      cases hb
    · change Function.update g.node r.addr .nowhere b = _ at hb
      rw [Function.update_of_ne hba] at hb
      exact hba (hmine b hb)

/-! ## `reclaim_later` and `add_to_reclaim_list` -/

section Reclaim

variable [DecidableEq B]

/-- `new data_to_reclaim`, at an address that is not in use. -/
theorem Inv.new_reclaim (h : Inv g s) {v : Option V} (hq : s.pc i = .new_reclaim r v)
    (hdead : (s.cells b).live = false) :
    Inv { g with cell := Function.update g.cell b (.spare i) }
      { s.goto i (.add_next (ref (alloc s.cells b ⟨some r.addr, none⟩) b) (.later r) v) with
        cells := alloc s.cells b ⟨some r.addr, none⟩ } := by
  have hok := h.threads i
  rw [hq] at hok
  have hno := hok.noCells (Pc.noCells_of_own rfl rfl)
  have hnow : g.cell b = .nowhere := by
    by_contra hne
    rw [(h.mem.cell_live b).mpr hne] at hdead
    cases hdead
  have hne : ∀ {b'}, (s.cells b').live = true → b' ≠ b := by
    rintro b' hb' rfl
    rw [hdead] at hb'
    cases hb'
  have heq : ∀ {b'}, (s.cells b').live = true →
      alloc s.cells b ⟨some r.addr, none⟩ b' = s.cells b' := fun hb' => alloc_of_ne (hne hb')
  have hon : ∀ b', (Function.update g.cell b (.spare i) b').on = (g.cell b').on := by
    intro b'
    by_cases hb : b' = b
    · rw [hb, Function.update_self, hnow]
      rfl
    · rw [Function.update_of_ne hb]
  have hlive : (alloc s.cells b (⟨some r.addr, none⟩ : DataToReclaim A B) b).live = true :=
    congrArg Cell.live alloc_self
  refine h.of_frame (i := i)
    (p := .add_next (ref (alloc s.cells b ⟨some r.addr, none⟩) b) (.later r) v)
    { thread_at := fun _ _ _ => Iff.rfl, detached := fun _ _ => rfl
      detached_at := fun j _ b' => update_eq_iff (by rintro ⟨⟩) (by rw [hnow]; rintro ⟨⟩)
      spare_at := fun j hj b' => update_eq_iff (fun heq => hj (CellAt.spare.inj heq).symm)
        (by rw [hnow]; rintro ⟨⟩)
      valid := fun r hr => Or.inl hr, next := fun _ _ _ => rfl, data := fun _ _ _ => rfl
      cell_valid := fun c hc => Or.inl (hc.of_eq (heq hc.1))
      cell_next := fun b' hb' _ _ => congrArg (fun c => c.val.next) (heq hb')
      cell_data := fun b' hb' => congrArg (fun c => c.val.data) (heq hb')
      pointer := fun _ _ => rfl, hazzard := fun _ _ => rfl
      popped := fun _ => id, added := fun _ => Or.inl, history := fun _ _ => rfl
      returned := fun _ _ => rfl } rfl
    { toNodes := h.mem.toNodes
      toCells := h.mem.toCells.alloc hdead rfl (by rintro ⟨⟩)
      data_at := ?_, retired := h.mem.retired }
    h.log
    (h.slots.move (i := i) (by rw [hq]; rintro ⟨⟩) (by rintro k ⟨⟩) rfl (fun _ => rfl) rfl
      h.slots.thrown)
    { own_at := hok.own_at, own_valid := hok.own_valid, fresh := by rintro r ⟨⟩, old := hok.old
      spare_at := ?_, later := ?_, detached := hno.detached, detached_nodup := hok.detached_nodup
      detached_at := ?_, cells_valid := ?_, target := by rintro d c ⟨⟩, slot := by rintro m ⟨⟩
      published := by rintro m o ⟨⟩, guard_valid := by rintro m r ⟨⟩
      data := by rintro v r (⟨⟨⟩⟩ | ⟨⟨⟩⟩), cas := by rintro m r n ⟨⟩, res := hok.res }
    (by rintro m r ⟨⟩) (by rintro b n ⟨⟩)
  · intro a b'
    change _ ↔ (Function.update g.cell b (.spare i) b').on = true ∧ _
    rw [hon]
    refine (h.mem.data_at a b').trans (and_congr_right fun hb' => ?_)
    have hl : (s.cells b').live = true :=
      (h.mem.cell_live b').mpr fun hno => by rw [hno] at hb'; cases hb'
    change _ ↔ (alloc s.cells b _ b').val.data = some a
    rw [heq hl]
    rfl
  · intro b'
    change some b = some b' ↔ Function.update g.cell b (.spare i) b' = _
    rw [Option.some.injEq]
    by_cases hb : b' = b
    · rw [hb]
      exact iff_of_true rfl (Function.update_self ..)
    · rw [Function.update_of_ne hb]
      exact iff_of_false (Ne.symm hb) (hno.spare b')
  · rintro c r' ⟨⟩
    change (alloc s.cells b _ b).val.data = _
    rw [alloc_self]
  · exact fun b' => (hok.detached_at b').trans
      (update_eq_iff (by rintro ⟨⟩) (by rw [hnow]; rintro ⟨⟩)).symm
  · intro c hc
    obtain rfl := List.mem_singleton.mp hc
    exact valid_ref hlive

omit [DecidableEq ι] [Fintype ι] in
theorem setCellNext_same {o : Option B} (b' : B) :
    (s.setCellNext b o b').live = (s.cells b').live ∧
      (s.setCellNext b o b').gen = (s.cells b').gen ∧
      (s.setCellNext b o b').val.data = s.cellData b' := by
  by_cases hb : b' = b
  · rw [hb, Stack.setCellNext, store_self]
    exact ⟨rfl, rfl, rfl⟩
  · rw [Stack.setCellNext, store_of_ne hb]
    exact ⟨rfl, rfl, rfl⟩

omit [Fintype ι] [DecidableEq B] in
/-- Once `next` is written the CAS may put the cell on the list. -/
theorem ThreadOk.add_cas {k : After A B} {v : Option V} (h : ThreadOk g s i (.add_next c k v)) :
    ThreadOk g s i (.add_cas c k v) where
  own_at := h.own_at
  own_valid := h.own_valid
  fresh := h.fresh
  old := h.old
  spare_at := by cases k <;> exact h.spare_at
  later := by cases k <;> exact h.later
  detached := h.detached
  detached_nodup := h.detached_nodup
  detached_at := h.detached_at
  cells_valid := h.cells_valid
  target := h.target
  slot := h.slot
  published := h.published
  guard_valid := h.guard_valid
  data := by rintro v r (⟨⟨⟩⟩ | ⟨⟨⟩⟩)
  cas := by rintro m r n ⟨⟩
  res := h.res

omit [Fintype ι] [DecidableEq B] in
/-- The cell in hand is the thread's own, or the first one of the list that it has. -/
theorem ThreadOk.in_hand {k : After A B} {v : Option V} (h : ThreadOk g s i (.add_cas c k v)) :
    g.cell c.addr = .spare i ∨ ∃ m, g.detached i = c.addr :: m := by
  cases k with
  | later r => exact Or.inl ((h.spare_at _).mp rfl)
  | loop rest =>
      obtain ⟨m, hm, -⟩ := h.detached
      exact Or.inr ⟨m, hm⟩

/-- The cell in hand is made to point to the first one of the list. -/
theorem Inv.add_store (h : Inv g s) {k : After A B} {v : Option V} (hq : s.pc i = q)
    (hp : q = .add_next c k v ∨ q = .add_cas c k v) :
    Inv g { s.goto i (.add_cas c k v) with cells := s.setCellNext c.addr s.nodes_to_reclaim } := by
  have hok := h.threads i
  rw [hq] at hok
  replace hok : ThreadOk g s i (.add_cas c k v) := by
    rcases hp with rfl | rfl
    · exact hok.add_cas
    · exact hok
  have hsame := fun b' => setCellNext_same (s := s) (b := c.addr) (o := s.nodes_to_reclaim) b'
  have hnext : ∀ b', b' ≠ c.addr →
      (s.setCellNext c.addr s.nodes_to_reclaim b').val.next = s.cellNext b' := by
    intro b' hb'
    rw [Stack.setCellNext, store_of_ne hb']
    rfl
  have hhand := hok.in_hand
  refine h.quiet (p := .add_cas c k v) (i := i)
    { live := fun _ => rfl, gen := fun _ => rfl, next := fun _ _ => rfl, data := fun _ _ => rfl
      cell_live := fun b' => (hsame b').1, cell_gen := fun b' => (hsame b').2.1
      cell_data := fun b' => (hsame b').2.2
      cell_next := fun b' hd hs => hnext b' fun heq => ?_
      pointer := fun _ _ => rfl, hazzard := fun _ _ => rfl, head := rfl, nodes_to_reclaim := rfl
      popped := rfl, deleted := rfl, history := rfl, returned := fun _ _ => rfl } rfl
    (h.slots.move (i := i) (by rw [hq]; rcases hp with rfl | rfl <;> rintro ⟨⟩) (by rintro k ⟨⟩) rfl
      (fun _ => rfl) rfl h.slots.thrown)
    { own_at := hok.own_at, own_valid := hok.own_valid, fresh := hok.fresh, old := hok.old
      spare_at := hok.spare_at, later := ?_, detached := ?_, detached_nodup := hok.detached_nodup
      detached_at := hok.detached_at, cells_valid := ?_, target := by rintro d c ⟨⟩
      slot := by rintro m ⟨⟩, published := by rintro m o ⟨⟩, guard_valid := by rintro m r ⟨⟩
      data := by rintro v r (⟨⟨⟩⟩ | ⟨⟨⟩⟩), cas := by rintro m r n ⟨⟩, res := hok.res }
    (by rintro m r ⟨⟩) (by rintro b n ⟨⟩)
  · rw [heq] at hd hs
    rcases hhand with hsp | ⟨m, hm⟩
    · exact hs hsp
    · exact hd ((hok.detached_at _).mp (by rw [hm]; exact List.mem_cons_self))
  · intro c' r hc
    exact (hsame _).2.2.trans (hok.later c' r hc)
  · have hd := hok.detached
    cases k with
    | later r => exact hd
    | loop rest =>
        obtain ⟨m, hm, hpath⟩ := hd
        have hnodup := hok.detached_nodup
        rw [hm] at hnodup
        refine ⟨m, hm, hpath.congr fun b' hb' => hnext b' ?_⟩
        rintro rfl
        exact (List.nodup_cons.mp hnodup).1 hb'
  · exact fun c' hc' => (hok.cells_valid c' hc').congr (hsame _).1 (hsame _).2.1

/-- A thread puts the cell that it has made on the list, and leaves its node there. -/
theorem Inv.add_later [DecidableEq A] (h : Inv g s) {v : Option V}
    (hq : s.pc i = .add_cas c (.later r) v) (hlist : s.nodes_to_reclaim = s.cellNext c.addr) :
    Inv { g with
        node := Function.update g.node r.addr (.cell c.addr)
        cell := Function.update g.cell c.addr .listed
        reclaim := c.addr :: g.reclaim }
      { s.goto i (.exchange v) with nodes_to_reclaim := some c.addr } := by
  have hok := h.threads i
  rw [hq] at hok
  have hat : g.node r.addr = .thread i := (hok.own_at _).mp rfl
  have hcell : g.cell c.addr = .spare i := (hok.spare_at _).mp rfl
  have hdata : s.cellData c.addr = some r.addr := hok.later c r rfl
  have hvalid := hok.own_valid r rfl
  have hd : g.detached i = [] := hok.detached
  have hnocell : ∀ a, g.node a ≠ .cell c.addr := fun a ha => by
    have hon := ((h.mem.data_at a _).mp ha).1
    rw [hcell] at hon
    cases hon
  refine h.of_frame (p := .exchange v) (i := i)
    { thread_at := ?_, detached := fun _ _ => rfl
      detached_at := fun j _ b' => update_eq_iff (by rintro ⟨⟩) (by rw [hcell]; rintro ⟨⟩)
      spare_at := fun j hj b' => update_eq_iff (by rintro ⟨⟩)
        (by rw [hcell]; exact fun heq => hj (CellAt.spare.inj heq).symm)
      valid := fun r hr => Or.inl hr, next := fun _ _ _ => rfl, data := fun _ _ _ => rfl
      cell_valid := fun c hc => Or.inl hc, cell_next := fun _ _ _ _ => rfl
      cell_data := fun _ _ => rfl, pointer := fun _ _ => rfl, hazzard := fun _ _ => rfl
      popped := fun _ => id, added := fun _ => Or.inl, history := fun _ _ => rfl
      returned := fun _ _ => rfl } rfl
    { toNodes := h.mem.toNodes.relabel (by rw [hat]; rintro ⟨⟩) (by rw [hat]; rintro ⟨⟩)
        (by rintro ⟨⟩) (by rintro ⟨⟩)
      toCells := h.mem.toCells.add (by rw [hcell]; rintro ⟨⟩) (by rw [hcell]; rintro ⟨⟩) hlist.symm
        ⟨_, hdata⟩
      data_at := ?_, retired := ?_ }
    h.log
    (h.slots.move (i := i) (by rw [hq]; rintro ⟨⟩) (by rintro k ⟨⟩) rfl (fun _ => rfl) rfl
      h.slots.thrown)
    (ThreadOk.of_bare rfl ⟨?_, ?_, ?_, hd⟩ (by rintro m ⟨⟩) (by rintro m o ⟨⟩) (by rintro m r ⟨⟩)
      (by rintro m r n ⟨⟩) hok.res)
    (by rintro m r ⟨⟩) (by rintro b n ⟨⟩)
  · exact fun j hj a => update_eq_iff (by rintro ⟨⟩)
      (by rw [hat]; exact fun heq => hj (NodeAt.thread.inj heq).symm)
  · intro a b
    change Function.update g.node r.addr (.cell c.addr) a = _ ↔
      (Function.update g.cell c.addr .listed b).on = true ∧ s.cellData b = some a
    by_cases hb : b = c.addr
    · rw [hb, Function.update_self, hdata, Option.some.injEq]
      by_cases ha : a = r.addr
      · rw [ha, Function.update_self]
        exact iff_of_true rfl ⟨rfl, rfl⟩
      · rw [Function.update_of_ne ha]
        exact iff_of_false (hnocell a) fun hand => ha hand.2.symm
    · rw [Function.update_of_ne hb, ← h.mem.data_at]
      refine update_eq_iff (fun heq => hb (NodeAt.cell.inj heq).symm) ?_
      rw [hat]
      rintro ⟨⟩
  · intro a b ha
    by_cases har : a = r.addr
    · rw [har]
      change ref s.heap r.addr ∈ s.popped
      rw [hvalid.ref_eq]
      exact hok.old r rfl
    · change Function.update g.node r.addr (.cell c.addr) a = _ at ha
      rw [Function.update_of_ne har] at ha
      exact h.mem.retired a b ha
  · intro a ha
    by_cases har : a = r.addr
    · rw [har] at ha
      change Function.update g.node r.addr _ r.addr = _ at ha
      rw [Function.update_self] at ha
      cases ha
    · change Function.update g.node r.addr _ a = _ at ha
      rw [Function.update_of_ne har] at ha
      exact har (Option.some.inj ((hok.own_at a).mpr ha)).symm
  · intro b hb
    by_cases hbc : b = c.addr
    · rw [hbc] at hb
      change Function.update g.cell c.addr _ c.addr = _ at hb
      rw [Function.update_self] at hb
      cases hb
    · change Function.update g.cell c.addr _ b = _ at hb
      rw [Function.update_of_ne hbc] at hb
      exact hbc (Option.some.inj ((hok.spare_at b).mpr hb)).symm
  · intro b hb
    have hold := (update_eq_iff (by rintro ⟨⟩) (by rw [hcell]; rintro ⟨⟩)).mp hb
    rw [← hok.detached_at, hd] at hold
    cases hold

/-! ## `delete_nodes_with_no_hazards` -/

/-- The thread has no node of its own, and no pointer to a slot. -/
structure Pc.Reclaiming (p : Pc A B V) : Prop where
  own : p.own = none
  later : p.later = none
  slot : p.slot = none
  published : p.published = none
  guard : p.guard = none

omit [Fintype ι] [DecidableEq B] in
/-- What has to be shown of a thread that has a list of cells. -/
theorem ThreadOk.of_cells (hp : p.Reclaiming) (hg : ∀ a, g.node a ≠ .thread i)
    (hspare : ∀ b, p.spare.map Ref.addr = some b ↔ g.cell b = .spare i)
    (hdet : p.Detached s.cellNext (g.detached i)) (hnodup : (g.detached i).Nodup)
    (hat : ∀ b, b ∈ g.detached i ↔ g.cell b = .detached i)
    (hvalid : ∀ c ∈ p.cells, Valid s.cells c)
    (htarget : ∀ d c, p.target = some (d, c) →
      ∃ r, d = some r ∧ s.cellData c.addr = some r.addr ∧ Valid s.heap r)
    (hres : poppedBy i s.history = s.returned i ++ (p.res s.data).toList) : ThreadOk g s i p := by
  have hnone : ∀ {r}, p.own ≠ some r := by
    rw [hp.own]
    rintro r ⟨⟩
  exact
    { own_at := fun a => by
        rw [Pc.owns, hp.own]
        exact iff_of_false (by rintro ⟨⟩) (hg a)
      own_valid := fun r hr => absurd hr hnone
      fresh := fun r hr => absurd (Pc.own_of_fresh hr) hnone
      old := fun r hr => absurd (Pc.own_of_old hr) hnone
      spare_at := hspare
      later := fun c r hc => by cases hp.later.symm.trans hc
      detached := hdet
      detached_nodup := hnodup
      detached_at := hat
      cells_valid := hvalid
      target := htarget
      slot := fun m hm => by cases hp.slot.symm.trans hm
      published := fun m o ho => by cases hp.published.symm.trans ho
      guard_valid := fun m r hr => by cases hp.guard.symm.trans hr
      data := by rintro v r (rfl | rfl) <;> cases hp.own
      cas := by
        rintro m r n rfl
        cases hp.guard
      res := hres }

/-- Where a thread is after `while (current)`. -/
def loopPc (current : Option (Ref B)) (res : Option V) : Pc A B V :=
  match current with
  | none => .idle
  | some c => .loop_next c res

/-- What it has returned. -/
def loopRet (s : Stack ι A B V) (i : ι) (current : Option (Ref B)) (res : Option V) :
    ι → List V :=
  match current with
  | none => Function.update s.returned i (s.returned i ++ res.toList)
  | some _ => s.returned

omit [Fintype ι] [DecidableEq B] in
/-- A turn of `delete_nodes_with_no_hazards`: the thread is at its next cell, or has returned. -/
theorem loop_eq (current : Option (Ref B)) (res : Option V) :
    s.loop i current res = { s.goto i (loopPc current res) with
      returned := loopRet s i current res } := by
  cases current <;> rfl

section

variable {current : Option (Ref B)} {v : Option V}

omit [DecidableEq B] in
theorem loopPc_reclaiming : (loopPc current v : Pc A B V).Reclaiming := by
  cases current <;> exact ⟨rfl, rfl, rfl, rfl, rfl⟩

omit [DecidableEq B] in
/-- In that loop it has no new node and no hazard; it has the cells that are still to be looked at.
-/
theorem loopPc_fields (current : Option (Ref B)) (v : Option V) :
    (loopPc current v : Pc A B V).spare = none ∧
    (loopPc current v : Pc A B V).target = none ∧ (loopPc current v : Pc A B V).unseen = none ∧
    (loopPc current v : Pc A B V).cells = current.toList ∧
    ∀ k, (loopPc current v : Pc A B V) ≠ .bind k := by
  cases current <;> exact ⟨rfl, rfl, rfl, rfl, by rintro k ⟨⟩⟩

omit [DecidableEq B] in
/-- These are the rest of the list that it has taken. -/
theorem loopPc_detached {next : B → Option B} {l : List B}
    (h : Path next (current.map Ref.addr) l none) :
    (loopPc current v : Pc A B V).Detached next l := by
  cases current with
  | none => exact Path.eq_nil h
  | some c => exact h

omit [Fintype ι] [DecidableEq B] in
theorem loopRet_of_ne (hj : j ≠ i) : loopRet s i current v j = s.returned j := by
  cases current with
  | none => exact Function.update_of_ne hj ..
  | some c => rfl

omit [Fintype ι] [DecidableEq B] in
/-- The value that was popped is returned when the loop is done, and not before. -/
theorem loopRet_res {data : A → Option V} :
    loopRet s i current v i ++ ((loopPc current v : Pc A B V).res data).toList =
      s.returned i ++ v.toList := by
  cases current with
  | none =>
      change Function.update s.returned i (s.returned i ++ v.toList) i ++ [] = _
      rw [Function.update_self, List.append_nil]
  | some c => rfl

end

/-- A thread puts a cell back on the list, and goes on with the next one. -/
theorem Inv.add_loop (h : Inv g s) {rest : Option (Ref B)} {v : Option V}
    (hq : s.pc i = .add_cas c (.loop rest) v) (hlist : s.nodes_to_reclaim = s.cellNext c.addr) :
    ∃ g', Inv g' { s.loop i rest v with nodes_to_reclaim := some c.addr } := by
  have hok := h.threads i
  rw [hq] at hok
  obtain ⟨m, hm, hpath⟩ := hok.detached
  have hcell : g.cell c.addr = .detached i :=
    (hok.detached_at _).mp (by rw [hm]; exact List.mem_cons_self)
  have hnodup := hok.detached_nodup
  rw [hm, List.nodup_cons] at hnodup
  obtain ⟨hspare, htarget, hunseen, hcells, hbind⟩ :=
    loopPc_fields (A := A) rest v
  have hon : ∀ b, (Function.update g.cell c.addr .listed b).on = (g.cell b).on := by
    intro b
    by_cases hb : b = c.addr
    · rw [hb, Function.update_self, hcell]
      rfl
    · rw [Function.update_of_ne hb]
  rw [loop_eq]
  refine ⟨{ g with
      cell := Function.update g.cell c.addr .listed
      reclaim := c.addr :: g.reclaim
      detached := Function.update g.detached i m },
    h.of_frame (p := loopPc rest v) (i := i)
    { thread_at := fun _ _ _ => Iff.rfl, detached := fun j hj => Function.update_of_ne hj ..
      detached_at := fun j hj b' => update_eq_iff (by rintro ⟨⟩)
        (by rw [hcell]; exact fun heq => hj (CellAt.detached.inj heq).symm)
      spare_at := fun j hj b' => update_eq_iff (by rintro ⟨⟩) (by rw [hcell]; rintro ⟨⟩)
      valid := fun r hr => Or.inl hr, next := fun _ _ _ => rfl, data := fun _ _ _ => rfl
      cell_valid := fun c hc => Or.inl hc, cell_next := fun _ _ _ _ => rfl
      cell_data := fun _ _ => rfl, pointer := fun _ _ => rfl, hazzard := fun _ _ => rfl
      popped := fun _ => id, added := fun _ => Or.inl, history := fun _ _ => rfl
      returned := fun j hj => loopRet_of_ne hj } rfl
    { toNodes := h.mem.toNodes
      toCells := h.mem.toCells.add (by rw [hcell]; rintro ⟨⟩) (by rw [hcell]; rintro ⟨⟩) hlist.symm
        (h.mem.data_some _ (by rw [hcell]; rfl))
      data_at := fun a b => ?_, retired := h.mem.retired }
    h.log
    (h.slots.move (i := i) (by rw [hq]; rintro ⟨⟩) (fun k hk => absurd hk (hbind k)) rfl
      (fun _ => rfl) rfl h.slots.thrown)
    (ThreadOk.of_cells loopPc_reclaiming (fun a ha => ?_) (fun b => ?_) (loopPc_detached ?_) ?_
      (fun b => ?_) ?_ ?_ (hok.res.trans loopRet_res.symm))
    (fun m r hr => by cases loopPc_reclaiming.guard.symm.trans hr)
    (fun b n hb => by cases hunseen.symm.trans hb)⟩
  · change _ ↔ (Function.update g.cell c.addr .listed b).on = true ∧ _
    rw [hon]
    exact h.mem.data_at a b
  · cases (hok.own_at a).mpr ha
  · rw [hspare]
    refine iff_of_false (by rintro ⟨⟩) fun hb => ?_
    cases (hok.spare_at b).mpr
      ((update_eq_iff (by rintro ⟨⟩) (by rw [hcell]; rintro ⟨⟩)).mp hb)
  · change Path s.cellNext _ (Function.update g.detached i m i) none
    rw [Function.update_self]
    exact hpath
  · change (Function.update g.detached i m i).Nodup
    rw [Function.update_self]
    exact hnodup.2
  · change b ∈ Function.update g.detached i m i ↔ Function.update g.cell c.addr .listed b = _
    rw [Function.update_self]
    by_cases hb : b = c.addr
    · rw [hb, Function.update_self]
      exact iff_of_false hnodup.1 (by rintro ⟨⟩)
    · rw [Function.update_of_ne hb, ← hok.detached_at, hm, List.mem_cons]
      exact (or_iff_right hb).symm
  · rw [hcells]
    exact fun c' hc' => hok.cells_valid c' (List.mem_cons_of_mem _ hc')
  · intro d c' hc'
    cases htarget.symm.trans hc'

omit [DecidableEq B] in
/-- A thread takes the whole list. -/
theorem Inv.exchange (h : Inv g s) {v : Option V} (hq : s.pc i = .exchange v) :
    ∃ g', Inv g' { s.loop i (s.nodes_to_reclaim.map (ref s.cells)) v with
      nodes_to_reclaim := none } := by
  have hok := h.threads i
  rw [hq] at hok
  have hno := hok.nothing rfl
  obtain ⟨hspare, htarget, hunseen, hcells, hbind⟩ :=
    loopPc_fields (A := A) (s.nodes_to_reclaim.map (ref s.cells)) v
  rw [loop_eq]
  refine ⟨{ g with
      cell := fun b => (g.cell b).taken i
      reclaim := []
      detached := Function.update g.detached i g.reclaim },
    h.of_frame (p := loopPc (s.nodes_to_reclaim.map (ref s.cells)) v) (i := i)
    { thread_at := fun _ _ _ => Iff.rfl, detached := fun j hj => Function.update_of_ne hj ..
      detached_at := fun j hj b => CellAt.taken_eq (by rintro ⟨⟩)
        fun heq => hj (CellAt.detached.inj heq)
      spare_at := fun j hj b => CellAt.taken_eq (by rintro ⟨⟩) (by rintro ⟨⟩)
      valid := fun r hr => Or.inl hr, next := fun _ _ _ => rfl, data := fun _ _ _ => rfl
      cell_valid := fun c hc => Or.inl hc, cell_next := fun _ _ _ _ => rfl
      cell_data := fun _ _ => rfl, pointer := fun _ _ => rfl, hazzard := fun _ _ => rfl
      popped := fun _ => id, added := fun _ => Or.inl, history := fun _ _ => rfl
      returned := fun j hj => loopRet_of_ne hj } rfl
    { toNodes := h.mem.toNodes, toCells := h.mem.toCells.take i
      data_at := fun a b => ?_, retired := h.mem.retired }
    h.log
    (h.slots.move (i := i) (by rw [hq]; rintro ⟨⟩) (fun k hk => absurd hk (hbind k)) rfl
      (fun _ => rfl) rfl h.slots.thrown)
    (ThreadOk.of_cells loopPc_reclaiming hno.node (fun b => ?_) (loopPc_detached ?_) ?_
      (fun b => ?_) ?_ ?_ (hok.res.trans loopRet_res.symm))
    (fun m r hr => by cases loopPc_reclaiming.guard.symm.trans hr)
    (fun b n hb => by cases hunseen.symm.trans hb)⟩
  · change _ ↔ ((g.cell b).taken i).on = true ∧ _
    rw [CellAt.taken_on]
    exact h.mem.data_at a b
  · rw [hspare]
    refine iff_of_false (by rintro ⟨⟩) fun hb => hno.spare b ?_
    exact (CellAt.taken_eq (by rintro ⟨⟩) (by rintro ⟨⟩)).mp hb
  · change Path s.cellNext _ (Function.update g.detached i g.reclaim i) none
    rw [Function.update_self, map_addr_map_ref]
    exact h.mem.reclaim
  · change (Function.update g.detached i g.reclaim i).Nodup
    rw [Function.update_self]
    exact h.mem.reclaim_nodup
  · change b ∈ Function.update g.detached i g.reclaim i ↔ (g.cell b).taken i = _
    rw [Function.update_self, h.mem.reclaim_at]
    have hne := hno.cell b
    cases hb : g.cell b with
    | listed => exact iff_of_true rfl rfl
    | detached j =>
        rw [hb] at hne
        exact iff_of_false (by rintro ⟨⟩) hne
    | nowhere | spare j => exact iff_of_false (by rintro ⟨⟩) (by rintro ⟨⟩)
  · rw [hcells]
    intro c hc
    obtain ⟨b, hb, rfl⟩ := Option.map_eq_some_iff.mp (Option.mem_toList.mp hc)
    have hmem : b ∈ g.reclaim := by
      have hpath := h.mem.reclaim
      rw [hb] at hpath
      exact hpath.head_mem
    refine valid_ref ((h.mem.cell_live b).mpr ?_)
    rw [(h.mem.reclaim_at b).mp hmem]
    rintro ⟨⟩
  · intro d c hc
    cases htarget.symm.trans hc

omit [DecidableEq B] in
/-- A thread goes on with its list, and writes nothing. -/
theorem Inv.cells_step (h : Inv g s) (hq : s.pc i = q) (hqr : q.Reclaiming) (hpr : p.Reclaiming)
    (hqs : q.spare = none) (hps : p.spare = none)
    (hdet : p.Detached s.cellNext (g.detached i)) (hvalid : ∀ c ∈ p.cells, Valid s.cells c)
    (htarget : ∀ d c, p.target = some (d, c) →
      ∃ r, d = some r ∧ s.cellData c.addr = some r.addr ∧ Valid s.heap r)
    (hunseen : ∀ a n, p.unseen = some (a, n) → ∀ j, j ≠ i → ∀ m r,
      (s.pc j).guard = some (m, r) → r.addr = a → n ≤ m.val)
    (hended : q ≠ .ended) (hbind : ∀ k, p ≠ .bind k) (hres : p.res s.data = q.res s.data) :
    Inv g (s.goto i p) := by
  have hok := h.threads i
  rw [hq] at hok
  refine h.quiet
    (.of_eq rfl rfl rfl rfl rfl rfl rfl (fun _ _ => rfl) (fun _ _ => rfl) fun _ _ => rfl) rfl
    (h.slots.move (by rw [hq]; exact hended) (fun k hk => absurd hk (hbind k)) rfl (fun _ => rfl)
      rfl h.slots.thrown)
    (ThreadOk.of_cells hpr (fun a ha => ?_) (fun b => ?_) hdet hok.detached_nodup hok.detached_at
      hvalid htarget ?_)
    (fun m r hr => by cases hpr.guard.symm.trans hr) hunseen
  · have hown := (hok.own_at a).mpr ha
    rw [Pc.owns, hqr.own] at hown
    cases hown
  · rw [hps, ← hqs]
    exact hok.spare_at b
  · refine hok.res.trans ?_
    change _ = s.returned i ++ (p.res s.data).toList
    rw [hres]

omit [DecidableEq B] in
/-- `next = current->next`. -/
theorem Inv.loop_next (h : Inv g s) {v : Option V} (hq : s.pc i = .loop_next c v) :
    Inv g (s.goto i (.loop_data c ((s.cellNext c.addr).map (ref s.cells)) v)) := by
  have hok := h.threads i
  rw [hq] at hok
  obtain ⟨m, hm, hpath⟩ := Path.eq_cons hok.detached
  refine h.cells_step hq ⟨rfl, rfl, rfl, rfl, rfl⟩ ⟨rfl, rfl, rfl, rfl, rfl⟩ rfl rfl
    ⟨m, hm, by rw [map_addr_map_ref]; exact hpath⟩ ?_ (by rintro d c ⟨⟩) (by rintro b n ⟨⟩)
    (by rintro ⟨⟩) (by rintro k ⟨⟩) rfl
  intro c' hc'
  rcases List.mem_cons.mp hc' with rfl | hc'
  · exact hok.cells_valid c' (List.mem_singleton.mpr rfl)
  · obtain ⟨b, hb, rfl⟩ := Option.map_eq_some_iff.mp (Option.mem_toList.mp hc')
    rw [hb] at hpath
    have hmem : b ∈ g.detached i := by
      rw [hm]
      exact List.mem_cons_of_mem _ hpath.head_mem
    refine valid_ref ((h.mem.cell_live b).mpr ?_)
    rw [(hok.detached_at b).mp hmem]
    rintro ⟨⟩

omit [DecidableEq B] in
/-- `current->data`. The node is in the cell, and so it is still there. -/
theorem Inv.loop_data (h : Inv g s) {rest : Option (Ref B)} {v : Option V}
    (hq : s.pc i = .loop_data c rest v) :
    Inv g (s.goto i (.check_data ((s.cellData c.addr).map (ref s.heap)) Slot.first c rest v)) := by
  have hok := h.threads i
  rw [hq] at hok
  obtain ⟨m, hm, hpath⟩ := hok.detached
  have hcell : g.cell c.addr = .detached i :=
    (hok.detached_at _).mp (by rw [hm]; exact List.mem_cons_self)
  have hon : (g.cell c.addr).on = true := by rw [hcell]; rfl
  obtain ⟨a, ha⟩ : ∃ a, s.cellData c.addr = some a := h.mem.data_some _ hon
  have hlive : (s.heap a).live = true := by
    rw [h.mem.live, (h.mem.data_at a c.addr).mpr ⟨hon, ha⟩]
    rintro ⟨⟩
  refine h.cells_step hq ⟨rfl, rfl, rfl, rfl, rfl⟩ ⟨rfl, rfl, rfl, rfl, rfl⟩ rfl rfl ⟨m, hm, hpath⟩
    hok.cells_valid ?_ ?_ (by rintro ⟨⟩) (by rintro k ⟨⟩) rfl
  · rintro d c' ⟨⟩
    rw [ha]
    exact ⟨ref s.heap a, rfl, rfl, valid_ref hlive⟩
  · intro a' n hn j _ m' r' _ _
    obtain ⟨r, -, hr⟩ := Option.map_eq_some_iff.mp hn
    cases hr
    exact Nat.zero_le _

omit [DecidableEq B] in
/-- `outstanding_hazard_pointers_for(current->data)`. -/
theorem Inv.check_data [DecidableEq A] (h : Inv g s) {d : Option (Ref A)} {k : Slot}
    {rest : Option (Ref B)} {v : Option V} (hq : s.pc i = .check_data d k c rest v) :
    Inv g (s.goto i (s.check (d.map Ref.addr) k (.add_next c (.loop rest) v)
      (fun k' => .check_data d k' c rest v) (.delete_data d c rest v))) := by
  have hok := h.threads i
  rw [hq] at hok
  obtain ⟨r, rfl, hdata, hvalid⟩ := hok.target d c rfl
  have hunseen : (s.pc i).unseen = some (r.addr, k.val) := by rw [hq]; rfl
  refine check_cases (P := fun p => Inv g (s.goto i p)) ?_ (fun hne k' hk' => ?_) fun hne hk => ?_
  · exact h.cells_step hq ⟨rfl, rfl, rfl, rfl, rfl⟩ ⟨rfl, rfl, rfl, rfl, rfl⟩ rfl rfl hok.detached
      hok.cells_valid (by rintro d c ⟨⟩) (by rintro b n ⟨⟩) (by rintro ⟨⟩) (by rintro k ⟨⟩) rfl
  · refine h.cells_step hq ⟨rfl, rfl, rfl, rfl, rfl⟩ ⟨rfl, rfl, rfl, rfl, rfl⟩ rfl rfl hok.detached
      hok.cells_valid ?_ ?_ (by rintro ⟨⟩) (by rintro k ⟨⟩) rfl
    · rintro d c' ⟨⟩
      exact ⟨r, rfl, hdata, hvalid⟩
    · rintro b n ⟨⟩ j - m r' hr haddr
      rw [hk']
      exact h.unseen_next hunseen hne hr haddr
  · refine h.cells_step hq ⟨rfl, rfl, rfl, rfl, rfl⟩ ⟨rfl, rfl, rfl, rfl, rfl⟩ rfl rfl hok.detached
      hok.cells_valid ?_ ?_ (by rintro ⟨⟩) (by rintro k ⟨⟩) rfl
    · rintro d c' ⟨⟩
      exact ⟨r, rfl, hdata, hvalid⟩
    · rintro b n ⟨⟩ j - m r' hr haddr
      exact hk.ge.trans (h.unseen_next hunseen hne hr haddr)

/-- `delete data`, of a cell that is being deleted. -/
theorem Inv.delete_data [DecidableEq A] (h : Inv g s) {d : Option (Ref A)} {rest : Option (Ref B)}
    {v : Option V} (hq : s.pc i = .delete_data d c rest v) :
    ∃ r, d = some r ∧ ∃ g', Inv g' { s.goto i (.delete_current c rest v) with
      heap := free s.heap r.addr
      deleted := r :: s.deleted } := by
  have hok := h.threads i
  rw [hq] at hok
  obtain ⟨r, rfl, hdata, hvalid⟩ := hok.target d c rfl
  obtain ⟨m, hm, hpath⟩ := hok.detached
  have hcell : g.cell c.addr = .detached i := hok.target_at (d := some r) rfl
  have hnodup := hok.detached_nodup
  rw [hm, List.nodup_cons] at hnodup
  have hat : g.node r.addr = .cell c.addr :=
    (h.mem.data_at _ _).mpr ⟨by rw [hcell]; rfl, hdata⟩
  have hretired : r ∈ s.popped := by
    have hmem := h.mem.retired _ _ hat
    rwa [hvalid.ref_eq] at hmem
  refine ⟨r, rfl, { g with
      node := Function.update g.node r.addr .nowhere
      cell := Function.update g.cell c.addr (.spare i)
      detached := Function.update g.detached i m },
    h.of_frame (p := .delete_current c rest v) (i := i)
    { thread_at := fun j _ a => update_eq_iff (by rintro ⟨⟩) (by rw [hat]; rintro ⟨⟩)
      detached := fun j hj => Function.update_of_ne hj ..
      detached_at := fun j hj b' => update_eq_iff (by rintro ⟨⟩)
        (by rw [hcell]; exact fun heq => hj (CellAt.detached.inj heq).symm)
      spare_at := fun j hj b' => update_eq_iff (fun heq => hj (CellAt.spare.inj heq).symm)
        (by rw [hcell]; rintro ⟨⟩)
      valid := ?_, next := fun b _ _ => congrArg Node.next (free_same b).1
      data := fun b _ _ => congrArg Node.data (free_same b).1
      cell_valid := fun c hc => Or.inl hc, cell_next := fun _ _ _ _ => rfl
      cell_data := fun _ _ => rfl, pointer := fun _ _ => rfl, hazzard := fun _ _ => rfl
      popped := fun _ => id, added := fun _ => Or.inl, history := fun _ _ => rfl
      returned := fun _ _ => rfl } rfl
    { toNodes := h.mem.toNodes.free (by rw [hat]; rintro ⟨⟩)
      toCells := h.mem.toCells.relabel (by rw [hcell]; rintro ⟨⟩) (by rw [hcell]; rintro ⟨⟩)
        (by rintro ⟨⟩) (by rintro ⟨⟩) (by rintro ⟨⟩)
      data_at := ?_, retired := ?_ }
    (h.log.free hvalid hretired)
    (h.slots.move (i := i) (by rw [hq]; rintro ⟨⟩) (by rintro k ⟨⟩) rfl (fun _ => rfl) rfl
      h.slots.thrown)
    (ThreadOk.of_cells ⟨rfl, rfl, rfl, rfl, rfl⟩ ?_ ?_ ?_ ?_ ?_ hok.cells_valid
      (by rintro d c ⟨⟩) hok.res)
    (by rintro m r ⟨⟩) (by rintro b n ⟨⟩)⟩
  · intro r' hr'
    by_cases heq : r' = r
    · exact Or.inr (by rw [hq, heq]; rfl)
    · exact Or.inl (hvalid.free hr' heq)
  · intro a b
    change Function.update g.node r.addr .nowhere a = _ ↔
      (Function.update g.cell c.addr (.spare i) b).on = true ∧ s.cellData b = some a
    by_cases hb : b = c.addr
    · rw [hb, Function.update_self]
      refine iff_of_false (fun ha => ?_) fun hand => by cases hand.1
      by_cases har : a = r.addr
      · rw [har, Function.update_self] at ha
        cases ha
      · rw [Function.update_of_ne har] at ha
        have hda := ((h.mem.data_at a _).mp ha).2
        exact har (Option.some.inj (hda.symm.trans hdata))
    · rw [Function.update_of_ne hb, ← h.mem.data_at]
      refine update_eq_iff (by rintro ⟨⟩) ?_
      rw [hat]
      exact fun heq => hb (NodeAt.cell.inj heq).symm
  · intro a b ha
    change Ref.mk a (free s.heap r.addr a).gen ∈ s.popped
    rw [(free_same a).2]
    by_cases har : a = r.addr
    · rw [har] at ha
      change Function.update g.node r.addr .nowhere r.addr = _ at ha
      rw [Function.update_self] at ha
      cases ha
    · change Function.update g.node r.addr .nowhere a = _ at ha
      rw [Function.update_of_ne har] at ha
      exact h.mem.retired a b ha
  · intro a ha
    have hown := (hok.own_at a).mpr
      ((update_eq_iff (by rintro ⟨⟩) (by rw [hat]; rintro ⟨⟩)).mp ha)
    cases hown
  · intro b
    change some c.addr = some b ↔ Function.update g.cell c.addr (.spare i) b = _
    rw [Option.some.injEq]
    by_cases hb : b = c.addr
    · rw [hb]
      exact iff_of_true rfl (Function.update_self ..)
    · rw [Function.update_of_ne hb]
      refine iff_of_false (Ne.symm hb) fun hs => ?_
      cases (hok.spare_at b).mpr hs
  · change Path s.cellNext _ (Function.update g.detached i m i) none
    rw [Function.update_self]
    exact hpath
  · change (Function.update g.detached i m i).Nodup
    rw [Function.update_self]
    exact hnodup.2
  · intro b
    change b ∈ Function.update g.detached i m i ↔ Function.update g.cell c.addr (.spare i) b = _
    rw [Function.update_self]
    by_cases hb : b = c.addr
    · rw [hb, Function.update_self]
      exact iff_of_false hnodup.1 (by rintro ⟨⟩)
    · rw [Function.update_of_ne hb, ← hok.detached_at, hm, List.mem_cons]
      exact (or_iff_right hb).symm

/-- `delete current`, and the loop goes on. -/
theorem Inv.delete_current (h : Inv g s) {rest : Option (Ref B)} {v : Option V}
    (hq : s.pc i = .delete_current c rest v) :
    Inv { g with cell := Function.update g.cell c.addr .nowhere }
      { s.loop i rest v with cells := free s.cells c.addr } := by
  have hok := h.threads i
  rw [hq] at hok
  have hcell : g.cell c.addr = .spare i := (hok.spare_at _).mp rfl
  have hvalid := hok.cells_valid c List.mem_cons_self
  obtain ⟨hspare, htarget, hunseen, hcells, hbind⟩ :=
    loopPc_fields (A := A) rest v
  have hpath : Path s.cellNext (rest.map Ref.addr) (g.detached i) none := hok.detached
  have hmem : ∀ {b}, b ∈ g.detached i → b ≠ c.addr := by
    rintro b hb rfl
    have hat := (hok.detached_at _).mp hb
    rw [hcell] at hat
    cases hat
  have hnext : ∀ b, (free s.cells c.addr b).val.next = s.cellNext b :=
    fun b => congrArg DataToReclaim.next (free_same b).1
  rw [loop_eq]
  refine h.of_frame (p := loopPc rest v) (i := i)
    { thread_at := fun _ _ _ => Iff.rfl, detached := fun _ _ => rfl
      detached_at := fun j hj b' => update_eq_iff (by rintro ⟨⟩) (by rw [hcell]; rintro ⟨⟩)
      spare_at := fun j hj b' => update_eq_iff (by rintro ⟨⟩)
        (by rw [hcell]; exact fun heq => hj (CellAt.spare.inj heq).symm)
      valid := fun r hr => Or.inl hr, next := fun _ _ _ => rfl, data := fun _ _ _ => rfl
      cell_valid := ?_, cell_next := fun b _ _ _ => hnext b
      cell_data := fun b _ => congrArg DataToReclaim.data (free_same b).1
      pointer := fun _ _ => rfl, hazzard := fun _ _ => rfl
      popped := fun _ => id, added := fun _ => Or.inl, history := fun _ _ => rfl
      returned := fun j hj => loopRet_of_ne hj } rfl
    { toNodes := h.mem.toNodes, toCells := h.mem.toCells.free (by rw [hcell]; rfl)
      data_at := fun a b => ?_, retired := h.mem.retired }
    h.log
    (h.slots.move (i := i) (by rw [hq]; rintro ⟨⟩) (fun k hk => absurd hk (hbind k)) rfl
      (fun _ => rfl) rfl h.slots.thrown)
    (ThreadOk.of_cells loopPc_reclaiming (fun a ha => ?_) (fun b => ?_)
      (loopPc_detached (hpath.congr fun b _ => hnext b)) hok.detached_nodup (fun b => ?_) ?_ ?_
      (hok.res.trans loopRet_res.symm))
    (fun m r hr => by cases loopPc_reclaiming.guard.symm.trans hr)
    (fun b n hb => by cases hunseen.symm.trans hb)
  · intro c' hc'
    by_cases heq : c' = c
    · exact Or.inr (by rw [hq, heq]; rfl)
    · exact Or.inl (hvalid.free hc' heq)
  · change _ ↔ (Function.update g.cell c.addr .nowhere b).on = true ∧
      (free s.cells c.addr b).val.data = some a
    rw [(free_same b).1]
    refine (h.mem.data_at a b).trans (and_congr_left fun _ => ?_)
    by_cases hb : b = c.addr
    · rw [hb, Function.update_self, hcell]
      exact Iff.rfl
    · rw [Function.update_of_ne hb]
  · cases (hok.own_at a).mpr ha
  · rw [hspare]
    refine iff_of_false (by rintro ⟨⟩) fun hb => ?_
    by_cases hbc : b = c.addr
    · rw [hbc] at hb
      change Function.update g.cell c.addr .nowhere c.addr = _ at hb
      rw [Function.update_self] at hb
      cases hb
    · change Function.update g.cell c.addr .nowhere b = _ at hb
      rw [Function.update_of_ne hbc] at hb
      exact hbc (Option.some.inj ((hok.spare_at b).mpr hb)).symm
  · exact (hok.detached_at b).trans
      (update_eq_iff (by rintro ⟨⟩) (by rw [hcell]; rintro ⟨⟩)).symm
  · rw [hcells]
    intro c' hc'
    refine hvalid.free (hok.cells_valid c' (List.mem_cons_of_mem _ hc')) ?_
    rintro rfl
    exact hmem (mem_of_rest hpath hc') rfl
  · intro d c' hc'
    cases htarget.symm.trans hc'

end Reclaim

end BoostNet.HazardPointerStack
