/-
The invariant of `hazard_pointer_stack`.

A thread reads `next` of a node that is not its own. What keeps that node is `Inv.unseen`: a
thread that has looked for a node in the first `n` slots has it in none of those. Who publishes a
node finds it at the head afterwards, in the stack, and then nobody is looking for it; who looks
for it later finds it in the slot. A thread that has looked in all slots may delete the node.
-/
import BoostNet.HazardPointerStackLabels

set_option autoImplicit false

namespace BoostNet.HazardPointerStack

open Heap
open LockFreeStack (Ev Lifo pushed poppedBy poppedBy_pop)

variable {ι A B V : Type*}

/-! ## Labels -/

structure Ghost (ι A B : Type*) where
  node : A → NodeAt ι B := fun _ => .nowhere
  cell : B → CellAt ι := fun _ => .nowhere
  stack : List A := []
  reclaim : List B := []
  detached : ι → List B := fun _ => []

/-- The node is thread `i`'s, or in a cell of its list. -/
def Ghost.With (g : Ghost ι A B) (i : ι) (a : A) : Prop :=
  g.node a = .thread i ∨ ∃ b, g.node a = .cell b ∧ g.cell b = .detached i

/-! ## What a thread has -/

/-- The node that a push has allocated. -/
def Pc.fresh : Pc A B V → Option (Ref A)
  | .push_next _ r | .push_cas _ r => some r
  | _ => none

/-- The node that belongs to a thread. -/
def Pc.own (p : Pc A B V) : Option (Ref A) := p.fresh.or p.old

/-- The address of it. -/
def Pc.owns (p : Pc A B V) : Option A := p.own.map Ref.addr

/-- The cell that is on no list. -/
def Pc.spare : Pc A B V → Option (Ref B)
  | .add_next c (.later _) _ | .add_cas c (.later _) _ | .delete_current c _ _ => some c
  | _ => none

/-- The cell that a thread has made for its node. -/
def Pc.later : Pc A B V → Option (Ref B × Ref A)
  | .add_next c (.later r) _ | .add_cas c (.later r) _ => some (c, r)
  | _ => none

/-- The cells that a thread has pointers to. -/
def Pc.cells : Pc A B V → List (Ref B)
  | .add_next c k _ | .add_cas c k _ =>
      match k with
      | .later _ => [c]
      | .loop rest => c :: rest.toList
  | .loop_next c _ => [c]
  | .loop_data c rest _ | .check_data _ _ c rest _ | .delete_data _ c rest _
  | .delete_current c rest _ => c :: rest.toList
  | _ => []

/-- The node that a thread has read from a cell of its list, and the cell. -/
def Pc.target : Pc A B V → Option (Option (Ref A) × Ref B)
  | .check_data data _ c _ _ | .delete_data data c _ _ => some (data, c)
  | _ => none

/-- The node that a thread is to delete. -/
def Pc.dead : Pc A B V → Option (Ref A)
  | .delete_old r _ => some r
  | .delete_data data _ _ _ => data
  | _ => none

/-- The slot of a thread that is in `pop`, or ends. -/
def Pc.slot : Pc A B V → Option Slot
  | .unbind_pointer hp | .unbind_id hp | .load_head hp | .publish hp _ | .recheck hp _
  | .read_next hp _ | .cas_head hp _ _ | .clear hp _ => some hp
  | _ => none

/-- What a thread has published in its slot. -/
def Pc.published : Pc A B V → Option (Slot × Option A)
  | .recheck hp temp => some (hp, temp)
  | .read_next hp r | .cas_head hp r _ => some (hp, some r.addr)
  | _ => none

/-- The node that a slot keeps for a thread. -/
def Pc.guard : Pc A B V → Option (Slot × Ref A)
  | .read_next hp r | .cas_head hp r _ => some (hp, r)
  | _ => none

/-- A node that is in none of the first slots, and how many these are. -/
def Pc.unseen : Pc A B V → Option (A × Nat)
  | .push_next _ r | .push_cas _ r | .delete_old r _ => some (r.addr, max_hazard_pointers)
  | .check_old r k _ => some (r.addr, k.val)
  | .check_data data k _ _ _ => data.map fun r => (r.addr, k.val)
  | .delete_data data _ _ _ => data.map fun r => (r.addr, max_hazard_pointers)
  | _ => none

/-- What a pop is going to return. -/
def Pc.res (data : A → Option V) : Pc A B V → Option V
  | .clear _ o => o.bind fun r => data r.addr
  | .swap r => data r.addr
  | .check_old _ _ v | .delete_old _ v | .new_reclaim _ v | .add_next _ _ v | .add_cas _ _ v
  | .exchange v | .loop_next _ v | .loop_data _ _ v | .check_data _ _ _ _ v | .delete_data _ _ _ v
  | .delete_current _ _ v => v
  | _ => none

section

variable {p : Pc A B V} {r : Ref A} {c : Ref B} {next next' : B → Option B} {l : List B}

/-- A node that a thread has not put on the stack yet is its own. -/
theorem Pc.own_of_fresh (h : p.fresh = some r) : p.own = some r := by
  rw [Pc.own, h]
  rfl

/-- So is a node that it has taken off the stack. -/
theorem Pc.own_of_old (h : p.old = some r) : p.own = some r := by
  have hf : p.fresh = none := by cases p <;> first | rfl | cases h
  rw [Pc.own, hf]
  exact h

/-- Owning a reference is owning its address. -/
theorem Pc.owns_of_own (h : p.own = some r) : p.owns = some r.addr := by
  rw [Pc.owns, h]
  rfl

/-- A thread owns a new node or an old one. -/
theorem Pc.own_cases (h : p.own = some r) : p.fresh = some r ∨ p.old = some r := by
  rw [Pc.own] at h
  cases hf : p.fresh with
  | some r' =>
      rw [hf] at h
      exact Or.inl h
  | none =>
      rw [hf] at h
      exact Or.inr h

/-- The first cell of a list. -/
theorem mem_of_rest {rest : Option (Ref B)} (h : Path next (rest.map Ref.addr) l none)
    (hc : c ∈ rest.toList) : c.addr ∈ l := by
  obtain rfl := Option.mem_toList.mp hc
  exact Path.head_mem h

/-- What follows a cell of the list that a thread has. -/
theorem mem_cons_rest {c' : Ref B} {rest : Option (Ref B)}
    (h : ∃ m, l = c'.addr :: m ∧ Path next (rest.map Ref.addr) m none)
    (hc : c ∈ c' :: rest.toList) : c.addr ∈ l := by
  obtain ⟨m, rfl, hm⟩ := h
  rcases List.mem_cons.mp hc with rfl | hc
  · exact List.mem_cons_self
  · exact List.mem_cons_of_mem _ (mem_of_rest hm hc)

/-- A thread that has a pointer to a cell has the cell. -/
theorem Pc.mem_or_spare (hd : p.Detached next l) (hc : c ∈ p.cells) :
    c.addr ∈ l ∨ p.spare = some c := by
  cases p with
  | add_next c' k v | add_cas c' k v =>
      cases k with
      | later r => exact Or.inr (congrArg some (List.mem_singleton.mp hc).symm)
      | loop rest => exact Or.inl (mem_cons_rest hd hc)
  | loop_next c' v =>
      obtain rfl := List.mem_singleton.mp hc
      exact Or.inl (Path.head_mem hd)
  | loop_data c' rest v | check_data d k c' rest v | delete_data d c' rest v =>
      exact Or.inl (mem_cons_rest hd hc)
  | delete_current c' rest v =>
      rcases List.mem_cons.mp hc with rfl | hc
      · exact Or.inr rfl
      · exact Or.inl (mem_of_rest hd hc)
  | _ => exact absurd hc List.not_mem_nil

/-- A list that was taken depends on the `next` of its own nodes only. -/
theorem detached_cons_congr {c' : Ref B} {rest : Option (Ref B)}
    (h : ∃ m, l = c'.addr :: m ∧ Path next (rest.map Ref.addr) m none)
    (hnext : ∀ b ∈ l, next' b = next b) :
    ∃ m, l = c'.addr :: m ∧ Path next' (rest.map Ref.addr) m none := by
  obtain ⟨m, rfl, hm⟩ := h
  exact ⟨m, rfl, hm.congr fun b hb => hnext b (List.mem_cons_of_mem _ hb)⟩

/-- The same for any program counter. -/
theorem Pc.Detached.congr (hd : p.Detached next l) (hnext : ∀ b ∈ l, next' b = next b) :
    p.Detached next' l := by
  cases p with
  | add_next c' k v | add_cas c' k v =>
      cases k with
      | later r => exact hd
      | loop rest => exact detached_cons_congr hd hnext
  | loop_next c' v | delete_current c' rest v => exact Path.congr hd hnext
  | loop_data c' rest v | check_data d k c' rest v | delete_data d c' rest v =>
      exact detached_cons_congr hd hnext
  | _ => exact hd

end

/-! ## The invariant -/

structure Mem (g : Ghost ι A B) (s : Stack ι A B V) : Prop extends
    Nodes g.node g.stack s.heap s.head s.popped s.history,
    Cells g.cell g.reclaim s.cells s.nodes_to_reclaim where
  data_at : ∀ a b, g.node a = .cell b ↔ (g.cell b).on = true ∧ s.cellData b = some a
  retired : ∀ a b, g.node a = .cell b → ref s.heap a ∈ s.popped

/-- What is true of the thread `i` at `p`. -/
structure ThreadOk [DecidableEq ι] (g : Ghost ι A B) (s : Stack ι A B V) (i : ι) (p : Pc A B V) :
    Prop where
  own_at : ∀ a, p.owns = some a ↔ g.node a = .thread i
  own_valid : ∀ r, p.own = some r → Valid s.heap r
  fresh : ∀ r, p.fresh = some r → r ∉ s.popped
  old : ∀ r, p.old = some r → r ∈ s.popped
  spare_at : ∀ b, p.spare.map Ref.addr = some b ↔ g.cell b = .spare i
  later : ∀ c r, p.later = some (c, r) → s.cellData c.addr = some r.addr
  detached : p.Detached s.cellNext (g.detached i)
  detached_nodup : (g.detached i).Nodup
  detached_at : ∀ b, b ∈ g.detached i ↔ g.cell b = .detached i
  cells_valid : ∀ c ∈ p.cells, Valid s.cells c
  target : ∀ d c, p.target = some (d, c) →
    ∃ r, d = some r ∧ s.cellData c.addr = some r.addr ∧ Valid s.heap r
  slot : ∀ m, p.slot = some m → s.hazzard i = some m
  published : ∀ m o, p.published = some (m, o) → s.pointer m = o
  guard_valid : ∀ m r, p.guard = some (m, r) → Valid s.heap r
  data : ∀ v r, p = .push_next v r ∨ p = .push_cas v r → s.data r.addr = some v
  cas : ∀ m r n, p = .cas_head m r n → s.next r.addr = n
  res : poppedBy i s.history = s.returned i ++ (p.res s.data).toList

/-- Every thread that has a slot has it alone, and who is still looking for one has found all
slots before taken, by others. -/
structure SlotsOk [Fintype ι] (s : Stack ι A B V) : Prop where
  id_of : ∀ i m, s.hazzard i = some m → s.pc i ≠ .ended → (s.hazard_pointers m).id = some i
  of_id : ∀ i m, (s.hazard_pointers m).id = some i → s.hazzard i = some m
  bind : ∀ i k, s.pc i = .bind k → s.hazzard i = none ∧ ∀ m < k, ∃ j, s.hazzard j = some m
  thrown : s.Slots

structure Inv [DecidableEq ι] [Fintype ι] (g : Ghost ι A B) (s : Stack ι A B V) : Prop where
  mem : Mem g s
  log : Ledger s.heap s.popped s.deleted
  threads : ∀ i, ThreadOk g s i (s.pc i)
  slots : SlotsOk s
  /-- nobody has a node in a slot that was looked at -/
  unseen : ∀ i j a n m r, (s.pc i).unseen = some (a, n) → (s.pc j).guard = some (m, r) →
    r.addr = a → n ≤ m.val

variable [DecidableEq ι] [Fintype ι] {g g' : Ghost ι A B} {s t : Stack ι A B V} {i j : ι}
  {p q : Pc A B V} {r : Ref A} {c : Ref B} {a : A} {b : B} {m : Slot}

/-- An empty stack and nobody at work. -/
theorem inv_init : Inv {} ({} : Stack ι A B V) where
  mem :=
    { live := by simp, cell_live := by simp, stack := rfl, stack_nodup := List.nodup_nil
      stack_at := by simp, reclaim := rfl, reclaim_nodup := List.nodup_nil, reclaim_at := by simp
      data_at := by simp [CellAt.on], data_some := by simp [CellAt.on], unpopped := by simp
      retired := by simp, lifo := ⟨[], .nil, rfl⟩ }
  log := .nil
  threads := fun _ =>
    { own_at := by simp [Pc.owns, Pc.own, Pc.fresh, Pc.old], own_valid := by rintro r ⟨⟩
      fresh := by rintro r ⟨⟩, old := by rintro r ⟨⟩, spare_at := by simp [Pc.spare]
      later := by rintro c r ⟨⟩, detached := rfl, detached_nodup := List.nodup_nil
      detached_at := by simp, cells_valid := by rintro c ⟨⟩, target := by rintro d c ⟨⟩
      slot := by rintro m ⟨⟩, published := by rintro m o ⟨⟩, guard_valid := by rintro m r ⟨⟩
      data := by rintro v r (⟨⟨⟩⟩ | ⟨⟨⟩⟩), cas := by rintro m r n ⟨⟩, res := rfl }
  slots :=
    { id_of := by rintro i m ⟨⟩, of_id := by rintro i m ⟨⟩, bind := by rintro i k ⟨⟩
      thrown := fun _ => rfl }
  unseen := by rintro i j a n m r ⟨⟩

/-! ## Who has what -/

omit [DecidableEq ι] [Fintype ι] in
/-- No node is with two threads. -/
theorem Ghost.With.unique (hi : g.With i a) (hj : g.With j a) : i = j := by
  rcases hi with hi | ⟨b, hi, hb⟩
  · rcases hj with hj | ⟨b, hj, -⟩
    · exact NodeAt.thread.inj (hi.symm.trans hj)
    · cases hi.symm.trans hj
  · rcases hj with hj | ⟨b', hj, hb'⟩
    · cases hi.symm.trans hj
    · obtain rfl := NodeAt.cell.inj (hi.symm.trans hj)
      exact CellAt.detached.inj (hb.symm.trans hb')

omit [DecidableEq ι] [Fintype ι] in
/-- A node that a thread has is not on the stack. -/
theorem Ghost.With.ne_stack (hi : g.With i a) : g.node a ≠ .stack := by
  rintro hs
  rcases hi with hi | ⟨b, hi, -⟩ <;> cases hi.symm.trans hs

omit [Fintype ι] in
/-- What a thread owns is labelled as its own. -/
theorem ThreadOk.with_own (h : ThreadOk g s i p) (hr : p.own = some r) : g.With i r.addr :=
  Or.inl ((h.own_at _).mp (Pc.owns_of_own hr))

omit [Fintype ι] in
/-- The cell that a thread has read is on its list. -/
theorem ThreadOk.target_at (h : ThreadOk g s i p) {d : Option (Ref A)}
    (hc : p.target = some (d, c)) : g.cell c.addr = .detached i := by
  have hcells : c ∈ p.cells := by cases p <;> cases hc <;> exact List.mem_cons_self
  have hspare : p.spare = none := by cases p <;> cases hc <;> rfl
  refine (h.detached_at _).mp ((Pc.mem_or_spare h.detached hcells).resolve_right ?_)
  rw [hspare]
  rintro ⟨⟩

omit [Fintype ι] in
/-- The node that a thread has read from a cell is with it. -/
theorem ThreadOk.with_target (h : ThreadOk g s i p) (hmem : Mem g s)
    (hr : p.target = some (some r, c)) : g.With i r.addr := by
  obtain ⟨r', hr', hdata, -⟩ := h.target _ _ hr
  obtain rfl := Option.some.inj hr'
  have hat := h.target_at hr
  refine Or.inr ⟨c.addr, (hmem.data_at _ _).mpr ⟨?_, hdata⟩, hat⟩
  rw [hat]
  rfl

omit [Fintype ι] in
/-- A thread looks for nodes that are with it. -/
theorem ThreadOk.with_unseen (h : ThreadOk g s i p) (hmem : Mem g s) {n : Nat}
    (hp : p.unseen = some (a, n)) : g.With i a := by
  cases p with
  | push_next v r | push_cas v r | delete_old r v | check_old r k v =>
      cases hp
      exact h.with_own rfl
  | check_data d k c rest v | delete_data d c rest v =>
      obtain ⟨r, rfl, hr⟩ := Option.map_eq_some_iff.mp hp
      cases hr
      exact h.with_target hmem rfl
  | _ => cases hp

omit [DecidableEq ι] [Fintype ι] in
theorem Pc.spare_of_later (h : p.later = some (c, r)) : p.spare = some c := by
  cases p with
  | add_next c' k v | add_cas c' k v =>
      cases k <;> cases h
      rfl
  | _ => cases h

omit [DecidableEq ι] [Fintype ι] in
/-- A hazard pointer that was published is in the slot the thread holds. -/
theorem Pc.slot_of_published {o : Option A} (h : p.published = some (m, o)) :
    p.slot = some m := by
  cases p <;> cases h <;> rfl

omit [DecidableEq ι] [Fintype ι] in
/-- A node that is guarded was published, and looked at again after that. -/
theorem Pc.published_of_guard (h : p.guard = some (m, r)) :
    p.published = some (m, some r.addr) := by
  cases p <;> cases h <;> rfl

omit [DecidableEq ι] [Fintype ι] in
/-- The nodes that a thread reads and those that it looks for are not the same. -/
theorem Pc.guard_of_unseen {x : A × Nat} (h : p.unseen = some x) : p.guard ≠ some (m, r) := by
  cases p with
  | read_next m r | cas_head m r n => cases h
  | _ => rintro ⟨⟩

omit [DecidableEq ι] [Fintype ι] in
/-- The result of a pop depends on the data of the popped node only. -/
theorem Pc.res_congr {data data' : A → Option V}
    (h : ∀ r, p.old = some r → data r.addr = data' r.addr) : p.res data = p.res data' := by
  cases p with
  | clear hp o =>
      cases o with
      | none => rfl
      | some r => exact h r rfl
  | swap r => exact h r rfl
  | _ => rfl

omit [DecidableEq ι] [Fintype ι] in
/-- A node to be deleted was found in none of the slots. -/
theorem Pc.unseen_of_dead (h : p.dead = some r) :
    p.unseen = some (r.addr, max_hazard_pointers) := by
  cases p with
  | delete_old r' v =>
      cases h
      rfl
  | delete_data d c rest v =>
      obtain rfl : d = some r := h
      rfl
  | _ => cases h

omit [DecidableEq ι] [Fintype ι] in
theorem Pc.unseen_of_fresh (h : p.fresh = some r) :
    p.unseen = some (r.addr, max_hazard_pointers) := by
  cases p <;> cases h <;> rfl

/-- Nobody has a node that is in no slot. -/
theorem Inv.unguarded (h : Inv g s) (hi : (s.pc i).unseen = some (a, max_hazard_pointers))
    (hj : (s.pc j).guard = some (m, r)) : r.addr ≠ a :=
  fun ha => absurd m.isLt (Nat.not_lt.mpr (h.unseen i j a _ m r hi hj ha))

/-- A slot belongs to one thread. -/
theorem Inv.slot_unique (h : Inv g s) (hi : (s.pc i).slot = some m) (hj : (s.pc j).slot = some m) :
    i = j := by
  have hended : ∀ {k : ι}, (s.pc k).slot = some m → s.pc k ≠ .ended := by
    intro k hk heq
    rw [heq] at hk
    cases hk
  have hid := h.slots.id_of i m ((h.threads i).slot m hi) (hended hi)
  rw [h.slots.id_of j m ((h.threads j).slot m hj) (hended hj)] at hid
  exact (Option.some.inj hid).symm

/-! ## What a step leaves to the other threads -/

structure Frame (g g' : Ghost ι A B) (s t : Stack ι A B V) (i : ι) : Prop where
  thread_at : ∀ j, j ≠ i → ∀ a, g'.node a = .thread j ↔ g.node a = .thread j
  detached : ∀ j, j ≠ i → g'.detached j = g.detached j
  detached_at : ∀ j, j ≠ i → ∀ b, g'.cell b = .detached j ↔ g.cell b = .detached j
  spare_at : ∀ j, j ≠ i → ∀ b, g'.cell b = .spare j ↔ g.cell b = .spare j
  valid : ∀ r, Valid s.heap r → Valid t.heap r ∨ (s.pc i).dead = some r
  next : ∀ a, (s.heap a).live = true → (s.pc i).fresh.map Ref.addr ≠ some a → t.next a = s.next a
  data : ∀ a, (s.heap a).live = true → g.node a ≠ .thread i → t.data a = s.data a
  cell_valid : ∀ c, Valid s.cells c → Valid t.cells c ∨ (s.pc i).spare = some c
  cell_next : ∀ b, (s.cells b).live = true → g.cell b ≠ .detached i → g.cell b ≠ .spare i →
    t.cellNext b = s.cellNext b
  cell_data : ∀ b, (s.cells b).live = true → t.cellData b = s.cellData b
  pointer : ∀ m, (s.pc i).slot ≠ some m → t.pointer m = s.pointer m
  hazzard : ∀ j, j ≠ i → t.hazzard j = s.hazzard j
  popped : ∀ r ∈ s.popped, r ∈ t.popped
  added : ∀ r ∈ t.popped, r ∈ s.popped ∨ g.node r.addr = .stack
  history : ∀ j, j ≠ i → poppedBy j t.history = poppedBy j s.history
  returned : ∀ j, j ≠ i → t.returned j = s.returned j

/-- **The frame.** What is true of a thread stays true in a step of another. -/
theorem ThreadOk.frame (h : Inv g s) (hf : Frame g g' s t i) (hji : j ≠ i) :
    ThreadOk g' t j (s.pc j) := by
  have hok := h.threads j
  have hown_live : ∀ {r}, (s.pc j).own = some r → (s.heap r.addr).live = true :=
    fun hr => (hok.own_valid _ hr).1
  have hother : ∀ {a}, g.With j a → g.node a ≠ .thread i :=
    fun hj hi => hji (hj.unique (Or.inl hi))
  have hkept : ∀ {r}, g.With j r.addr → Valid s.heap r → Valid t.heap r := by
    intro r hj hr
    refine (hf.valid r hr).resolve_right fun hdead => hji (hj.unique ?_)
    exact (h.threads i).with_unseen h.mem (Pc.unseen_of_dead hdead)
  -- the cells of the thread
  have hlisted : ∀ {b}, b ∈ g.detached j → g.cell b = .detached j :=
    fun hb => (hok.detached_at _).mp hb
  have hspare : ∀ {c : Ref B}, (s.pc j).spare = some c → g.cell c.addr = .spare j :=
    fun hc => (hok.spare_at _).mp (by rw [hc]; rfl)
  have hcell_live : ∀ {b}, g.cell b = .detached j ∨ g.cell b = .spare j →
      (s.cells b).live = true := by
    intro b hb
    rw [h.mem.cell_live]
    rcases hb with hb | hb <;> rw [hb] <;> rintro ⟨⟩
  refine { own_at := ?_, own_valid := ?_, fresh := ?_, old := ?_, spare_at := ?_, later := ?_
           detached := ?_, detached_nodup := ?_, detached_at := ?_, cells_valid := ?_
           target := ?_, slot := ?_, published := ?_, guard_valid := ?_, data := ?_, cas := ?_
           res := ?_ }
  · exact fun a => (hok.own_at a).trans (hf.thread_at j hji a).symm
  · exact fun r hr => hkept (hok.with_own hr) (hok.own_valid r hr)
  · intro r hr hmem
    rcases hf.added r hmem with hold | hstack
    · exact hok.fresh r hr hold
    · exact (hok.with_own (Pc.own_of_fresh hr)).ne_stack hstack
  · exact fun r hr => hf.popped r (hok.old r hr)
  · exact fun b => (hok.spare_at b).trans (hf.spare_at j hji b).symm
  · intro c r hc
    have hspare' : (s.pc j).spare = some c := Pc.spare_of_later hc
    rw [hf.cell_data _ (hcell_live (Or.inr (hspare hspare')))]
    exact hok.later c r hc
  · rw [hf.detached j hji]
    refine hok.detached.congr fun b hb => ?_
    have hat := hlisted hb
    refine hf.cell_next b (hcell_live (Or.inl hat)) ?_ ?_
    · rw [hat]
      exact fun heq => hji (CellAt.detached.inj heq)
    · rw [hat]
      rintro ⟨⟩
  · rw [hf.detached j hji]
    exact hok.detached_nodup
  · intro b
    rw [hf.detached j hji]
    exact (hok.detached_at b).trans (hf.detached_at j hji b).symm
  · intro c hc
    refine (hf.cell_valid c (hok.cells_valid c hc)).resolve_right fun hfreed => ?_
    have hat : g.cell c.addr = .spare i := ((h.threads i).spare_at _).mp (by rw [hfreed]; rfl)
    rcases Pc.mem_or_spare hok.detached hc with hmem | hsp
    · cases (hlisted hmem).symm.trans hat
    · exact hji (CellAt.spare.inj ((hspare hsp).symm.trans hat))
  · intro d c hc
    obtain ⟨r, rfl, hdata, hvalid⟩ := hok.target d c hc
    have hwith := hok.with_target h.mem hc
    refine ⟨r, rfl, ?_, hkept hwith hvalid⟩
    rw [hf.cell_data _ (hcell_live (Or.inl (hok.target_at hc)))]
    exact hdata
  · intro m hm
    rw [hf.hazzard j hji]
    exact hok.slot m hm
  · intro m o ho
    rw [hf.pointer m fun hi => hji (h.slot_unique (Pc.slot_of_published ho) hi)]
    exact hok.published m o ho
  · intro m r hr
    refine (hf.valid r (hok.guard_valid m r hr)).resolve_right fun hdead => ?_
    exact h.unguarded (Pc.unseen_of_dead hdead) hr rfl
  · intro v r hr
    have hown : (s.pc j).own = some r := by rcases hr with hr | hr <;> rw [hr] <;> rfl
    rw [hf.data _ (hown_live hown) (hother (hok.with_own hown))]
    exact hok.data v r hr
  · intro m r n hr
    have hguard : (s.pc j).guard = some (m, r) := by rw [hr]; rfl
    rw [hf.next _ (hok.guard_valid m r hguard).1]
    · exact hok.cas m r n hr
    · intro hfresh
      obtain ⟨r', hr', haddr⟩ := Option.map_eq_some_iff.mp hfresh
      exact h.unguarded (Pc.unseen_of_fresh hr') hguard haddr.symm
  · rw [hf.history j hji, hf.returned j hji, hok.res]
    congr 2
    exact Pc.res_congr fun r hr =>
      (hf.data _ (hown_live (Pc.own_of_old hr)) (hother (hok.with_own (Pc.own_of_old hr)))).symm

/-- **The rule for a step.** The thread `i` moves to `p`, and leaves the others what they have. A
node that it reads from now on is in the stack, and what it looks for nobody has in the slots
where it has looked. -/
theorem Inv.of_frame (h : Inv g s) (hf : Frame g g' s t i)
    (hpc : t.pc = Function.update s.pc i p) (hmem : Mem g' t)
    (hlog : Ledger t.heap t.popped t.deleted) (hslots : SlotsOk t) (hi : ThreadOk g' t i p)
    (hguard : ∀ m r, p.guard = some (m, r) →
      (s.pc i).guard = some (m, r) ∨ g.node r.addr = .stack)
    (hunseen : ∀ a n, p.unseen = some (a, n) → ∀ j, j ≠ i → ∀ m r,
      (s.pc j).guard = some (m, r) → r.addr = a → n ≤ m.val) : Inv g' t where
  mem := hmem
  log := hlog
  threads := by
    rw [hpc]
    exact forall_update_at hi fun j hj => ThreadOk.frame h hf hj
  slots := hslots
  unseen := by
    intro j k a n m r hj hk ha
    rw [hpc] at hj hk
    by_cases hji : j = i
    · subst hji
      rw [Function.update_self] at hj
      by_cases hkj : k = j
      · subst hkj
        rw [Function.update_self] at hk
        exact absurd hk (Pc.guard_of_unseen hj)
      · rw [Function.update_of_ne hkj] at hk
        exact hunseen a n hj k hkj m r hk ha
    · rw [Function.update_of_ne hji] at hj
      by_cases hki : k = i
      · subst hki
        rw [Function.update_self] at hk
        rcases hguard m r hk with hold | hstack
        · exact h.unseen j k a n m r hj hold ha
        · refine absurd hstack ?_
          rw [ha]
          exact ((h.threads j).with_unseen h.mem hj).ne_stack
      · rw [Function.update_of_ne hki] at hk
        exact h.unseen j k a n m r hj hk ha

end BoostNet.HazardPointerStack
