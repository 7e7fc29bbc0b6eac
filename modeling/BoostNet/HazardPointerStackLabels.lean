/-
Where the nodes and the cells of `hazard_pointer_stack` are.

Each node, and each `data_to_reclaim`, has a label: a node is in the stack, with the thread that
pushes or has popped it, or in a cell; a cell is on `nodes_to_reclaim`, on the list that a thread
has taken, or with a thread that makes or deletes it. So no two of them have the same node.

`Nodes` and `Cells` say that the labels are those of the heap and of the two lists, and there is
one lemma for each way in which a label changes.
-/
import BoostNet.HazardPointerStack
import BoostNet.Threads

set_option autoImplicit false

namespace BoostNet.HazardPointerStack

open Heap
open LockFreeStack (Ev Lifo)

variable {ι A B V : Type*} {a : A} {b : B}

/-! ## Labels -/

inductive NodeAt (ι B : Type*) where
  | nowhere
  | stack
  | thread (i : ι)
  | cell (b : B)

inductive CellAt (ι : Type*) where
  | nowhere
  | listed
  | detached (i : ι)
  | spare (i : ι)

/-- The cell is on a list. -/
def CellAt.on : CellAt ι → Bool
  | .listed | .detached _ => true
  | .nowhere | .spare _ => false

/-- A thread takes the list. -/
def CellAt.taken (i : ι) : CellAt ι → CellAt ι
  | .listed => .detached i
  | x => x

/-- The labels of the nodes are those of the heap and of the stack, whose nodes are `l`. -/
structure Nodes (node : A → NodeAt ι B) (l : List A) (heap : A → Cell (Node A V))
    (head : Option A) (popped : List (Ref A)) (history : List (Ev ι V)) : Prop where
  live : ∀ a, (heap a).live = true ↔ node a ≠ .nowhere
  stack : Path (fun a => (heap a).val.next) head l none
  stack_nodup : l.Nodup
  stack_at : ∀ a, a ∈ l ↔ node a = .stack
  unpopped : ∀ a, node a = .stack → ref heap a ∉ popped
  lifo : ∃ vs, Lifo history vs ∧ (l.map fun a => (heap a).val.data) = vs.map some

/-- The labels of the cells are those of their heap and of the list, whose cells are `l`. -/
structure Cells (cell : B → CellAt ι) (l : List B) (cells : B → Cell (DataToReclaim A B))
    (list : Option B) : Prop where
  cell_live : ∀ b, (cells b).live = true ↔ cell b ≠ .nowhere
  reclaim : Path (fun b => (cells b).val.next) list l none
  reclaim_nodup : l.Nodup
  reclaim_at : ∀ b, b ∈ l ↔ cell b = .listed
  data_some : ∀ b, (cell b).on = true → ∃ a, (cells b).val.data = some a

/-! ## Nodes -/

section Nodes

variable [DecidableEq A] {node : A → NodeAt ι B} {l : List A} {heap : A → Cell (Node A V)}
  {head : Option A} {popped : List (Ref A)} {history : List (Ev ι V)} {x : NodeAt ι B}

/-- A node that is not in the stack gets another label. -/
theorem Nodes.relabel (h : Nodes node l heap head popped history) (ha : node a ≠ .stack)
    (hlive : node a ≠ .nowhere) (hx : x ≠ .stack) (hxn : x ≠ .nowhere) :
    Nodes (Function.update node a x) l heap head popped history where
  live b := (h.live b).trans (not_congr (update_eq_iff hxn hlive).symm)
  stack := h.stack
  stack_nodup := h.stack_nodup
  stack_at b := (h.stack_at b).trans (update_eq_iff hx ha).symm
  unpopped b hb := h.unpopped b ((update_eq_iff hx ha).mp hb)
  lifo := h.lifo

omit [DecidableEq A] in
/-- The nodes of the stack are not written, and what is in use stays so. -/
theorem Nodes.congr {node' : A → NodeAt ι B} {heap' : A → Cell (Node A V)}
    (h : Nodes node l heap head popped history)
    (hlive : ∀ a, (heap' a).live = true ↔ node' a ≠ .nowhere)
    (hat : ∀ a, node' a = .stack ↔ node a = .stack) (hheap : ∀ a ∈ l, heap' a = heap a) :
    Nodes node' l heap' head popped history where
  live := hlive
  stack := h.stack.congr fun a ha => congrArg (fun c => c.val.next) (hheap a ha)
  stack_nodup := h.stack_nodup
  stack_at a := (h.stack_at a).trans (hat a).symm
  unpopped := by
    intro a ha
    have hold := (hat a).mp ha
    rw [ref, hheap a ((h.stack_at a).mpr hold)]
    exact h.unpopped a hold
  lifo := by
    obtain ⟨vs, hvs, hmap⟩ := h.lifo
    refine ⟨vs, hvs, ?_⟩
    rw [← hmap]
    exact List.map_congr_left fun a ha => congrArg (fun c => c.val.data) (hheap a ha)

/-- `new node`. -/
theorem Nodes.alloc (h : Nodes node l heap head popped history) {v : Node A V}
    (hdead : (heap a).live = false) (hx : x ≠ .stack) (hxn : x ≠ .nowhere) :
    Nodes (Function.update node a x) l (alloc heap a v) head popped history := by
  have hnow : node a = .nowhere := by
    by_contra hne
    rw [(h.live a).mpr hne] at hdead
    cases hdead
  refine h.congr (fun b => ?_) (fun b => update_eq_iff hx (by rw [hnow]; rintro ⟨⟩))
    fun b hb => alloc_of_ne fun heq => ?_
  · by_cases hb : b = a
    · rw [hb, alloc_self, Function.update_self]
      exact iff_of_true rfl hxn
    · rw [alloc_of_ne hb, Function.update_of_ne hb]
      exact h.live b
  · have hat := (h.stack_at b).mp hb
    rw [heq, hnow] at hat
    cases hat

/-- `delete`. -/
theorem Nodes.free (h : Nodes node l heap head popped history) (ha : node a ≠ .stack) :
    Nodes (Function.update node a .nowhere) l (free heap a) head popped history := by
  refine h.congr (fun b => ?_) (fun b => update_eq_iff (by rintro ⟨⟩) ha)
    fun b hb => free_of_ne fun heq => ha (heq ▸ (h.stack_at b).mp hb)
  by_cases hb : b = a
  · rw [hb, free_self, Function.update_self]
    exact iff_of_false (by rintro ⟨⟩) fun hne => hne rfl
  · rw [free_of_ne hb, Function.update_of_ne hb]
    exact h.live b

/-- A node is pushed that points to the first one. -/
theorem Nodes.push (h : Nodes node l heap head popped history) {v : V} (hlive : node a ≠ .nowhere)
    (ha : node a ≠ .stack) (hnext : (heap a).val.next = head) (hdata : (heap a).val.data = some v)
    (hnew : ref heap a ∉ popped) :
    Nodes (Function.update node a .stack) (a :: l) heap (some a) popped
      (history ++ [.push v]) where
  live b := (h.live b).trans (not_congr (update_eq_iff (by rintro ⟨⟩) hlive).symm)
  stack := by
    refine ⟨rfl, ?_⟩
    change Path _ (heap a).val.next l none
    rw [hnext]
    exact h.stack
  stack_nodup := List.nodup_cons.mpr ⟨fun hmem => ha ((h.stack_at a).mp hmem), h.stack_nodup⟩
  stack_at b := by
    rw [List.mem_cons]
    by_cases hb : b = a
    · rw [hb, Function.update_self]
      exact iff_of_true (Or.inl rfl) rfl
    · rw [Function.update_of_ne hb, h.stack_at]
      exact or_iff_right hb
  unpopped b hb := by
    by_cases hba : b = a
    · rw [hba]
      exact hnew
    · rw [Function.update_of_ne hba] at hb
      exact h.unpopped b hb
  lifo := by
    obtain ⟨vs, hvs, hmap⟩ := h.lifo
    refine ⟨v :: vs, hvs.push v, ?_⟩
    rw [List.map_cons, List.map_cons, ← hmap, hdata]

/-- The first node is popped. -/
theorem Nodes.pop (h : Nodes node l heap (some a) popped history) (i : ι)
    (hx : x ≠ .stack) (hxn : x ≠ .nowhere) :
    ∃ m v, l = a :: m ∧ (heap a).val.data = some v ∧
      Nodes (Function.update node a x) m heap (heap a).val.next (ref heap a :: popped)
        (history ++ [.pop i (some v)]) := by
  obtain ⟨m, rfl, hpath⟩ := h.stack.eq_cons
  have hnodup := List.nodup_cons.mp h.stack_nodup
  have hat := (h.stack_at a).mp List.mem_cons_self
  obtain ⟨vs, hlifo, hdata⟩ := h.lifo
  cases vs with
  | nil => exact absurd hdata (by rintro ⟨⟩)
  | cons v vs =>
      obtain ⟨hv, hrest⟩ := List.cons.inj hdata
      refine ⟨m, v, rfl, hv, ?_, hpath, hnodup.2, fun b => ?_, fun b hb => ?_,
        vs, hlifo.pop i, hrest⟩
      · exact fun b => (h.live b).trans
          (not_congr (update_eq_iff hxn (by rw [hat]; rintro ⟨⟩)).symm)
      · have hold := h.stack_at b
        by_cases hb : b = a
        · rw [hb, Function.update_self]
          exact iff_of_false hnodup.1 hx
        · rw [Function.update_of_ne hb, ← hold, List.mem_cons]
          exact (or_iff_right hb).symm
      · have hba : b ≠ a := fun heq => hx (by rw [heq, Function.update_self] at hb; exact hb)
        rw [Function.update_of_ne hba] at hb
        intro hmem
        rcases List.mem_cons.mp hmem with heq | hmem
        · exact hba (congrArg Ref.addr heq)
        · exact h.unpopped b hb hmem

end Nodes

/-! ## Cells -/

section Cells

variable [DecidableEq B] {cell : B → CellAt ι} {l : List B} {cells : B → Cell (DataToReclaim A B)}
  {list : Option B} {x : CellAt ι}

omit [DecidableEq B] in
/-- The cells of the list are not written, and none comes to it. -/
theorem Cells.congr {cell' : B → CellAt ι} {cells' : B → Cell (DataToReclaim A B)}
    (h : Cells cell l cells list)
    (hlive : ∀ b, (cells' b).live = true ↔ cell' b ≠ .nowhere)
    (hat : ∀ b, cell' b = .listed ↔ cell b = .listed) (hcells : ∀ b ∈ l, cells' b = cells b)
    (hdata : ∀ b, (cell' b).on = true → (cell b).on = true ∧
      (cells' b).val.data = (cells b).val.data) :
    Cells cell' l cells' list where
  cell_live := hlive
  reclaim := h.reclaim.congr fun b hb => congrArg (fun c => c.val.next) (hcells b hb)
  reclaim_nodup := h.reclaim_nodup
  reclaim_at b := (h.reclaim_at b).trans (hat b).symm
  data_some b hb := by
    obtain ⟨hon, heq⟩ := hdata b hb
    rw [heq]
    exact h.data_some b hon

/-- `new data_to_reclaim`. -/
theorem Cells.alloc (h : Cells cell l cells list) {v : DataToReclaim A B}
    (hdead : (cells b).live = false) (hx : x.on = false) (hxn : x ≠ .nowhere) :
    Cells (Function.update cell b x) l (alloc cells b v) list := by
  have hnow : cell b = .nowhere := by
    by_contra hne
    rw [(h.cell_live b).mpr hne] at hdead
    cases hdead
  have hne : ∀ {b'}, cell b' ≠ .nowhere → b' ≠ b := fun hb' heq => hb' (heq ▸ hnow)
  refine h.congr (fun b' => ?_)
    (fun b' => update_eq_iff (by rintro rfl; cases hx) (by rw [hnow]; rintro ⟨⟩))
    (fun b' hb' => alloc_of_ne (hne (by rw [(h.reclaim_at b').mp hb']; rintro ⟨⟩))) fun b' hb' => ?_
  · by_cases hb : b' = b
    · rw [hb, alloc_self, Function.update_self]
      exact iff_of_true rfl hxn
    · rw [alloc_of_ne hb, Function.update_of_ne hb]
      exact h.cell_live b'
  · by_cases hb : b' = b
    · rw [hb, Function.update_self, hx] at hb'
      cases hb'
    · rw [Function.update_of_ne hb] at hb'
      exact ⟨hb', by rw [alloc_of_ne hb]⟩

/-- A cell is deleted that is on no list. -/
theorem Cells.free (h : Cells cell l cells list) (hb : (cell b).on = false) :
    Cells (Function.update cell b .nowhere) l (free cells b) list := by
  have hne : ∀ {b'}, cell b' = .listed → b' ≠ b := by
    rintro b' hb' rfl
    rw [hb'] at hb
    cases hb
  refine h.congr (fun b' => ?_) (fun b' => update_eq_iff (by rintro ⟨⟩) fun heq => hne heq rfl)
    (fun b' hb' => free_of_ne (hne ((h.reclaim_at b').mp hb'))) fun b' hb' => ?_
  · by_cases hb : b' = b
    · rw [hb, free_self, Function.update_self]
      exact iff_of_false (by rintro ⟨⟩) fun hne => hne rfl
    · rw [free_of_ne hb, Function.update_of_ne hb]
      exact h.cell_live b'
  · by_cases hbb : b' = b
    · rw [hbb, Function.update_self] at hb'
      cases hb'
    · rw [Function.update_of_ne hbb] at hb'
      exact ⟨hb', by rw [free_of_ne hbb]⟩

/-- A cell gets another label, and is on the list neither before nor after that. -/
theorem Cells.relabel (h : Cells cell l cells list) (hb : cell b ≠ .listed)
    (hlive : cell b ≠ .nowhere) (hx : x ≠ .listed) (hxn : x ≠ .nowhere)
    (hon : x.on = true → (cell b).on = true) :
    Cells (Function.update cell b x) l cells list := by
  refine h.congr (fun b' => (h.cell_live b').trans (not_congr (update_eq_iff hxn hlive).symm))
    (fun b' => update_eq_iff hx hb) (fun _ _ => rfl) fun b' hb' => ⟨?_, rfl⟩
  by_cases hbb : b' = b
  · rw [hbb, Function.update_self] at hb'
    exact hbb ▸ hon hb'
  · rwa [Function.update_of_ne hbb] at hb'

/-- A cell is put on the list that points to the first one. -/
theorem Cells.add (h : Cells cell l cells list) (hb : cell b ≠ .listed) (hlive : cell b ≠ .nowhere)
    (hnext : (cells b).val.next = list) (hdata : ∃ a, (cells b).val.data = some a) :
    Cells (Function.update cell b .listed) (b :: l) cells (some b) where
  cell_live b' := (h.cell_live b').trans (not_congr (update_eq_iff (by rintro ⟨⟩) hlive).symm)
  reclaim := by
    refine ⟨rfl, ?_⟩
    change Path _ (cells b).val.next l none
    rw [hnext]
    exact h.reclaim
  reclaim_nodup := List.nodup_cons.mpr ⟨fun hmem => hb ((h.reclaim_at b).mp hmem), h.reclaim_nodup⟩
  reclaim_at b' := by
    rw [List.mem_cons]
    by_cases hbb : b' = b
    · rw [hbb, Function.update_self]
      exact iff_of_true (Or.inl rfl) rfl
    · rw [Function.update_of_ne hbb, h.reclaim_at]
      exact or_iff_right hbb
  data_some b' hb' := by
    by_cases hbb : b' = b
    · rw [hbb]
      exact hdata
    · rw [Function.update_of_ne hbb] at hb'
      exact h.data_some b' hb'

omit [DecidableEq B] in
theorem CellAt.taken_on {i : ι} : (x.taken i).on = x.on := by
  cases x <;> rfl

omit [DecidableEq B] in
theorem CellAt.taken_eq {i : ι} {y : CellAt ι} (hl : y ≠ .listed) (hy : y ≠ .detached i) :
    x.taken i = y ↔ x = y := by
  cases x with
  | listed => exact iff_of_false (Ne.symm hy) (Ne.symm hl)
  | _ => exact Iff.rfl

omit [DecidableEq B] in
/-- The list is taken. -/
theorem Cells.take (h : Cells cell l cells list) (i : ι) :
    Cells (fun b => (cell b).taken i) [] cells none where
  cell_live b := (h.cell_live b).trans
    (not_congr (CellAt.taken_eq (by rintro ⟨⟩) (by rintro ⟨⟩)).symm)
  reclaim := rfl
  reclaim_nodup := List.nodup_nil
  reclaim_at b := iff_of_false List.not_mem_nil (by cases cell b <;> rintro ⟨⟩)
  data_some b hb := h.data_some b (CellAt.taken_on.symm.trans hb)

end Cells

end BoostNet.HazardPointerStack
