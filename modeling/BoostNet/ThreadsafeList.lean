/-
`threadsafe_list` (Concurrent/day16-threadsafelist/threadsafelist.h): its hand-over-hand
locking, for any threads that call `push_front`, `for_each`, `find_first_if` and `remove_if`.

* Nobody waits for a node that is not in the list, and a node is destroyed when it is not.
* There is no deadlock: a thread that waits holds the node before the one it waits for, so
  whoever it waits for is ahead of it, and the last of them waits for nobody.
* What a `for_each` has before it (`Ahead`) is the rest of the list behind the node that it
  holds. Others change the list behind that node only by removing: nobody passes it, and what
  is pushed is pushed at the head.
* Hence a `for_each` returns (`for_each_returns`): the nodes that it has not visited yet are an
  upper bound of what is before it, and the others can only make that less.
-/
import Mathlib.Logic.Relation
import BoostNet.LockedListSteps

set_option autoImplicit false

namespace BoostNet.ThreadsafeList

open Heap LockedList

variable {ι T : Type*} {s t : LockedList ι T} {i j : ι} {p : Pc T} {a n cur nxt : Nat}
  {link : Nat → Option Nat} {chain rest : List Nat}

/-- The thread `i` waits for a mutex that `j` has locked. -/
def WaitsFor (s : LockedList ι T) (i j : ι) : Prop :=
  ∃ a, (s.pc i).waits = some a ∧ s.m a = some j

/-! ## No deadlock -/

variable [DecidableEq ι]

omit [DecidableEq ι] in
/-- A thread touches the head, what it holds or owns, and what it is to lock. -/
theorem touches_of_derefs (hplain : p.plain = true) (ha : a ∈ p.derefs) :
    a = 0 ∨ a ∈ p.holds ∨ p.owns = some a ∨ p.waits = some a := by
  cases p <;> simp [Pc.derefs, Pc.plain, Pc.holds, Pc.owns, Pc.fresh, Pc.old, Pc.waits] at *
  all_goals tauto

omit [DecidableEq ι] in
/-- **Who waits on which node.** A thread waits for the head, or for the node behind the one it
holds; either is in the list. -/
theorem waits_for_next (h : Inv .threadsafe_list link chain s) (ha : (s.pc i).waits = some a) :
    a ∈ chain ∧ ((s.pc i).holds = [] ∧ a = 0 ∨
      ∃ cur, (s.pc i).holds = [cur] ∧ cur ∈ chain ∧ link cur = some a) := by
  have hok := h.threads i
  cases hq : s.pc i <;> rw [hq] at hok ha <;> cases ha
  case front_lock n => exact ⟨h.mem.head_mem, Or.inl ⟨rfl, rfl⟩⟩
  case head_lock op => exact ⟨h.mem.head_mem, Or.inl ⟨rfl, rfl⟩⟩
  case back_lock n => exact absurd (hok.plain rfl) (by rintro ⟨⟩)
  case next_lock op cur =>
    have hc := hok.mem_chain List.mem_cons_self (by rintro ⟨⟩)
    exact ⟨h.mem.path.next_mem hc hok.knows, Or.inr ⟨cur, rfl, hc, hok.knows⟩⟩

omit [DecidableEq ι] in
/-- What a thread reads and writes is there. -/
theorem live_of_derefs (h : Inv .threadsafe_list link chain s) (ha : a ∈ (s.pc i).derefs) :
    s.live a = true := by
  have hok := h.threads i
  rcases touches_of_derefs (hok.plain rfl) ha with rfl | hheld | hown | hwaits
  · exact h.mem.live 0 h.mem.head_mem
  · exact h.live_of_held hheld
  · exact (hok.owned a hown).2.1
  · exact h.mem.live a (waits_for_next h hwaits).1

/-- A thread that does not wait for a locked mutex can go on. -/
theorem can_run (h : Inv .threadsafe_list link chain s) (hpc : s.pc i ≠ .idle)
    (hfree : ∀ a, (s.pc i).waits = some a → s.m a = none) :
    (step .threadsafe_list s (.run i)).isSome = true := by
  have hok := h.threads i
  simp only [step]
  rw [if_pos (fun a ha => live_of_derefs h ha)]
  have hdata : ∀ a ∈ (s.pc i).holds, (s.pc i).old ≠ some a → a ≠ 0 → ∃ v, s.data a = some v := by
    intro a ha hold h0
    exact Option.isSome_iff_exists.mp (h.mem.data a (hok.mem_chain ha hold) h0)
  have hplain := hok.plain rfl
  have hknows := hok.knows
  cases hq : s.pc i <;> rw [hq] at hplain hknows hfree hdata hpc <;> simp only [run_step, hq]
  case front_lock n => simp [lock, hfree 0 rfl]
  case head_lock op => simp [lock, hfree 0 rfl]
  case next_lock op cur nxt => simp [lock, hfree nxt rfl]
  case idle => exact absurd rfl hpc
  case locked op cur nxt =>
    have h0 : nxt ≠ 0 := fun heq => h.mem.path.next_ne_head h.mem.nodup
      ((hq ▸ hok).mem_chain List.mem_cons_self (by rintro ⟨⟩)) (heq ▸ hknows : link cur = some 0)
    obtain ⟨v, hv⟩ := hdata nxt (by simp [Pc.holds]) (by rintro ⟨⟩) h0
    cases op with
    | for_each | find_first_if f => rfl
    | remove_if f => simp [locked_step, hv]
    | remove_first f | insert_if f v => cases hplain
  case visit op nxt =>
    obtain ⟨v, hv⟩ := hdata nxt List.mem_cons_self (by rintro ⟨⟩) hknows
    cases op with
    | for_each | find_first_if f => simp [visit_step, hv]
    | remove_if f | remove_first f | insert_if f v => cases hplain
  all_goals first | rfl | cases hplain

omit [DecidableEq ι] in
/-- What is behind a node of the list. -/
theorem path_behind (h : Inv .threadsafe_list link chain s) {pre : List Nat}
    (hsplit : chain = pre ++ cur :: rest) : Path link (link cur) rest none := by
  have hpath := h.mem.path
  rw [hsplit] at hpath
  obtain ⟨r, -, -, hrest⟩ := path_append.mp hpath
  exact hrest

omit [DecidableEq ι] in
/-- A thread that holds a node waits, if at all, for the one behind it. -/
theorem waits_ahead (h : Inv .threadsafe_list link chain s) {pre : List Nat}
    (hsplit : chain = pre ++ cur :: rest) (hheld : cur ∈ (s.pc i).holds)
    (ha : (s.pc i).waits = some a) : ∃ rest', rest = a :: rest' := by
  obtain ⟨-, ⟨hnone, -⟩ | ⟨cur', hone, -, hlink⟩⟩ := waits_for_next h ha
  · rw [hnone] at hheld
    cases hheld
  · rw [hone] at hheld
    obtain rfl := List.mem_singleton.mp hheld
    have hrest := path_behind h hsplit
    rw [hlink] at hrest
    obtain ⟨rest', heq, -⟩ := hrest.eq_cons
    exact ⟨rest', heq⟩

/-- A thread waits for one that holds what it is to lock, or can go on. -/
theorem runs_or_waits (h : Inv .threadsafe_list link chain s) (hpc : s.pc i ≠ .idle) :
    (step .threadsafe_list s (.run i)).isSome = true ∨
      ∃ a j, (s.pc i).waits = some a ∧ a ∈ (s.pc j).holds ∧ WaitsFor s i j := by
  by_cases hfree : ∀ a, (s.pc i).waits = some a → s.m a = none
  · exact Or.inl (can_run h hpc hfree)
  · push Not at hfree
    obtain ⟨a, ha, hm⟩ := hfree
    obtain ⟨j, hj⟩ := Option.ne_none_iff_exists'.mp hm
    exact Or.inr ⟨a, j, ha, ((h.threads j).held a).mp hj, a, ha, hj⟩

/-- A thread that holds a node waits, if at all, for one ahead of it. -/
theorem progress_of_held (h : Inv .threadsafe_list link chain s) (rest : List Nat) :
    ∀ (pre : List Nat) (cur : Nat) (i : ι), chain = pre ++ cur :: rest →
      cur ∈ (s.pc i).holds → ∃ j, Relation.ReflTransGen (WaitsFor s) i j ∧
        (step .threadsafe_list s (.run j)).isSome = true := by
  -- on the number of nodes that are ahead
  induction rest with
  | nil =>
      intro pre cur i hsplit hheld
      have hpc : s.pc i ≠ .idle := by rintro hidle; rw [hidle] at hheld; cases hheld
      rcases runs_or_waits h hpc with hrun | ⟨a, j, ha, -, -⟩
      · exact ⟨i, .refl, hrun⟩
      · obtain ⟨rest', heq⟩ := waits_ahead h hsplit hheld ha
        cases heq
  | cons b rest ih =>
      intro pre cur i hsplit hheld
      have hpc : s.pc i ≠ .idle := by rintro hidle; rw [hidle] at hheld; cases hheld
      rcases runs_or_waits h hpc with hrun | ⟨a, j, ha, hj, hwaits⟩
      · exact ⟨i, .refl, hrun⟩
      · obtain ⟨rest', heq⟩ := waits_ahead h hsplit hheld ha
        obtain ⟨rfl, rfl⟩ := List.cons.inj heq
        obtain ⟨k, hk, hrun⟩ := ih (pre ++ [cur]) b j (by rw [hsplit]; simp) hj
        exact ⟨k, .head hwaits hk, hrun⟩

/-- **No deadlock.** Whatever an operation waits for comes down to a thread that can go on. -/
theorem progress (h : Inv .threadsafe_list link chain s) (hpc : s.pc i ≠ .idle) :
    ∃ j, Relation.ReflTransGen (WaitsFor s) i j ∧
      (step .threadsafe_list s (.run j)).isSome = true := by
  rcases runs_or_waits h hpc with hrun | ⟨a, j, ha, hj, hwaits⟩
  · exact ⟨i, .refl, hrun⟩
  · obtain ⟨pre, rest, hsplit⟩ := List.append_of_mem (waits_for_next h ha).1
    obtain ⟨k, hk, hrun⟩ := progress_of_held h rest pre a j hsplit hj
    exact ⟨k, .head hwaits hk, hrun⟩

omit [DecidableEq ι] in
/-- **A node is destroyed when it is nobody's.** -/
theorem destroyed (h : Inv .threadsafe_list link chain s) {op : Op T}
    (hq : s.pc i = .destroy op cur nxt) :
    s.m nxt = none ∧ ∀ j, nxt ∉ (s.pc j).holds ∧ (s.pc j).waits ≠ some nxt := by
  have hok := h.threads i
  rw [hq] at hok
  obtain ⟨hnc, -⟩ := hok.owned nxt rfl
  have hheld : ∀ j, nxt ∉ (s.pc j).holds := by
    intro j hj
    rcases (h.threads j).walked nxt hj with hc | hold
    · exact hnc hc
    · obtain rfl := h.unique j i nxt (Pc.owns_of_old hold) (by rw [hq]; rfl)
      rw [hq, Pc.holds, List.mem_singleton] at hj
      exact hnc (hj ▸ hok.knows)
  refine ⟨?_, fun j => ⟨hheld j, fun hwaits => hnc (waits_for_next h hwaits).1⟩⟩
  cases hm : s.m nxt with
  | none => rfl
  | some j => exact absurd (((h.threads j).held nxt).mp hm) (hheld j)

/-! ## What a `for_each` visits -/

/-- The nodes `rest` are what the `for_each` of the thread `i` has before it. -/
def Ahead (s : LockedList ι T) (i : ι) (rest : List Nat) : Prop :=
  (s.visited i ++ rest).Sublist (s.snapshot i) ∧
    ∀ a ∈ s.snapshot i, a ∉ s.removed → a ∈ s.visited i ∨ a ∈ rest

/-- A `for_each` has before it the list behind the node whose value it has given to `f`. -/
def Walk (s : LockedList ι T) (i : ι) : Pc T → Prop
  | .next .for_each cur | .next_lock .for_each cur _ | .locked .for_each cur _ =>
      ∃ pre rest, 0 :: s.present = pre ++ cur :: rest ∧ Ahead s i rest
  | .visit .for_each nxt =>
      ∃ pre rest, 0 :: s.present = pre ++ nxt :: rest ∧ Ahead s i (nxt :: rest)
  | .unlock .for_each _ _ => Ahead s i []
  | _ => True

/-! ### What the others do to a `for_each` -/

omit [DecidableEq ι] in
theorem Ahead.mono {rest' : List Nat} (h : Ahead s j rest) (hv : t.visited j = s.visited j)
    (hsn : t.snapshot j = s.snapshot j) (hsub : rest'.Sublist rest)
    (hkeep : ∀ a, a ∉ t.removed → a ∉ s.removed ∧ (a ∈ rest → a ∈ rest')) : Ahead t j rest' := by
  refine ⟨?_, fun a ha hr => ?_⟩
  · rw [hv, hsn]
    exact ((List.Sublist.refl _).append hsub).trans h.1
  · rw [hsn] at ha
    rw [hv]
    exact (h.2 a ha (hkeep a hr).1).imp id (hkeep a hr).2

/-- The list behind the node `cur` is what it was, less what has been removed. -/
def Behind (s t : LockedList ι T) (cur : Nat) : Prop :=
  ∀ pre rest, 0 :: s.present = pre ++ cur :: rest → ∃ pre' rest',
    0 :: t.present = pre' ++ cur :: rest' ∧ rest'.Sublist rest ∧
      ∀ a, a ∉ t.removed → a ∈ rest → a ∈ rest'

omit [DecidableEq ι] in
theorem Walk.mono (h : Walk s j p) (hv : t.visited j = s.visited j)
    (hsn : t.snapshot j = s.snapshot j) (hremoved : ∀ a ∈ s.removed, a ∈ t.removed)
    (hbehind : ∀ cur ∈ p.holds, Behind s t cur) : Walk t j p := by
  have hnot : ∀ {a}, a ∉ t.removed → a ∉ s.removed := fun hr ha => hr (hremoved _ ha)
  have hat : ∀ {cur}, cur ∈ p.holds →
      (∃ pre rest, 0 :: s.present = pre ++ cur :: rest ∧ Ahead s j rest) →
      ∃ pre rest, 0 :: t.present = pre ++ cur :: rest ∧ Ahead t j rest := by
    rintro cur hcur ⟨pre, rest, hsplit, hahead⟩
    obtain ⟨pre', rest', hsplit', hsub, hkeep⟩ := hbehind cur hcur pre rest hsplit
    exact ⟨pre', rest', hsplit', hahead.mono hv hsn hsub fun a hr => ⟨hnot hr, hkeep a hr⟩⟩
  cases p
  case next op cur => cases op <;> first | exact hat List.mem_cons_self h | trivial
  case next_lock op cur nxt => cases op <;> first | exact hat List.mem_cons_self h | trivial
  case locked op cur nxt => cases op <;> first | exact hat List.mem_cons_self h | trivial
  case visit op nxt =>
    cases op <;> try trivial
    obtain ⟨pre, rest, hsplit, hahead⟩ := h
    obtain ⟨pre', rest', hsplit', hsub, hkeep⟩ := hbehind nxt List.mem_cons_self pre rest hsplit
    refine ⟨pre', rest', hsplit', hahead.mono hv hsn (hsub.cons_cons nxt) fun a hr => ⟨hnot hr, ?_⟩⟩
    exact fun ha => List.mem_cons.mpr ((List.mem_cons.mp ha).imp id (hkeep a hr))
  case unlock op found cur =>
    cases op <;> try trivial
    exact Ahead.mono h hv hsn (List.Sublist.refl _) fun a hr => ⟨hnot hr, id⟩
  all_goals trivial

omit [DecidableEq ι] in
theorem behind_of_eq (hpushed : t.pushed = s.pushed) (hremoved : t.removed = s.removed) :
    Behind s t cur := by
  intro pre rest hsplit
  refine ⟨pre, rest, ?_, List.Sublist.refl _, fun _ _ ha => ha⟩
  rw [present, hpushed, hremoved]
  exact hsplit

omit [DecidableEq ι] in
/-- A node is pushed at the head, behind nobody who does not hold the head. -/
theorem behind_of_push (hn : n ∉ s.removed) (hpushed : t.pushed = n :: s.pushed)
    (hremoved : t.removed = s.removed) (hcur : cur ≠ 0) : Behind s t cur := by
  intro pre rest hsplit
  have hpresent : t.present = n :: s.present := by
    rw [present, hpushed, hremoved, List.filter_cons_of_pos (by simpa using hn)]
    rfl
  cases pre with
  | nil => exact absurd (List.cons.inj hsplit).1.symm hcur
  | cons x pre =>
      obtain ⟨rfl, htail⟩ := List.cons.inj hsplit
      refine ⟨0 :: n :: pre, rest, ?_, List.Sublist.refl _, fun _ _ ha => ha⟩
      rw [hpresent, htail]
      rfl

omit [DecidableEq ι] in
/-- A node is removed that is not the one held. -/
theorem behind_of_remove (hpushed : t.pushed = s.pushed) (hremoved : t.removed = nxt :: s.removed)
    (h0 : nxt ≠ 0) (hcur : cur ≠ nxt) : Behind s t cur := by
  intro pre rest hsplit
  have hpresent : 0 :: t.present = (0 :: s.present).filter (· ≠ nxt) := by
    rw [List.filter_cons_of_pos (by simpa using h0.symm), present, present, hpushed, hremoved,
      List.filter_filter]
    refine congrArg (0 :: ·) (List.filter_congr fun a _ => ?_)
    simp [List.mem_cons, not_or]
  refine ⟨pre.filter (· ≠ nxt), rest.filter (· ≠ nxt), ?_, List.filter_sublist, ?_⟩
  · rw [hpresent, hsplit, List.filter_append, List.filter_cons_of_pos (by simpa using hcur)]
  · intro a hr ha
    rw [hremoved, List.mem_cons, not_or] at hr
    exact List.mem_filter.mpr ⟨ha, by simpa using hr.1⟩

/-- What the step of a thread adds to the histories. -/
def pushes : Pc T → List Nat
  | .front_head n => [n]
  | _ => []

def removes : Pc T → List Nat
  | .relink _ _ nxt => [nxt]
  | _ => []

def snapshots (s : LockedList ι T) (i : ι) : Pc T → ι → List Nat
  | .head_lock _ => Function.update s.snapshot i s.present
  | _ => s.snapshot

def visits (s : LockedList ι T) (i : ι) : Pc T → ι → List Nat
  | .head_lock _ => Function.update s.visited i []
  | .visit .for_each nxt => Function.update s.visited i (s.visited i ++ [nxt])
  | _ => s.visited

/-- What a step of the thread `i` does to the histories. -/
structure Histories (s t : LockedList ι T) (i : ι) (p : Pc T) : Prop where
  pushed : t.pushed = pushes p ++ s.pushed
  removed : t.removed = removes p ++ s.removed
  snapshot : t.snapshot = snapshots s i p
  visited : t.visited = visits s i p

theorem histories (ht : run_step .threadsafe_list s i = some t)
    (hplain : (s.pc i).plain = true) : Histories s t i (s.pc i) ∧ ∀ j, j ≠ i → t.pc j = s.pc j := by
  have hgoto : ∀ {q} j, j ≠ i → Function.update s.pc i q j = s.pc j :=
    fun _ hj => Function.update_of_ne hj ..
  cases hq : s.pc i <;> rw [hq] at hplain <;> simp only [run_step, hq] at ht
  case front_lock n | next_lock op cur nxt | head_lock op =>
    obtain ⟨-, rfl⟩ := lock_eq_some ht
    exact ⟨⟨rfl, rfl, rfl, rfl⟩, hgoto⟩
  case locked op cur nxt =>
    cases op
    case for_each | find_first_if f =>
      cases ht
      exact ⟨⟨rfl, rfl, rfl, rfl⟩, hgoto⟩
    case remove_if f =>
      obtain ⟨v, -, rfl⟩ := Option.map_eq_some_iff.mp ht
      exact ⟨⟨rfl, rfl, rfl, rfl⟩, hgoto⟩
    all_goals cases hplain
  case visit op nxt =>
    cases op
    case for_each | find_first_if f =>
      obtain ⟨v, -, rfl⟩ := Option.map_eq_some_iff.mp ht
      exact ⟨⟨rfl, rfl, rfl, rfl⟩, hgoto⟩
    all_goals cases hplain
  all_goals first
    | (cases hplain; done)
    | (cases ht; done)
    | (cases ht; exact ⟨⟨rfl, rfl, rfl, rfl⟩, hgoto⟩)

/-- The histories of the other threads stay. -/
theorem Histories.other (h : Histories s t i p) (hj : j ≠ i) :
    t.visited j = s.visited j ∧ t.snapshot j = s.snapshot j := by
  rw [h.visited, h.snapshot]
  cases p
  case head_lock op => exact ⟨Function.update_of_ne hj .., Function.update_of_ne hj ..⟩
  case visit op nxt =>
    cases op
    case for_each => exact ⟨Function.update_of_ne hj .., rfl⟩
    all_goals exact ⟨rfl, rfl⟩
  all_goals exact ⟨rfl, rfl⟩

/-- The others are where they were on their way along the list. -/
theorem walk_other (h : Inv .threadsafe_list link chain s)
    (ht : run_step .threadsafe_list s i = some t) (hj : j ≠ i) (hw : Walk s j (s.pc j)) :
    Walk t j (t.pc j) := by
  obtain ⟨hhist, hpc⟩ := histories ht ((h.threads i).plain rfl)
  obtain ⟨hv, hsn⟩ := hhist.other hj
  obtain ⟨hpushed, hremoved, -, -⟩ := hhist
  have hok := h.threads i
  rw [hpc j hj]
  cases hq : s.pc i
  case front_head n =>
    rw [hq] at hpushed hremoved hok
    have hn : n ∉ s.removed := fun hr =>
      hok.fresh n rfl (h.mem.hist.mem_iff.mpr (List.mem_append_left _ hr))
    refine hw.mono hv hsn (by rw [hremoved]; exact fun _ ha => ha) fun cur hcur =>
      behind_of_push hn hpushed hremoved ?_
    rintro rfl
    exact hj (h.holder hcur (by rw [hq]; exact List.mem_cons_self))
  case relink op c nxt =>
    rw [hq] at hpushed hremoved hok
    have h0 : nxt ≠ 0 := fun heq => h.mem.path.next_ne_head h.mem.nodup
      (hok.mem_chain List.mem_cons_self (by rintro ⟨⟩)) (heq ▸ hok.knows : link c = some 0)
    refine hw.mono hv hsn (by rw [hremoved]; exact fun _ ha => List.mem_cons_of_mem _ ha)
      fun cur hcur => behind_of_remove hpushed hremoved h0 ?_
    rintro rfl
    exact hj (h.holder hcur (by rw [hq]; exact List.mem_cons_of_mem _ List.mem_cons_self))
  all_goals
    rw [hq] at hpushed hremoved
    exact hw.mono hv hsn (by rw [hremoved]; exact fun _ ha => ha) fun cur _ =>
      behind_of_eq hpushed hremoved

/-! ### What a `for_each` does -/

/-- The thread is at `q` now. -/
theorem Walk.goto {q : Pc T} (hpc : t.pc = Function.update s.pc i q) (hw : Walk t i q) :
    Walk t i (t.pc i) := by
  rw [hpc, Function.update_self]
  exact hw

/-- The thread `i` itself goes on along the list. -/
theorem walk_self (h : Inv .threadsafe_list link chain s)
    (ht : run_step .threadsafe_list s i = some t) (hw : Walk s i (s.pc i)) :
    Walk t i (t.pc i) := by
  have hok := h.threads i
  have horder := h.mem.order rfl
  have hplain := hok.plain rfl
  cases hq : s.pc i <;> rw [hq] at hok hw hplain <;> simp only [run_step, hq] at ht
  case front_lock n =>
    obtain ⟨-, rfl⟩ := lock_eq_some ht
    refine Walk.goto rfl ?_
    trivial
  case head_lock op =>
    obtain ⟨-, rfl⟩ := lock_eq_some ht
    refine Walk.goto rfl ?_
    cases op <;> try trivial
    refine ⟨[], s.present, rfl, ?_, fun a ha _ => ?_⟩
    · change (Function.update s.visited i [] i ++ _).Sublist (Function.update s.snapshot i _ i)
      rw [Function.update_self, Function.update_self]
      exact List.Sublist.refl _
    · change a ∈ Function.update s.snapshot i _ i at ha
      rw [Function.update_self] at ha
      exact Or.inr ha
  case next op cur =>
    cases ht
    refine Walk.goto rfl ?_
    have hc := hok.mem_chain List.mem_cons_self (by rintro ⟨⟩)
    have hheld : cur ∈ (s.pc i).holds := by rw [hq]; exact List.mem_cons_self
    have hnext := h.next_eq hheld hc (by rw [hq]; rintro ⟨⟩)
    cases hn : s.next cur with
    | none =>
        cases op <;> try trivial
        obtain ⟨pre, rest, hsplit, hahead⟩ := hw
        have hrest := path_behind h (horder.trans hsplit)
        rw [← hnext, hn] at hrest
        rw [hrest.eq_nil] at hahead
        exact hahead
    | some nxt => cases op <;> exact hw
  case next_lock op cur nxt =>
    obtain ⟨-, rfl⟩ := lock_eq_some ht
    refine Walk.goto rfl ?_
    cases op <;> exact hw
  case locked op cur nxt =>
    cases op
    case for_each =>
      cases ht
      refine Walk.goto rfl ?_
      obtain ⟨pre, rest, hsplit, hahead⟩ := hw
      have hrest := path_behind h (horder.trans hsplit)
      rw [show link cur = some nxt from hok.knows] at hrest
      obtain ⟨rest, rfl, -⟩ := hrest.eq_cons
      refine ⟨pre ++ [cur], rest, ?_, hahead⟩
      rw [List.append_assoc]
      exact hsplit
    case find_first_if f =>
      cases ht
      refine Walk.goto rfl ?_
      trivial
    case remove_if f =>
      obtain ⟨v, -, rfl⟩ := Option.map_eq_some_iff.mp ht
      refine Walk.goto rfl ?_
      split <;> trivial
    all_goals cases hplain
  case visit op nxt =>
    cases op
    case for_each =>
      obtain ⟨v, -, rfl⟩ := Option.map_eq_some_iff.mp ht
      refine Walk.goto rfl ?_
      obtain ⟨pre, rest, hsplit, hsub, hkeep⟩ := hw
      refine ⟨pre, rest, hsplit, ?_, fun a ha hr => ?_⟩
      · change (Function.update s.visited i _ i ++ rest).Sublist (s.snapshot i)
        rw [Function.update_self, List.append_assoc]
        exact hsub
      · change a ∈ Function.update s.visited i _ i ∨ a ∈ rest
        rw [Function.update_self, List.mem_append, List.mem_singleton, or_assoc, ← List.mem_cons]
        exact hkeep a ha hr
    case find_first_if f =>
      obtain ⟨v, -, rfl⟩ := Option.map_eq_some_iff.mp ht
      refine Walk.goto rfl ?_
      split <;> trivial
    all_goals cases hplain
  case destroy op cur nxt =>
    cases op <;> cases hplain
    cases ht
    refine Walk.goto rfl ?_
    trivial
  case pass op cur nxt =>
    cases op <;> cases hplain
    cases ht
    refine Walk.goto rfl ?_
    trivial
  all_goals first
    | (cases hplain; done)
    | (cases ht; done)
    | (cases ht; refine Walk.goto rfl ?_; trivial)

omit [DecidableEq ι] in
/-- The list has no node twice. -/
theorem present_nodup (h : Inv .threadsafe_list link chain s) : s.present.Nodup := by
  have hnodup := h.mem.nodup
  rw [h.mem.order rfl] at hnodup
  exact (List.nodup_cons.mp hnodup).2

/-- A `for_each` has given to `f` nodes of the list it began with, in their order. -/
structure InOrder (s : LockedList ι T) : Prop where
  nodup : ∀ i, (s.snapshot i).Nodup
  visited : ∀ i, (s.visited i).Sublist (s.snapshot i)

theorem InOrder.run (h : Inv .threadsafe_list link chain s) (hin : InOrder s)
    (hw : Walk s i (s.pc i)) (ht : run_step .threadsafe_list s i = some t) : InOrder t := by
  obtain ⟨hhist, -⟩ := histories ht ((h.threads i).plain rfl)
  have hi : (t.snapshot i).Nodup ∧ (t.visited i).Sublist (t.snapshot i) := by
    rw [hhist.snapshot, hhist.visited]
    cases hq : s.pc i
    case head_lock op =>
      simp only [snapshots, visits, Function.update_self]
      exact ⟨present_nodup h, List.nil_sublist _⟩
    case visit op nxt =>
      cases op
      case for_each =>
        rw [hq] at hw
        obtain ⟨pre, rest, -, hsub, -⟩ := hw
        simp only [snapshots, visits, Function.update_self]
        refine ⟨hin.nodup i, List.Sublist.trans ?_ hsub⟩
        exact (List.Sublist.refl _).append (List.nil_sublist rest |>.cons_cons nxt)
      all_goals exact ⟨hin.nodup i, hin.visited i⟩
    all_goals exact ⟨hin.nodup i, hin.visited i⟩
  constructor <;> intro j <;> by_cases hj : j = i
  · exact hj ▸ hi.1
  · rw [(hhist.other hj).2]
    exact hin.nodup j
  · exact hj ▸ hi.2
  · rw [(hhist.other hj).2, (hhist.other hj).1]
    exact hin.visited j

/-! ## Every interleaving -/

/-- What holds in every state of a run. -/
structure Ok (s : LockedList ι T) : Prop where
  /-- what is locked, or waited for, is there -/
  live : ∀ i a, s.m a = some i ∨ (s.pc i).waits = some a → s.live a = true
  /-- nobody has locked a node that is destroyed, or waits for it -/
  destroyed : ∀ i op cur nxt, s.pc i = .destroy op cur nxt →
    s.m nxt = none ∧ ∀ j, (s.pc j).waits ≠ some nxt
  /-- there is no deadlock -/
  progress : ∀ i, s.pc i ≠ .idle → ∃ j, Relation.ReflTransGen (WaitsFor s) i j ∧
    (step .threadsafe_list s (.run j)).isSome = true
  /-- unless a thread is writing it, the list is what has been pushed and not removed -/
  linked : (∀ i, (s.pc i).mid = none) → Path s.next (s.next 0) s.present none
  /-- a `for_each` applies `f` once at most, in the order of the list, and to nothing new -/
  in_order : InOrder s
  /-- when it returns, it has applied `f` to all that has not been removed -/
  complete : ∀ i found cur, s.pc i = .unlock .for_each found cur →
    ∀ a ∈ s.snapshot i, a ∉ s.removed → a ∈ s.visited i

structure Good (s : LockedList ι T) : Prop where
  inv : ∃ link chain, Inv .threadsafe_list link chain s
  walk : ∀ i, Walk s i (s.pc i)
  in_order : InOrder s

theorem Good.ok (h : Good s) : Ok s := by
  obtain ⟨link, chain, hinv⟩ := h.inv
  refine { live := ?_, destroyed := ?_, progress := fun i => ThreadsafeList.progress hinv
           linked := ?_, in_order := h.in_order, complete := ?_ }
  · rintro i a (hm | hwaits)
    · exact hinv.live_of_held (((hinv.threads i).held a).mp hm)
    · exact hinv.mem.live a (waits_for_next hinv hwaits).1
  · intro i op cur nxt hq
    obtain ⟨hm, hj⟩ := ThreadsafeList.destroyed hinv hq
    exact ⟨hm, fun j => (hj j).2⟩
  · intro hmid
    have hnext : ∀ a ∈ chain, s.next a = link a := fun a ha =>
      (hinv.follows a ha).resolve_right fun ⟨i, hi⟩ => by rw [hmid i] at hi; cases hi
    have hpath := hinv.mem.path.congr hnext
    rw [hinv.mem.order rfl] at hpath
    exact hpath.2
  · intro i found cur hq a ha hr
    have hw := h.walk i
    rw [hq] at hw
    exact (hw.2 a ha hr).resolve_right List.not_mem_nil

/-- A thread that is run does its next step. -/
theorem run_step_of_step (ht : step .threadsafe_list s (.run i) = some t) :
    run_step .threadsafe_list s i = some t :=
  (Option.ite_none_right_eq_some.mp ht).2

theorem Good.step (h : Good s) {e : Event ι T} (ht : step .threadsafe_list s e = some t) :
    Good t := by
  obtain ⟨link, chain, hinv⟩ := h.inv
  have hnoback : ∀ i n p, e = .run i → s.pc i = .back_lock n p → p = s.last_node_ptr := by
    intro i n p _ hq
    have hplain := (hinv.threads i).plain rfl
    rw [hq] at hplain
    cases hplain
  have hnext := hinv.step ht hnoback
  cases e with
  | call i c =>
      simp only [LockedList.step] at ht
      split at ht
      · obtain ⟨p, hp, rfl⟩ := Option.map_eq_some_iff.mp ht
        refine ⟨hnext, forall_update_at ?_ fun j _ => h.walk j, h.in_order.nodup,
          h.in_order.visited⟩
        cases c with
        | push_front v =>
            cases hp
            trivial
        | push_back v => cases hp
        | traverse op =>
            cases op <;> cases hp
            all_goals trivial
      · cases ht
  | run i =>
      have hrun := run_step_of_step ht
      refine ⟨hnext, fun j => ?_, h.in_order.run hinv (h.walk i) hrun⟩
      by_cases hj : j = i
      · exact hj ▸ walk_self hinv hrun (h.walk i)
      · exact walk_other hinv hrun hj (h.walk j)

omit [DecidableEq ι] in
/-- An empty list and nobody on it. -/
theorem good_init : Good (init : LockedList ι T) where
  inv := ⟨_, _, inv_init⟩
  walk _ := trivial
  in_order := ⟨fun _ => List.nodup_nil, fun _ => List.Sublist.refl _⟩

/-! ## A `for_each` returns

Four steps for each node of the list it began with, and two to find the end and to unlock. -/

/-- In the loop of a `for_each`, or returned from it. -/
def InForEach : Pc T → Prop
  | .idle | .next .for_each _ | .next_lock .for_each _ _ | .locked .for_each _ _
  | .visit .for_each _ | .unlock .for_each _ _ => True
  | _ => False

/-- How many nodes of the list it began with the thread has not given to `f`. -/
def unvisited (s : LockedList ι T) (i : ι) : Nat :=
  (s.snapshot i).length - (s.visited i).length

/-- How many steps a `for_each` has before it at most, when `k` nodes are left to visit. -/
def left (k : Nat) : Pc T → Nat
  | .next .for_each _ => 4 * k + 2
  | .next_lock .for_each _ _ => 4 * k + 1
  | .locked .for_each _ _ => 4 * k
  | .visit .for_each _ => 4 * k - 1
  | .unlock .for_each _ _ => 1
  | _ => 0

/-- The same for the thread `i`. -/
def steps_left (s : LockedList ι T) (i : ι) : Nat :=
  left (unvisited s i) (s.pc i)

omit [DecidableEq ι] in
/-- A node that is before a `for_each` it has not visited, so that there is one left at least. -/
theorem Ahead.unvisited_pos (h : Ahead s i (nxt :: rest)) : 0 < unvisited s i := by
  have hle := h.1.length_le
  rw [List.length_append, List.length_cons] at hle
  unfold unvisited
  omega

/-- The thread is at `q` now, with less before it. -/
theorem left_goto {q : Pc T} {n : Nat} (hpc : t.pc = Function.update s.pc i q) (hq : InForEach q)
    (hlt : left (unvisited t i) q < n) : InForEach (t.pc i) ∧ steps_left t i < n := by
  unfold steps_left
  rw [hpc, Function.update_self]
  exact ⟨hq, hlt⟩

/-- Each step of the `for_each` takes one from what is left. -/
theorem steps_left_self (h : Good s) (hin : InForEach (s.pc i))
    (ht : run_step .threadsafe_list s i = some t) :
    InForEach (t.pc i) ∧ steps_left t i < steps_left s i := by
  obtain ⟨link, chain, hinv⟩ := h.inv
  have hwalk := h.walk i
  have hwalk' := walk_self hinv ht hwalk
  unfold steps_left
  cases hq : s.pc i <;> rw [hq] at hin hwalk <;> simp only [run_step, hq] at ht
  case idle => cases ht
  case next op cur =>
    cases op <;> try cases hin
    cases ht
    refine left_goto rfl ?_ ?_
    · split <;> trivial
    · split
      · exact Nat.lt_add_left _ Nat.one_lt_two
      · exact Nat.lt_succ_self _
  case next_lock op cur nxt =>
    cases op <;> try cases hin
    obtain ⟨-, rfl⟩ := lock_eq_some ht
    exact left_goto rfl trivial (Nat.lt_succ_self _)
  case locked op cur nxt =>
    cases op <;> try cases hin
    cases ht
    -- `nxt` is before it, as its walk says at the next node
    have hpos : 0 < unvisited s i := by
      change Walk _ i (Function.update s.pc i _ i) at hwalk'
      rw [Function.update_self] at hwalk'
      obtain ⟨-, rest, -, hahead⟩ := hwalk'
      exact hahead.unvisited_pos
    refine left_goto rfl trivial ?_
    change 4 * unvisited s i - 1 < 4 * unvisited s i
    omega
  case visit op nxt =>
    cases op <;> try cases hin
    obtain ⟨v, -, rfl⟩ := Option.map_eq_some_iff.mp ht
    obtain ⟨-, rest, -, hahead⟩ := hwalk
    have hpos := hahead.unvisited_pos
    refine left_goto rfl trivial ?_
    simp only [left, unvisited, Function.update_self, List.length_append,
      List.length_singleton] at hpos ⊢
    change 4 * ((s.snapshot i).length - _) + 2 < _
    omega
  case unlock op found cur =>
    cases op <;> try cases hin
    cases ht
    exact left_goto rfl trivial Nat.zero_lt_one
  all_goals cases hin

omit [DecidableEq ι] in
/-- The steps of the others take nothing from it, and add nothing. -/
theorem steps_left_other (hpc : t.pc i = s.pc i) (hv : t.visited i = s.visited i)
    (hsn : t.snapshot i = s.snapshot i) : steps_left t i = steps_left s i := by
  simp only [steps_left, unvisited, hpc, hv, hsn]

/-- It is a step of the thread `i`. -/
def runs (i : ι) : Event ι T → Bool
  | .run j => j = i
  | .call _ _ => false

/-- It is not a new call of the thread `i`. -/
def NoCall (i : ι) : Event ι T → Prop
  | .run _ => True
  | .call j _ => j ≠ i

/-- The other threads keep the `for_each` where it is. -/
theorem steps_left_step (h : Good s) (hin : InForEach (s.pc i)) {e : Event ι T}
    (he : NoCall i e) (hown : runs i e = false) (ht : step .threadsafe_list s e = some t) :
    InForEach (t.pc i) ∧ steps_left t i = steps_left s i := by
  cases e with
  | call j c =>
      simp only [LockedList.step] at ht
      split at ht
      · obtain ⟨p, -, rfl⟩ := Option.map_eq_some_iff.mp ht
        have hpc : (s.goto j p).pc i = s.pc i := Function.update_of_ne (Ne.symm he) ..
        exact ⟨hpc ▸ hin, steps_left_other hpc rfl rfl⟩
      · cases ht
  | run j =>
      have hj : i ≠ j := fun hij => by simp [runs, hij] at hown
      obtain ⟨link, chain, hinv⟩ := h.inv
      obtain ⟨hhist, hpc⟩ := histories (run_step_of_step ht) ((hinv.threads j).plain rfl)
      obtain ⟨hv, hsn⟩ := hhist.other hj
      exact ⟨hpc i hj ▸ hin, steps_left_other (hpc i hj) hv hsn⟩

/-- **A `for_each` returns.** From where it has locked the head, and whatever the others do between
its steps, it does no more than four steps for each node of the list and two. It is not blocked
for good either: see `Ok.progress`. -/
theorem for_each_returns {as bs : List (Event ι T)}
    (hrun : (lts .threadsafe_list).exec init as = some s) (hpc : s.pc i = .next .for_each 0)
    (hbs : (lts .threadsafe_list).exec s bs = some t) (hcall : ∀ e ∈ bs, NoCall i e) :
    bs.countP (runs i) ≤ 4 * (s.snapshot i).length + 2 := by
  have hgood : Good s :=
    (lts .threadsafe_list).exec_inv (fun _ _ _ h ht => h.step ht) good_init hrun
  have hle := (lts .threadsafe_list).countP_le_of_inv
    (P := fun s => Good s ∧ InForEach (s.pc i)) (steps_left · i) (runs i) ?_ ?_
    ⟨hgood, by rw [hpc]; trivial⟩ hcall hbs
  · have hunvisited : unvisited s i ≤ (s.snapshot i).length := Nat.sub_le _ _
    have hleft : steps_left s i = 4 * unvisited s i + 2 := by rw [steps_left, hpc, left]
    omega
  · rintro s e t ⟨hs, hin⟩ - ht hown
    cases e with
    | call j c => cases hown
    | run j =>
        obtain rfl : j = i := by simpa [runs] using hown
        have hstep : step .threadsafe_list s (.run j) = some t := ht
        obtain ⟨hin', hlt⟩ := steps_left_self hs hin (run_step_of_step hstep)
        exact ⟨⟨hs.step hstep, hin'⟩, hlt⟩
  · rintro s e t ⟨hs, hin⟩ he ht hown
    obtain ⟨hin', heq⟩ := steps_left_step hs hin he hown ht
    exact ⟨⟨hs.step ht, hin'⟩, heq.le⟩

/-- **Hand-over-hand locking is safe and live, and `for_each` sees the list it began with.** All
threads lock along the list, each the next node before it gives up the one it is at: nobody
overtakes a thread, and so its place in the list says what is still before it. -/
theorem hand_over_hand (as : List (Event ι T)) : (lts .threadsafe_list).Along Ok init as :=
  Lts.along_of_inv _ (I := Good) (fun _ h => h.ok) (fun _ _ _ h ht => h.step ht)
    good_init

end BoostNet.ThreadsafeList
