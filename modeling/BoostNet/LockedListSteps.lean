/-
Every step keeps the invariant of the lists with a mutex in every node.

Most steps only lock, unlock or decide (`Inv.of_same`). The links change in four: the second
write of `push_front`, the write of `push_back`, the second write of a removal and the third of
`insert_if`. A node comes to be in the list, or is no longer in it, at these.
-/
import Mathlib.Data.List.Perm.Basic
import BoostNet.LockedListInv

set_option autoImplicit false

namespace BoostNet.LockedList

open Heap

variable {ι T : Type*} [DecidableEq ι] {kind : Kind} {link : Nat → Option Nat} {chain : List Nat}
  {s t : LockedList ι T} {i j : ι} {p q : Pc T} {a b n : Nat}

/-! ## Steps that leave the nodes as they are -/

/-- The nodes, the histories and the pointer to the last node are the same. -/
structure Same (s t : LockedList ι T) : Prop where
  count : t.count = s.count
  live : t.live = s.live
  data : t.data = s.data
  next : t.next = s.next
  pushed : t.pushed = s.pushed
  removed : t.removed = s.removed
  ptr : t.last_node_ptr = s.last_node_ptr

omit [DecidableEq ι] in
theorem Mem.of_same (h : Mem kind link chain s) (hs : Same s t) : Mem kind link chain t where
  path := h.path
  nodup := h.nodup
  live := by rw [hs.live]; exact h.live
  data := by rw [hs.data]; exact h.data
  count := by rw [hs.live, hs.count]; exact h.count
  pushed := by rw [hs.pushed, hs.count]; exact h.pushed
  count_pos := by rw [hs.count]; exact h.count_pos
  hist := by rw [hs.pushed, hs.removed]; exact h.hist
  order := by rw [present, hs.pushed, hs.removed]; exact h.order

/-- What the step changes in the mutexes of the nodes, as the other threads see it. -/
structure MutexFrame (link : Nat → Option Nat) (chain : List Nat) (s t : LockedList ι T) (i : ι) :
    Prop where
  m : ∀ a j, j ≠ i → (t.m a = some j ↔ s.m a = some j)
  taken : ∀ a, s.m a = none → t.m a = none ∨ a = 0 ∨ (a = s.last_node_ptr ∧ link a = none) ∨
    ∃ c ∈ (s.pc i).holds, c ∈ chain ∧ link c = some a

omit [DecidableEq ι] in
theorem MutexFrame.of_eq (hm : t.m = s.m) : MutexFrame link chain s t i where
  m := by rw [hm]; exact fun _ _ _ => Iff.rfl
  taken := by rw [hm]; exact fun _ => Or.inl

omit [DecidableEq ι] in
theorem MutexFrame.lock (hfree : s.m a = none) (hm : t.m = Function.update s.m a (some i))
    (ha : a = 0 ∨ (a = s.last_node_ptr ∧ link a = none) ∨
      ∃ c ∈ (s.pc i).holds, c ∈ chain ∧ link c = some a) : MutexFrame link chain s t i where
  m := by
    intro b j hj
    rw [hm]
    by_cases hb : b = a
    · subst hb
      rw [Function.update_self, hfree]
      simp [hj.symm]
    · rw [Function.update_of_ne hb]
  taken := by
    intro b hb
    by_cases hba : b = a
    · exact hba ▸ Or.inr ha
    · exact Or.inl (by rw [hm, Function.update_of_ne hba, hb])

omit [DecidableEq ι] in
theorem MutexFrame.unlock (hheld : s.m a = some i) (hm : t.m = Function.update s.m a none) :
    MutexFrame link chain s t i where
  m := by
    intro b j hj
    rw [hm]
    by_cases hb : b = a
    · subst hb
      rw [Function.update_self, hheld]
      simp [hj.symm]
    · rw [Function.update_of_ne hb]
  taken := by
    intro b hb
    by_cases hba : b = a
    · exact Or.inl (by rw [hm, hba, Function.update_self])
    · exact Or.inl (by rw [hm, Function.update_of_ne hba, hb])

/-- What a thread is to be after a step that leaves the nodes as they are. -/
structure Moves (kind : Kind) (link : Nat → Option Nat) (chain : List Nat) (t : LockedList ι T)
    (i : ι) (q p : Pc T) : Prop where
  plain : kind = .threadsafe_list → p.plain = true
  held : ∀ a, t.m a = some i ↔ a ∈ p.holds
  held_last : t.last_ptr_mtx = some i ↔ p.holds_last = true
  walked : ∀ a ∈ p.holds, a ∈ chain ∨ p.old = some a
  owns : ∀ n, p.owns = some n → q.owns = some n
  fresh : ∀ n, p.fresh = some n → q.fresh = some n
  mid : ∀ a, q.mid = some a → p.mid = some a
  knows : p.Knows link chain t
  target : ∀ e, p.target link = some e → t.last_node_ptr ∈ p.holds ∧ e ∈ chain ∧ link e = none ∧
    (e ∈ p.holds ∨ t.m e = none ∧ ∃ a ∈ p.holds, a ∈ chain ∧ link a = some e)
  owes : ∀ e, q.target link = some e → p.target link = some e

/-- The rule for a step that leaves the nodes as they are. -/
theorem Inv.of_same (h : Inv kind link chain s) (hs : Same s t)
    (hm : MutexFrame link chain s t i)
    (hlm : ∀ j, j ≠ i → (t.last_ptr_mtx = some j ↔ s.last_ptr_mtx = some j))
    (hpc : t.pc = Function.update s.pc i p) (hi : Moves kind link chain t i (s.pc i) p) :
    Inv kind link chain t := by
  have hok := h.threads i
  refine h.of_frame (p := p) (i := i)
    { m := hm.m, last_mtx := hlm, taken := hm.taken, link := fun _ _ => Or.inl rfl
      kept := fun _ => Or.inl, added := fun _ => Or.inl, owned := ?_
      ptr := Or.inl hs.ptr, pushed := ?_ } hpc (h.mem.of_same hs)
    { plain := hi.plain, held := hi.held, held_last := hi.held_last
      walked := hi.walked, owned := ?_, fresh := ?_, knows := hi.knows, target := hi.target }
    (fun n hn => Or.inl (hi.owns n hn)) ?_ ?_
  · rw [hs.live, hs.next, hs.data]
    exact fun a ha _ _ => ⟨ha, rfl, rfl⟩
  · rw [hs.pushed]
    exact fun a => Or.inl
  · rw [hs.live, hs.data]
    exact fun n hn => hok.owned n (hi.owns n hn)
  · rw [hs.pushed]
    exact fun n hn => hok.fresh n (hi.fresh n hn)
  · intro a ha
    by_cases hmid : (s.pc i).mid = some a
    · exact Or.inr (Or.inl (hi.mid a hmid))
    · exact Or.inr (Or.inr ⟨ha, congrFun hs.next a, rfl, hmid⟩)
  · intro _ e he hend
    by_cases htarget : (s.pc i).target link = some e
    · exact Or.inr (Or.inl (hi.owes e htarget))
    · exact Or.inr (Or.inr ⟨he, hend, hs.ptr, htarget⟩)

/-- A thread that has locked or unlocked `last_ptr_mtx`. -/
theorem Inv.move_last (h : Inv kind link chain s) (hq : s.pc i = q) (hs : Same s t)
    (hm : t.m = s.m) (hlm : ∀ j, j ≠ i → (t.last_ptr_mtx = some j ↔ s.last_ptr_mtx = some j))
    (hpc : t.pc = Function.update s.pc i p) (hplain : kind = .threadsafe_list → p.plain = true)
    (hholds : p.holds = q.holds) (hholds_last : t.last_ptr_mtx = some i ↔ p.holds_last = true)
    (hold : p.old = q.old) (hfresh : p.fresh = q.fresh) (hmid : p.mid = q.mid)
    (htarget : p.target link = q.target link) (hknows : p.Knows link chain t) :
    Inv kind link chain t := by
  have hok := h.threads i
  rw [hq] at hok
  refine h.of_same hs (.of_eq hm) hlm hpc ?_
  rw [hq]
  refine { plain := hplain, held := ?_, held_last := hholds_last, walked := ?_, owns := ?_,
           fresh := ?_, mid := ?_, knows := hknows, target := ?_, owes := ?_ }
  · rw [hm, hholds]
    exact hok.held
  · rw [hholds, hold]
    exact hok.walked
  · rw [Pc.owns, hfresh, hold]
    exact fun n hn => hn
  · rw [hfresh]
    exact fun n hn => hn
  · rw [hmid]
    exact fun a ha => ha
  · rw [htarget, hholds, hs.ptr, hm]
    exact hok.target
  · rw [htarget]
    exact fun e he => he

/-- A thread that goes on with the same mutexes and the same nodes. -/
theorem Inv.goto (h : Inv kind link chain s) (hq : s.pc i = q) (hs : Same s t) (hm : t.m = s.m)
    (hlm : t.last_ptr_mtx = s.last_ptr_mtx) (hpc : t.pc = Function.update s.pc i p)
    (hplain : kind = .threadsafe_list → p.plain = true) (hholds : p.holds = q.holds)
    (hholds_last : p.holds_last = q.holds_last) (hold : p.old = q.old) (hfresh : p.fresh = q.fresh)
    (hmid : p.mid = q.mid) (htarget : p.target link = q.target link)
    (hknows : p.Knows link chain t) : Inv kind link chain t := by
  have hheld := (h.threads i).held_last
  rw [hq] at hheld
  exact h.move_last hq hs hm (by simp [hlm]) hpc hplain hholds (by rw [hlm, hholds_last, hheld])
    hold hfresh hmid htarget hknows

omit [DecidableEq ι] in
/-- A thread all of whose change is in the nodes that it holds. -/
theorem Moves.of_holds (hok : ThreadOk kind link chain s i q)
    (hplain : kind = .threadsafe_list → p.plain = true) (hheld : ∀ b, t.m b = some i ↔ b ∈ p.holds)
    (hlm : t.last_ptr_mtx = s.last_ptr_mtx) (hholds_last : p.holds_last = q.holds_last)
    (hwalked : ∀ b ∈ p.holds, b ∈ chain ∨ q.old = some b) (hold : p.old = q.old)
    (hfresh : p.fresh = q.fresh) (hmid : q.mid = none) (hqt : q.target link = none)
    (hpt : p.target link = none) (hknows : p.Knows link chain t) :
    Moves kind link chain t i q p where
  plain := hplain
  held := hheld
  held_last := by rw [hlm, hholds_last]; exact hok.held_last
  walked := by rw [hold]; exact hwalked
  owns := by rw [Pc.owns, hfresh, hold]; exact fun n hn => hn
  fresh := by rw [hfresh]; exact fun n hn => hn
  mid := by rw [hmid]; rintro a ⟨⟩
  knows := hknows
  target := by rw [hpt]; rintro e ⟨⟩
  owes := by rw [hqt]; rintro e ⟨⟩

/-- A thread that has locked the node `a` of the list. -/
theorem Inv.lock_node (h : Inv kind link chain s) (hq : s.pc i = q) (hs : Same s t)
    (hfree : s.m a = none) (hm : t.m = Function.update s.m a (some i))
    (hlm : t.last_ptr_mtx = s.last_ptr_mtx) (hpc : t.pc = Function.update s.pc i p)
    (ha : a = 0 ∨ ∃ c ∈ q.holds, c ∈ chain ∧ link c = some a) (hc : a ∈ chain)
    (hplain : kind = .threadsafe_list → p.plain = true)
    (hholds : ∀ b, b ∈ p.holds ↔ b = a ∨ b ∈ q.holds)
    (hholds_last : p.holds_last = q.holds_last) (hold : p.old = q.old) (hfresh : p.fresh = q.fresh)
    (hmid : q.mid = none) (hqt : q.target link = none) (hpt : p.target link = none)
    (hknows : p.Knows link chain t) : Inv kind link chain t := by
  have hok := h.threads i
  rw [hq] at hok
  refine h.of_same hs (.lock hfree hm (ha.imp id (fun hnext => Or.inr (by rwa [hq]))))
    (by simp [hlm]) hpc ?_
  rw [hq]
  refine .of_holds hok hplain ?_ hlm hholds_last ?_ hold hfresh hmid hqt hpt hknows
  · intro b
    rw [hm, hholds, ← hok.held b]
    by_cases hb : b = a
    · rw [hb, Function.update_self]
      exact iff_of_true rfl (Or.inl rfl)
    · rw [Function.update_of_ne hb]
      exact ⟨Or.inr, fun hor => hor.resolve_left hb⟩
  · intro b hb
    rcases (hholds b).mp hb with rfl | hb
    · exact Or.inl hc
    · exact hok.walked b hb

/-- What is left of two nodes when the first is given up. -/
theorem mem_second_iff (hne : a ≠ b) (c : Nat) : c ∈ [b] ↔ c ≠ a ∧ c ∈ [a, b] := by
  simp only [List.mem_cons, List.not_mem_nil, or_false]
  exact ⟨fun hc => ⟨fun heq => hne (heq.symm.trans hc), Or.inr hc⟩,
    fun ⟨hc, hor⟩ => hor.resolve_left hc⟩

theorem mem_first_iff (hne : a ≠ b) (c : Nat) : c ∈ [a] ↔ c ≠ b ∧ c ∈ [a, b] := by
  simp only [List.mem_cons, List.not_mem_nil, or_false]
  exact ⟨fun hc => ⟨fun heq => hne (hc.symm.trans heq), Or.inl hc⟩,
    fun ⟨hc, hor⟩ => hor.resolve_right hc⟩

/-- A thread that has unlocked the node `a`. -/
theorem Inv.unlock_node (h : Inv kind link chain s) (hq : s.pc i = q) (hs : Same s t)
    (hm : t.m = Function.update s.m a none) (hlm : t.last_ptr_mtx = s.last_ptr_mtx)
    (hpc : t.pc = Function.update s.pc i p) (ha : a ∈ q.holds)
    (hplain : kind = .threadsafe_list → p.plain = true)
    (hholds : ∀ b, b ∈ p.holds ↔ b ≠ a ∧ b ∈ q.holds)
    (hholds_last : p.holds_last = q.holds_last) (hold : p.old = q.old) (hfresh : p.fresh = q.fresh)
    (hmid : q.mid = none) (hqt : q.target link = none) (hpt : p.target link = none)
    (hknows : p.Knows link chain t) : Inv kind link chain t := by
  have hok := h.threads i
  rw [hq] at hok
  refine h.of_same hs (.unlock ((hok.held a).mpr ha) hm) (by simp [hlm]) hpc ?_
  rw [hq]
  refine .of_holds hok hplain ?_ hlm hholds_last ?_ hold hfresh hmid hqt hpt hknows
  · intro b
    rw [hm, hholds, ← hok.held b]
    by_cases hb : b = a
    · rw [hb, Function.update_self]
      exact iff_of_false (by rintro ⟨⟩) (fun hand => hand.1 rfl)
    · rw [Function.update_of_ne hb]
      exact ⟨fun hheld => ⟨hb, hheld⟩, And.right⟩
  · exact fun b hb => hok.walked b ((hholds b).mp hb).2

/-! ## Steps that write the nodes -/

/-- `new node(value)`: the new node is the thread's. -/
theorem Inv.new_node (h : Inv kind link chain s) {value : T} (hq : s.pc i = q)
    (hplain : kind = .threadsafe_list → p.plain = true) (hholds : p.holds = q.holds)
    (hholds_last : p.holds_last = q.holds_last) (hqold : q.old = none)
    (hfresh : p.fresh = some s.count) (hmid : q.mid = none) (hqt : q.target link = none)
    (hpt : p.target link = none) (hknows : p.Knows link chain ((s.new_node value).goto i p)) :
    Inv kind link chain ((s.new_node value).goto i p) := by
  have hok := h.threads i
  rw [hq] at hok
  have hne : ∀ {a}, s.live a = true → a ≠ s.count := fun ha heq => h.not_live_count (heq ▸ ha)
  have hm : ∀ a j, (s.new_node value).m a = some j ↔ s.m a = some j := by
    intro a j
    by_cases ha : a = s.count
    · subst ha
      refine iff_of_false (by simp [LockedList.new_node]) fun hj => h.not_live_count ?_
      exact h.live_of_held (((h.threads j).held _).mp hj)
    · simp [LockedList.new_node, Function.update_of_ne ha]
  have hcount : s.count ∉ chain := fun hc => h.not_live_count (h.mem.live _ hc)
  have howns : p.owns = some s.count := Pc.owns_of_fresh hfresh
  refine h.of_frame (p := p) (i := i)
    { m := fun a j _ => hm a j, last_mtx := fun _ _ => Iff.rfl, taken := ?_
      link := fun _ _ => Or.inl rfl, kept := fun _ => Or.inl, added := fun _ => Or.inl
      owned := ?_, ptr := Or.inl rfl, pushed := fun _ => Or.inl } rfl
    { h.mem with live := ?_, data := ?_, count := ?_, pushed := ?_, count_pos := Nat.succ_pos _ }
    { plain := hplain, held := ?_
      held_last := hok.held_last.trans (by rw [hholds_last])
      walked := ?_, owned := ?_, fresh := ?_, knows := hknows, target := by rw [hpt]; rintro e ⟨⟩ }
    ?_ ?_ ?_
  · intro a ha
    left
    change Function.update s.m s.count none a = none
    by_cases hac : a = s.count
    · rw [hac, Function.update_self]
    · rw [Function.update_of_ne hac, ha]
  · intro a ha _ _
    simp [LockedList.goto, LockedList.new_node, Function.update_of_ne (hne ha), ha]
  · intro a ha
    change Function.update s.live s.count true a = true
    rw [Function.update_of_ne (hne (h.mem.live a ha))]
    exact h.mem.live a ha
  · intro a ha h0
    change (Function.update s.data s.count (some value) a).isSome = true
    rw [Function.update_of_ne (hne (h.mem.live a ha))]
    exact h.mem.data a ha h0
  · intro a ha
    by_cases hac : a = s.count
    · exact hac ▸ Nat.lt_succ_self _
    · have ha' : s.live a = true := by
        rw [← Function.update_of_ne hac true s.live]
        exact ha
      exact Nat.lt_succ_of_lt (h.mem.count a ha')
  · exact fun a ha => Nat.lt_succ_of_lt (h.mem.pushed a ha)
  · intro a
    rw [hholds]
    exact (hm a i).trans (hok.held a)
  · intro a ha
    rw [hholds] at ha
    exact (hok.walked a ha).imp id (by rw [hqold]; rintro ⟨⟩)
  · intro n hn
    obtain rfl := Option.some.inj (howns.symm.trans hn)
    refine ⟨hcount, ?_, h.mem.count_pos.ne', ?_⟩ <;> simp [LockedList.goto, LockedList.new_node]
  · intro n hn
    obtain rfl := Option.some.inj (hfresh.symm.trans hn)
    exact fun hpushed => Nat.lt_irrefl _ (h.mem.pushed _ hpushed)
  · intro n hn
    exact Or.inr (Or.inl (Option.some.inj (howns.symm.trans hn)).symm)
  · intro a ha
    refine Or.inr (Or.inr ⟨ha, ?_, rfl, by rw [hq, hmid]; rintro ⟨⟩⟩)
    exact Function.update_of_ne (hne (h.mem.live a ha)) ..
  · exact fun _ e he hend => Or.inr (Or.inr ⟨he, hend, rfl, by rw [hq, hqt]; rintro ⟨⟩⟩)

/-- A thread that writes the `next` of a node that it holds, and is not done yet, or of its new
node. -/
theorem Inv.write_next (h : Inv kind link chain s) (hq : s.pc i = q)
    (hs : Same s { t with next := s.next }) (hm : t.m = s.m)
    (hlm : t.last_ptr_mtx = s.last_ptr_mtx) (hpc : t.pc = Function.update s.pc i p)
    (hnext : ∀ a, t.next a = s.next a ∨ p.mid = some a ∨ q.fresh = some a)
    (hplain : kind = .threadsafe_list → p.plain = true) (hholds : p.holds = q.holds)
    (hholds_last : p.holds_last = q.holds_last) (hqold : q.old = none) (hpold : p.old = none)
    (hfresh : p.fresh = q.fresh) (hmid : ∀ a, q.mid = some a → p.mid = some a)
    (hmidc : ∀ a, p.mid = some a → a ∈ chain)
    (hqt : q.target link = none) (hpt : p.target link = none)
    (hknows : p.Knows link chain t) : Inv kind link chain t := by
  have hok := h.threads i
  rw [hq] at hok
  have hlive : t.live = s.live := hs.live
  have hdata : t.data = s.data := hs.data
  have hpushed : t.pushed = s.pushed := hs.pushed
  have howns : p.owns = q.owns := by rw [Pc.owns, Pc.owns, hfresh, hqold, hpold]
  have hmem := h.mem.of_same hs
  refine h.of_frame (p := p) (i := i)
    { m := fun _ _ _ => by rw [hm], last_mtx := fun _ _ => by rw [hlm]
      taken := fun _ => by rw [hm]; exact Or.inl
      link := fun _ _ => Or.inl rfl, kept := fun _ => Or.inl, added := fun _ => Or.inl
      owned := ?_, ptr := Or.inl hs.ptr, pushed := by rw [hpushed]; exact fun _ => Or.inl } hpc
    { path := hmem.path, nodup := hmem.nodup, live := hmem.live, data := hmem.data
      count := hmem.count, pushed := hmem.pushed, count_pos := hmem.count_pos
      hist := hmem.hist, order := hmem.order }
    { plain := hplain
      held := fun a => by rw [hm, hholds]; exact hok.held a
      held_last := by rw [hlm, hholds_last]; exact hok.held_last
      walked := ?_, owned := by rw [hlive, hdata, howns]; exact hok.owned
      fresh := by rw [hfresh, hpushed]; exact hok.fresh
      knows := hknows, target := by rw [hpt]; rintro e ⟨⟩ }
    (fun n hn => Or.inl (by rw [hq, ← howns, hn])) ?_ ?_
  · intro a ha hc hown
    refine ⟨by rw [hlive, ha], ?_, by rw [hdata]⟩
    rcases hnext a with heq | hmid | hfresh
    · exact heq
    · exact absurd (hmidc a hmid) hc
    · exact absurd (Pc.owns_of_fresh hfresh) (hq ▸ hown)
  · intro a ha
    rw [hholds] at ha
    exact (hok.walked a ha).imp id (by rw [hqold]; rintro ⟨⟩)
  · intro a ha
    rcases hnext a with heq | hmid' | hfresh
    · by_cases hqm : q.mid = some a
      · exact Or.inr (Or.inl (hmid a hqm))
      · exact Or.inr (Or.inr ⟨ha, heq, rfl, hq ▸ hqm⟩)
    · exact Or.inr (Or.inl hmid')
    · exact absurd ha (hok.owned a (Pc.owns_of_fresh hfresh)).1
  · exact fun _ e he hend => Or.inr (Or.inr ⟨he, hend, hs.ptr, by rw [hq, hqt]; rintro ⟨⟩⟩)

omit [DecidableEq ι] in
/-- Nobody has locked a node that is not in the list yet. -/
theorem Inv.free_of_fresh (h : Inv kind link chain s) (hn : (s.pc i).fresh = some n)
    (hold : (s.pc i).old = none) : s.m n = none := by
  obtain ⟨hnc, -⟩ := (h.threads i).owned n (Pc.owns_of_fresh hn)
  cases hm : s.m n with
  | none => rfl
  | some j =>
      rcases (h.threads j).walked n (((h.threads j).held n).mp hm) with hc | hj
      · exact absurd hc hnc
      · obtain rfl := h.unique i j n (Pc.owns_of_fresh hn) (Pc.owns_of_old hj)
        rw [hold] at hj
        cases hj

/-- A thread links its new node `n` behind the node `cur` that it holds. -/
theorem Inv.insert (h : Inv kind link chain s) (hq : s.pc i = q) {cur : Nat}
    (hs : Same s { t with next := s.next, pushed := s.pushed }) (hpushed : t.pushed = n :: s.pushed)
    (hm : t.m = s.m) (hlm : t.last_ptr_mtx = s.last_ptr_mtx)
    (hpc : t.pc = Function.update s.pc i p) (hn : q.fresh = some n) (hcur : cur ∈ q.holds)
    (hcn : t.next n = link cur) (hcc : t.next cur = some n)
    (hnext : ∀ a, a ≠ cur → a ≠ n → t.next a = s.next a)
    (hplain : kind = .threadsafe_list → p.plain = true) (hhead : q.plain = true → cur = 0)
    (hholds : p.holds = q.holds) (hholds_last : p.holds_last = q.holds_last)
    (hqold : q.old = none) (hpold : p.old = none) (hfresh : p.fresh = none)
    (hmid : ∀ a, q.mid = some a → a = cur) (hqt : q.target link = none)
    (hknows : ∀ link' chain', link' cur = some n → link' n = link cur → t.m n = none →
      (∀ a, a ∈ chain' ↔ a = n ∨ a ∈ chain) → p.Knows link' chain' t ∧
      (∀ e, p.target link' = some e → t.last_node_ptr ∈ p.holds ∧ e ∈ chain' ∧ link' e = none ∧
        (e ∈ p.holds ∨ t.m e = none ∧ ∃ a ∈ p.holds, a ∈ chain' ∧ link' a = some e)) ∧
      (kind = .double_push_list → link cur = none → p.target link' = some n)) :
    ∃ link' chain', Inv kind link' chain' t := by
  have hok := h.threads i
  rw [hq] at hok
  have hc : cur ∈ chain := (hok.walked cur hcur).resolve_right (by rw [hqold]; rintro ⟨⟩)
  obtain ⟨hnc, hlive, h0, hdata⟩ := hok.owned n (Pc.owns_of_fresh hn)
  have hne : n ≠ cur := fun heq => hnc (heq ▸ hc)
  have hfree := h.free_of_fresh (hq ▸ hn) (hq ▸ hqold)
  obtain ⟨pre, post, hsplit⟩ := List.append_of_mem hc
  let link' := Function.update (Function.update link cur (some n)) n (link cur)
  have hlink_n : link' n = link cur := Function.update_self ..
  have hlink_cur : link' cur = some n := by
    simp only [link', Function.update_of_ne hne.symm, Function.update_self]
  have hlink : ∀ a, a ≠ cur → a ≠ n → link' a = link a := fun a ha hn => by
    simp only [link', Function.update_of_ne hn, Function.update_of_ne ha]
  have hmem' : ∀ a, a ∈ pre ++ cur :: n :: post ↔ a = n ∨ a ∈ chain := by
    intro a
    rw [hsplit]
    simp only [List.mem_append, List.mem_cons]
    tauto
  obtain ⟨hk, htarget, hend⟩ := hknows link' (pre ++ cur :: n :: post) hlink_cur hlink_n
    (by rw [hm, hfree]) hmem'
  have hlive' : t.live = s.live := hs.live
  have hdata' : t.data = s.data := hs.data
  have hremoved : t.removed = s.removed := hs.removed
  have hcount : t.count = s.count := hs.count
  have hperm : (pre ++ cur :: n :: post).Perm (n :: chain) := by
    rw [hsplit]
    exact perm_behind pre post cur n
  -- the path goes from `cur` to `n`, and on from there as before
  have hpath' : Path link' (some 0) (pre ++ cur :: n :: post) none := by
    have hpath := h.mem.path
    have hnodup := h.mem.nodup
    rw [hsplit] at hpath hnodup hnc
    exact hpath.insert_after hnodup hnc hlink_cur hlink_n hlink
  refine ⟨link', pre ++ cur :: n :: post, h.of_frame (p := p) (i := i)
    { m := fun _ _ _ => by rw [hm], last_mtx := fun _ _ => by rw [hlm]
      taken := fun _ => by rw [hm]; exact Or.inl
      link := ?_, kept := fun a ha => Or.inl ((hmem' a).mpr (Or.inr ha)), added := ?_
      owned := ?_, ptr := Or.inl hs.ptr, pushed := ?_ } hpc
    { path := hpath', nodup := ?_, live := ?_, data := ?_, count := ?_, pushed := ?_
      count_pos := by rw [hcount]; exact h.mem.count_pos, hist := ?_, order := ?_ }
    { plain := hplain
      held := fun a => by rw [hm, hholds]; exact hok.held a
      held_last := by rw [hlm, hholds_last]; exact hok.held_last
      walked := ?_, owned := by rw [Pc.owns, hfresh, hpold]; rintro a ⟨⟩
      fresh := by rw [hfresh]; rintro a ⟨⟩, knows := hk, target := htarget }
    (by rw [Pc.owns, hfresh, hpold]; rintro a ⟨⟩) ?_ ?_⟩
  · intro a ha
    by_cases hac : a = cur
    · exact Or.inr (hq ▸ hac ▸ hcur)
    · exact Or.inl (hlink a hac (fun heq => hnc (heq ▸ ha)))
  · intro a ha
    exact ((hmem' a).mp ha).symm.imp id (fun heq => by rw [hq, heq, Pc.owns_of_fresh hn])
  · intro a ha hac hown
    rw [hlive', hdata']
    refine ⟨ha, hnext a (fun heq => hac (heq ▸ hc)) (fun heq => hown ?_), rfl⟩
    rw [hq, heq, Pc.owns_of_fresh hn]
  · intro a ha
    rw [hpushed] at ha
    exact (List.mem_cons.mp ha).symm.imp id
      (fun heq => by rw [hq, heq, Pc.owns_of_fresh hn])
  -- the new node was in no list before
  · exact (hperm.nodup_iff).mpr (List.nodup_cons.mpr ⟨hnc, h.mem.nodup⟩)
  · rw [hlive']
    intro a ha
    rcases (hmem' a).mp ha with rfl | ha
    · exact hlive
    · exact h.mem.live a ha
  · rw [hdata']
    intro a ha ha0
    rcases (hmem' a).mp ha with rfl | ha
    · exact hdata
    · exact h.mem.data a ha ha0
  · rw [hlive', hcount]
    exact h.mem.count
  · rw [hpushed, hcount]
    intro a ha
    rcases List.mem_cons.mp ha with rfl | ha
    · exact h.mem.count a hlive
    · exact h.mem.pushed a ha
  · rw [hpushed, hremoved]
    have htail := h.mem.path.tail_perm hpath' hperm
    exact ((h.mem.hist.cons n).trans List.perm_middle.symm).trans (htail.symm.append_left _)
  -- `push_front` is the only insertion of this class: the list is in the order of the pushes
  · intro hkind
    obtain rfl := hhead (hok.plain hkind)
    have horder := h.mem.order hkind
    have hnodup := h.mem.nodup
    have hnp : n ∉ s.removed := fun hr =>
      hok.fresh n hn (h.mem.hist.mem_iff.mpr (List.mem_append_left _ hr))
    have hpresent : t.present = n :: s.present := by
      rw [present, hpushed, hremoved, List.filter_cons_of_pos (by simpa using hnp)]
      rfl
    rw [hpresent]
    cases pre with
    | nil =>
        obtain rfl := (List.cons.inj (horder.symm.trans hsplit)).2
        rfl
    | cons x pre =>
        obtain rfl := (List.cons.inj (horder.symm.trans hsplit)).1
        rw [hsplit] at hnodup
        simp at hnodup
  · intro a ha
    rw [hholds] at ha
    rcases hok.walked a ha with hac | hold
    · exact Or.inl ((hmem' a).mpr (Or.inr hac))
    · rw [hqold] at hold
      cases hold
  · intro a ha
    by_cases hac : a = cur
    · exact Or.inl (by rw [hac, hcc, hlink_cur])
    · by_cases han : a = n
      · exact Or.inl (by rw [han, hcn, hlink_n])
      · refine Or.inr (Or.inr ⟨((hmem' a).mp ha).resolve_left han, hnext a hac han,
          hlink a hac han, fun hm => hac (hmid a (hq ▸ hm))⟩)
  -- the last node is the new one, or it is what it was
  · intro hkind e he hlast
    rcases (hmem' e).mp he with rfl | hec
    · exact Or.inr (Or.inl (hend hkind (hlink_n ▸ hlast)))
    · have hecur : e ≠ cur := fun heq => by rw [heq, hlink_cur] at hlast; cases hlast
      have hen : e ≠ n := fun heq => hnc (heq ▸ hec)
      exact Or.inr (Or.inr ⟨hec, hlink e hecur hen ▸ hlast, hs.ptr, by rw [hq, hqt]; rintro ⟨⟩⟩)

omit [DecidableEq ι] in
/-- The node behind another is not that one. -/
theorem Mem.next_ne (h : Mem kind link chain s) (ha : a ∈ chain) (hab : link a = some b) :
    a ≠ b := by
  obtain ⟨pre, post, hsplit⟩ := h.path.split_next ha hab
  have hnodup := h.nodup
  rw [hsplit] at hnodup
  simp only [List.nodup_append, List.nodup_cons, List.mem_cons, not_or] at hnodup
  exact hnodup.2.1.1.1

omit [DecidableEq ι] in
/-- A thread that holds the last node, and does not owe it, finds `last_node_ptr` there. -/
theorem Inv.ptr_eq (h : Inv kind link chain s) (hkind : kind = .double_push_list)
    (ha : a ∈ (s.pc i).holds) (hc : a ∈ chain) (hend : link a = none)
    (hnot : (s.pc i).target link ≠ some a) : s.last_node_ptr = a := by
  rcases h.last hkind a hc hend with heq | ⟨j, hj⟩
  · exact heq
  · have hji : j ≠ i := fun heq => hnot (heq ▸ hj)
    obtain ⟨-, -, -, hmem | ⟨hm, -⟩⟩ := (h.threads j).target a hj
    · exact absurd (h.holder hmem ha) hji
    · exact absurd ha (h.not_held_of_free hm)

/-- `current->next = std::move(next->next)`: the node `nxt` is out of the list. -/
theorem Inv.remove (h : Inv kind link chain s) {op : Op T} {cur nxt : Nat}
    (hq : s.pc i = .relink op cur nxt) (hp : p = if kind = .double_push_list
      then .removed_last op cur nxt else .unlock_next op cur nxt) :
    ∃ link' chain', Inv kind link' chain'
      { ((s.set_next cur (s.next nxt)).set_next nxt none).goto i p with
        removed := nxt :: s.removed } := by
  have hok := h.threads i
  rw [hq] at hok
  have hlink : link cur = some nxt := hok.knows
  have hcur : cur ∈ (s.pc i).holds := by rw [hq]; exact List.mem_cons_self
  have hnxt : nxt ∈ (s.pc i).holds := by rw [hq]; exact List.mem_cons_of_mem _ List.mem_cons_self
  have hc : cur ∈ chain := (hok.walked cur (by simp [Pc.holds])).resolve_right (by rintro ⟨⟩)
  have hnc : nxt ∈ chain := h.mem.path.next_mem hc hlink
  have hne := h.mem.next_ne hc hlink
  have hnext : s.next nxt = link nxt :=
    h.next_eq hnxt hnc (by rw [hq]; exact fun heq => hne (Option.some.inj heq))
  obtain ⟨pre, post, hsplit⟩ := h.mem.path.split_next hc hlink
  -- what the two ways on have in common
  have hholds : p.holds = [cur, nxt] := by rw [hp]; split <;> rfl
  have hholds_last : p.holds_last = false := by rw [hp]; split <;> rfl
  have hold : p.old = some nxt := by rw [hp]; split <;> rfl
  have hfresh : p.fresh = none := by rw [hp]; split <;> rfl
  let link' := Function.update link cur (link nxt)
  have hlink_cur : link' cur = link nxt := Function.update_self ..
  have hlink' : ∀ a, a ≠ cur → link' a = link a := fun a ha => Function.update_of_ne ha ..
  have hnodup := h.mem.nodup
  have hmem' : ∀ a, a ∈ pre ++ cur :: post ↔ a ∈ chain ∧ a ≠ nxt := by
    intro a
    rw [hsplit] at hnodup ⊢
    simp only [List.nodup_append, List.nodup_cons, List.mem_cons] at hnodup
    simp only [List.mem_append, List.mem_cons]
    constructor
    · rintro (ha | rfl | ha)
      · exact ⟨Or.inl ha, hnodup.2.2 a ha nxt (Or.inr (Or.inl rfl))⟩
      · exact ⟨Or.inr (Or.inl rfl), hne⟩
      · exact ⟨Or.inr (Or.inr (Or.inr ha)), fun heq => hnodup.2.1.2.1 (heq ▸ ha)⟩
    · tauto
  have hperm : chain.Perm (nxt :: (pre ++ cur :: post)) := by
    rw [hsplit]
    exact perm_behind pre post cur nxt
  have hpath' : Path link' (some 0) (pre ++ cur :: post) none := by
    have hpath := h.mem.path
    rw [hsplit] at hpath hnodup
    exact hpath.remove_after hnodup hlink_cur fun c hca _ => hlink' c hca
  refine ⟨link', pre ++ cur :: post, h.of_frame (p := p) (i := i)
    { m := fun _ _ _ => Iff.rfl, last_mtx := fun _ _ => Iff.rfl, taken := fun _ => Or.inl
      link := ?_, kept := ?_, added := fun a ha => Or.inl ((hmem' a).mp ha).1
      owned := ?_, ptr := Or.inl rfl, pushed := fun _ => Or.inl } rfl
    { path := hpath', nodup := ?_, live := fun a ha => h.mem.live a ((hmem' a).mp ha).1
      data := fun a ha => h.mem.data a ((hmem' a).mp ha).1, count := h.mem.count
      pushed := h.mem.pushed, count_pos := h.mem.count_pos, hist := ?_, order := ?_ }
    { plain := ?_, held := fun a => (hok.held a).trans (by rw [hholds]; rfl)
      held_last := hok.held_last.trans (by rw [hholds_last]; rfl)
      walked := ?_, owned := ?_, fresh := by rw [hfresh]; rintro a ⟨⟩, knows := ?_
      target := ?_ } ?_ ?_ ?_⟩
  · intro a ha
    by_cases hac : a = cur
    · exact Or.inr (hac ▸ hcur)
    · exact Or.inl (hlink' a hac)
  · intro a ha
    by_cases han : a = nxt
    · exact Or.inr (han ▸ hnxt)
    · exact Or.inl ((hmem' a).mpr ⟨ha, han⟩)
  · intro a ha hac _
    refine ⟨ha, ?_, rfl⟩
    change Function.update (Function.update s.next cur (s.next nxt)) nxt none a = s.next a
    rw [Function.update_of_ne (fun heq : a = nxt => hac (heq ▸ hnc)),
      Function.update_of_ne (fun heq : a = cur => hac (heq ▸ hc))]
  · exact (List.nodup_cons.mp (hperm.nodup_iff.mp hnodup)).2
  · have htail := hpath'.tail_perm h.mem.path hperm
    exact (h.mem.hist.trans (htail.append_left _)).trans List.perm_middle
  · intro hkind
    have hfilter : chain.filter (· ≠ nxt) = pre ++ cur :: post := by
      rw [hsplit, List.filter_append, List.filter_cons_of_pos (by simpa using hne),
        List.filter_cons_of_neg (by simp), List.filter_eq_self.mpr, List.filter_eq_self.mpr]
      · exact fun a ha => by simpa using ((hmem' a).mp (by simp [ha])).2
      · exact fun a ha => by simpa using ((hmem' a).mp (by simp [ha])).2
    have h0 : 0 ≠ nxt := fun heq => h.mem.path.next_ne_head hnodup hc (heq ▸ hlink)
    rw [← hfilter, h.mem.order hkind, List.filter_cons_of_pos (by simpa using h0), present, present,
      List.filter_filter]
    refine congrArg (0 :: ·) (List.filter_congr fun a _ => ?_)
    simp [List.mem_cons, not_or]
  · intro hkind
    rw [hp, if_neg (by rw [hkind]; rintro ⟨⟩)]
    exact hok.plain hkind
  · rw [hholds, hold]
    intro a ha
    rcases List.mem_cons.mp ha with rfl | ha
    · exact Or.inl ((hmem' a).mpr ⟨hc, hne⟩)
    · exact Or.inr (congrArg some (List.mem_singleton.mp ha).symm)
  · rw [Pc.owns_of_old hold]
    intro n hn
    obtain rfl := Option.some.inj hn
    have h0 : nxt ≠ 0 := fun heq => h.mem.path.next_ne_head hnodup hc (heq ▸ hlink)
    exact ⟨fun hmem => ((hmem' nxt).mp hmem).2 rfl, h.mem.live nxt hnc, h0,
      h.mem.data nxt hnc h0⟩
  · have hc' : cur ∈ pre ++ cur :: post := (hmem' cur).mpr ⟨hc, hne⟩
    rw [hp]
    split <;> exact hc'
  · intro e he
    by_cases hkind : kind = .double_push_list
    · rw [hp, if_pos hkind] at he
      by_cases hend : link' cur = none
      · simp only [Pc.target, hend, if_true, Option.some.injEq] at he
        subst he
        have hptr := h.ptr_eq hkind hnxt hnc (hlink_cur ▸ hend) (by rw [hq]; rintro ⟨⟩)
        have hheld : cur ∈ p.holds := by rw [hholds]; exact List.mem_cons_self
        refine ⟨?_, (hmem' cur).mpr ⟨hc, hne⟩, hend, Or.inl hheld⟩
        change s.last_node_ptr ∈ p.holds
        rw [hptr, hholds]
        exact List.mem_cons_of_mem _ List.mem_cons_self
      · simp only [Pc.target, hend, if_false, reduceCtorEq] at he
    · rw [hp, if_neg hkind] at he
      cases he
  · intro n hn
    rw [Pc.owns_of_old hold] at hn
    exact Or.inr (Or.inr (Option.some.inj hn ▸ hnc))
  · intro a ha
    obtain ⟨hac, han⟩ := (hmem' a).mp ha
    by_cases hacur : a = cur
    · left
      change Function.update (Function.update s.next cur (s.next nxt)) nxt none a = _
      rw [Function.update_of_ne han, hacur, Function.update_self, hnext, hlink_cur]
    · refine Or.inr (Or.inr ⟨hac, ?_, hlink' a hacur, ?_⟩)
      · change Function.update (Function.update s.next cur (s.next nxt)) nxt none a = _
        rw [Function.update_of_ne han, Function.update_of_ne hacur]
      · rw [hq]
        exact fun heq => hacur (Option.some.inj heq).symm
  · intro hkind e he hend
    by_cases hecur : e = cur
    · rw [hecur] at hend
      refine Or.inr (Or.inl ?_)
      rw [hp, if_pos hkind, hecur]
      simp only [Pc.target, hend, if_true]
    · exact Or.inr (Or.inr ⟨((hmem' e).mp he).1, hlink' e hecur ▸ hend, rfl,
        by rw [hq]; rintro ⟨⟩⟩)

/-- A thread writes to `last_node_ptr` the last node, as it was to. -/
theorem Inv.set_last (h : Inv kind link chain s) (hq : s.pc i = q) {e : Nat}
    (hs : Same s { t with last_node_ptr := s.last_node_ptr }) (hm : t.m = s.m)
    (hlm : t.last_ptr_mtx = s.last_ptr_mtx) (hpc : t.pc = Function.update s.pc i p)
    (hqt : q.target link = some e) (hptr : t.last_node_ptr = e)
    (hplain : kind = .threadsafe_list → p.plain = true) (hholds : p.holds = q.holds)
    (hholds_last : p.holds_last = q.holds_last) (hold : p.old = q.old) (hfresh : p.fresh = q.fresh)
    (hmid : p.mid = q.mid) (hpt : p.target link = none) (hknows : p.Knows link chain t) :
    Inv kind link chain t := by
  have hok := h.threads i
  rw [hq] at hok
  obtain ⟨hheld, hec, hend, -⟩ := hok.target e hqt
  have hlive : t.live = s.live := hs.live
  have hdata : t.data = s.data := hs.data
  have hnext : t.next = s.next := hs.next
  have hpushed : t.pushed = s.pushed := hs.pushed
  have hmem := h.mem.of_same hs
  have howns : p.owns = q.owns := by rw [Pc.owns, Pc.owns, hfresh, hold]
  refine h.of_frame (p := p) (i := i)
    { m := fun _ _ _ => by rw [hm], last_mtx := fun _ _ => by rw [hlm]
      taken := fun _ => by rw [hm]; exact Or.inl
      link := fun _ _ => Or.inl rfl, kept := fun _ => Or.inl, added := fun _ => Or.inl
      owned := by rw [hlive, hnext, hdata]; exact fun a ha _ _ => ⟨ha, rfl, rfl⟩
      ptr := Or.inr (hq ▸ hheld), pushed := by rw [hpushed]; exact fun _ => Or.inl } hpc
    { path := hmem.path, nodup := hmem.nodup, live := hmem.live, data := hmem.data
      count := hmem.count, pushed := hmem.pushed, count_pos := hmem.count_pos
      hist := hmem.hist, order := hmem.order }
    { plain := hplain
      held := fun a => by rw [hm, hholds]; exact hok.held a
      held_last := by rw [hlm, hholds_last]; exact hok.held_last
      walked := by rw [hholds, hold]; exact hok.walked
      owned := by rw [hlive, hdata, howns]; exact hok.owned
      fresh := by rw [hfresh, hpushed]; exact hok.fresh
      knows := hknows, target := by rw [hpt]; rintro e ⟨⟩ }
    (fun n hn => Or.inl (by rw [hq, ← howns, hn])) ?_ ?_
  · intro a ha
    by_cases hqm : q.mid = some a
    · exact Or.inr (Or.inl (hmid.trans hqm))
    · exact Or.inr (Or.inr ⟨ha, congrFun hnext a, rfl, hq ▸ hqm⟩)
  · intro _ e' he' hend'
    exact Or.inl (hptr.trans (h.mem.path.last_unique hec he' hend hend'))

/-- The node that a removal has taken out is destroyed. -/
theorem Inv.destroy_node (h : Inv kind link chain s) {op : Op T} {cur nxt : Nat}
    (hq : s.pc i = .destroy op cur nxt) (hplain : kind = .threadsafe_list → p.plain = true)
    (hholds : p.holds = [cur]) (hholds_last : p.holds_last = false) (hold : p.old = none)
    (hfresh : p.fresh = none) (hpt : p.target link = none)
    (hknows : p.Knows link chain { s.goto i p with live := Function.update s.live nxt false }) :
    Inv kind link chain { s.goto i p with live := Function.update s.live nxt false } := by
  have hok := h.threads i
  rw [hq] at hok
  obtain ⟨hnc, -⟩ := hok.owned nxt rfl
  have hcur : cur ∈ chain := hok.knows
  have howns : p.owns = none := by rw [Pc.owns, hfresh, hold]; rfl
  have hlive : ∀ a, a ≠ nxt → Function.update s.live nxt false a = s.live a :=
    fun a ha => Function.update_of_ne ha ..
  refine h.of_frame (p := p) (i := i)
    { m := fun _ _ _ => Iff.rfl, last_mtx := fun _ _ => Iff.rfl, taken := fun _ => Or.inl
      link := fun _ _ => Or.inl rfl, kept := fun _ => Or.inl, added := fun _ => Or.inl
      owned := ?_, ptr := Or.inl rfl, pushed := fun _ => Or.inl } rfl
    { h.mem with live := ?_, count := ?_ }
    { plain := hplain
      held := fun a => (hok.held a).trans (by rw [hholds]; rfl)
      held_last := hok.held_last.trans (by rw [hholds_last]; rfl)
      walked := ?_, owned := by rw [howns]; rintro n ⟨⟩
      fresh := by rw [hfresh]; rintro n ⟨⟩, knows := hknows
      target := by rw [hpt]; rintro e ⟨⟩ }
    (by rw [howns]; rintro n ⟨⟩) ?_ ?_
  · intro a ha _ hown
    refine ⟨?_, rfl, rfl⟩
    change Function.update s.live nxt false a = true
    rw [hlive a (fun heq => hown (by rw [hq, heq]; rfl)), ha]
  · intro a ha
    change Function.update s.live nxt false a = true
    rw [hlive a (fun heq => hnc (heq ▸ ha)), h.mem.live a ha]
  · intro a ha
    change Function.update s.live nxt false a = true at ha
    by_cases han : a = nxt
    · rw [han, Function.update_self] at ha
      cases ha
    · exact h.mem.count a ((hlive a han).symm.trans ha)
  · rw [hholds]
    intro a ha
    obtain rfl := List.mem_singleton.mp ha
    exact Or.inl hcur
  · exact fun a ha => Or.inr (Or.inr ⟨ha, rfl, rfl, by rw [hq]; rintro ⟨⟩⟩)
  · exact fun _ e he hend => Or.inr (Or.inr ⟨he, hend, rfl, by rw [hq]; rintro ⟨⟩⟩)

/-- `std::lock` has locked the last node and `last_ptr_mtx`. -/
theorem Inv.lock_back (h : Inv kind link chain s) {p : Nat} (hq : s.pc i = .back_lock n p)
    (hp : p = s.last_node_ptr) (hfree : s.m p = none) (hlast : s.last_ptr_mtx = none) :
    Inv kind link chain { s.goto i (.back_adopt n p) with
      m := Function.update s.m p (some i), last_ptr_mtx := some i } := by
  have hok := h.threads i
  rw [hq] at hok
  have hkind : kind = .double_push_list := by
    cases kind with
    | threadsafe_list => exact absurd (hok.plain rfl) (by rintro ⟨⟩)
    | double_push_list => rfl
  obtain ⟨e, he, hend⟩ := h.mem.path.exists_last (List.ne_nil_of_mem h.mem.head_mem)
  -- nobody is to write `last_node_ptr`: such a thread would hold `p`
  have hpe : p = e := by
    rcases h.last hkind e he hend with heq | ⟨j, hj⟩
    · exact hp.trans heq
    · have hheld := ((h.threads j).target e hj).1
      rw [← hp] at hheld
      exact absurd hheld (h.not_held_of_free hfree)
  refine h.of_same ⟨rfl, rfl, rfl, rfl, rfl, rfl, rfl⟩
    (.lock hfree rfl (Or.inr (Or.inl ⟨hp, hpe ▸ hend⟩))) ?_ rfl ?_
  · intro j hj
    rw [hlast]
    simp [hj.symm]
  · rw [hq]
    refine { plain := hok.plain, held := ?_, held_last := ?_, walked := ?_, owns := ?_
             fresh := ?_, mid := by rintro a ⟨⟩, knows := ?_, target := by rintro e ⟨⟩
             owes := by rintro e ⟨⟩ }
    · intro a
      change Function.update s.m p (some i) a = some i ↔ a ∈ [p]
      by_cases ha : a = p
      · simp [ha]
      · rw [Function.update_of_ne ha, hok.held a]
        simp [Pc.holds, ha]
    · exact iff_of_true rfl rfl
    · intro a ha
      rw [List.mem_singleton.mp ha, hpe]
      exact Or.inl he
    · exact fun a ha => ha
    · exact fun a ha => ha
    · exact ⟨hok.knows, hpe ▸ he, hpe ▸ hend, hp.symm⟩

/-! ## Every step -/

omit [DecidableEq ι] in
/-- A node was locked. -/
theorem lock_eq_some {u : LockedList ι T} (ht : s.lock i a u = some t) :
    s.m a = none ∧ t = { u with m := Function.update s.m a (some i) } := by
  unfold lock at ht
  split at ht
  · next hm => exact ⟨hm, (Option.some.inj ht).symm⟩
  · cases ht

/-- The steps of an operation, and those that several share. -/
inductive Part
  | idle | front | back | walk | change | last

def Pc.part : Pc T → Part
  | .idle => .idle
  | .new_front _ | .front_lock _ | .front_next _ | .front_head _ | .front_last _ => .front
  | .front_unlock => .front
  | .new_back _ | .back_read _ | .back_lock _ _ | .back_adopt _ _ | .back_next _ _ _ => .back
  | .back_last _ _ _ | .back_unlock_last _ _ | .back_unlock _ _ => .back
  | .head_lock _ | .next _ _ | .next_lock _ _ _ | .locked _ _ _ | .visit _ _ | .pass _ _ _ => .walk
  | .unlock _ _ _ => .walk
  | .unlink _ _ _ | .relink _ _ _ | .removed_last _ _ _ | .unlock_next _ _ _ => .change
  | .destroy _ _ _ | .insert_new _ _ _ _ | .insert_old _ _ _ _ | .insert_next _ _ _ _ => .change
  | .insert_head _ _ _ _ | .insert_unlock _ _ _ => .change
  | .last_lock _ | .last_set _ | .last_unlock _ => .last

/-- The start of an operation. -/
theorem Inv.call (h : Inv kind link chain s) (hq : s.pc i = .idle) {c : Call T}
    (hp : c.start kind = some p) : Inv kind link chain (s.goto i p) := by
  cases c with
  | push_front v =>
      cases hp
      exact h.goto hq ⟨rfl, rfl, rfl, rfl, rfl, rfl, rfl⟩ rfl rfl rfl (fun _ => rfl) rfl rfl rfl rfl
        rfl rfl trivial
  | push_back v =>
      simp only [Call.start] at hp
      split at hp
      · next hkind =>
          cases hp
          exact h.goto hq ⟨rfl, rfl, rfl, rfl, rfl, rfl, rfl⟩ rfl rfl rfl
            (by rw [hkind]; rintro ⟨⟩) rfl rfl rfl rfl rfl rfl trivial
      · cases hp
  | traverse op =>
      cases op with
      | for_each | find_first_if f | remove_if f =>
          cases hp
          exact h.goto hq ⟨rfl, rfl, rfl, rfl, rfl, rfl, rfl⟩ rfl rfl rfl (fun _ => rfl) rfl rfl rfl
            rfl rfl rfl trivial
      | remove_first f | insert_if f v =>
          simp only [Call.start] at hp
          split at hp
          · next hkind =>
              cases hp
              exact h.goto hq ⟨rfl, rfl, rfl, rfl, rfl, rfl, rfl⟩ rfl rfl rfl
                (by rw [hkind]; rintro ⟨⟩) rfl rfl rfl rfl rfl rfl trivial
          · cases hp

/-- `push_front`. -/
theorem Inv.push_front (h : Inv kind link chain s) (ht : run_step kind s i = some t)
    (hpart : (s.pc i).part = .front) :
    ∃ link' chain', Inv kind link' chain' t := by
  have hok := h.threads i
  cases hq : s.pc i
  all_goals rw [hq] at hok hpart; cases hpart
  all_goals simp only [run_step, hq] at ht
  case new_front v =>
    cases ht
    exact ⟨link, chain, h.new_node hq hok.plain rfl rfl rfl rfl rfl rfl rfl trivial⟩
  case front_lock n =>
    obtain ⟨hm, rfl⟩ := lock_eq_some ht
    exact ⟨link, chain, h.lock_node hq ⟨rfl, rfl, rfl, rfl, rfl, rfl, rfl⟩ hm rfl rfl rfl
      (Or.inl rfl) h.mem.head_mem hok.plain (by simp [Pc.holds]) rfl rfl rfl rfl rfl rfl trivial⟩
  case front_next n =>
    -- `new_node->next` becomes what was behind the head, the head is emptied
    cases ht
    obtain ⟨-, -, h0, -⟩ := hok.owned n rfl
    have hhead : 0 ∈ (s.pc i).holds := by rw [hq]; exact List.mem_cons_self
    have hnext := h.next_eq hhead h.mem.head_mem (by rw [hq]; rintro ⟨⟩)
    refine ⟨link, chain, h.write_next hq ⟨rfl, rfl, rfl, rfl, rfl, rfl, rfl⟩ rfl rfl rfl ?_
      hok.plain rfl rfl rfl rfl rfl (by rintro a ⟨⟩) ?_ rfl rfl ?_⟩
    · intro a
      by_cases ha0 : a = 0
      · exact Or.inr (Or.inl (congrArg some ha0.symm))
      · by_cases han : a = n
        · exact Or.inr (Or.inr (congrArg some han.symm))
        · left
          change Function.update (Function.update s.next n (s.next 0)) 0 none a = s.next a
          rw [Function.update_of_ne ha0, Function.update_of_ne han]
    · rintro a ⟨⟩
      exact h.mem.head_mem
    · change Function.update (Function.update s.next n (s.next 0)) 0 none n = link 0
      rw [Function.update_of_ne h0, Function.update_self, hnext]
  case front_head n =>
    -- the new node is in the list
    cases ht
    obtain ⟨-, -, h0, -⟩ := hok.owned n rfl
    have hn : Function.update s.next 0 (some n) n = link 0 :=
      (Function.update_of_ne h0 ..).trans hok.knows
    have h0n : Function.update s.next 0 (some n) 0 = some n := Function.update_self ..
    have hother : ∀ a, a ≠ 0 → a ≠ n → Function.update s.next 0 (some n) a = s.next a :=
      fun a ha _ => Function.update_of_ne ha ..
    have hmid : ∀ a, (Pc.front_head n : Pc T).mid = some a → a = 0 :=
      fun a ha => (Option.some.inj ha).symm
    cases kind with
    | threadsafe_list =>
        refine h.insert (p := .front_unlock) hq ⟨rfl, rfl, rfl, rfl, rfl, rfl, rfl⟩ rfl rfl rfl rfl
          rfl List.mem_cons_self hn h0n hother (fun _ => rfl) (fun _ => rfl) rfl rfl rfl rfl rfl
          hmid
          rfl ?_
        intro link' chain' _ _ _ _
        exact ⟨trivial, by rintro e ⟨⟩, by rintro ⟨⟩⟩
    | double_push_list =>
        refine h.insert (p := .front_last n) hq ⟨rfl, rfl, rfl, rfl, rfl, rfl, rfl⟩ rfl rfl rfl rfl
          rfl List.mem_cons_self hn h0n hother (by rintro ⟨⟩) (fun _ => rfl) rfl rfl rfl rfl rfl
          hmid
          rfl ?_
        intro link' chain' hlink0 hlinkn hm hmem
        refine ⟨⟨hlink0, hm⟩, fun e he => ?_, fun _ hend => ?_⟩
        · by_cases hend : link' n = none
          · simp only [Pc.target, hend, if_true, Option.some.injEq] at he
            subst he
            have hhead : 0 ∈ (s.pc i).holds := by rw [hq]; exact List.mem_cons_self
            have hptr := h.ptr_eq rfl hhead h.mem.head_mem (hlinkn ▸ hend) (by rw [hq]; rintro ⟨⟩)
            exact ⟨List.mem_singleton.mpr hptr, (hmem n).mpr (Or.inl rfl), hend,
              Or.inr ⟨hm, 0, List.mem_cons_self, (hmem 0).mpr (Or.inr h.mem.head_mem), hlink0⟩⟩
          · simp only [Pc.target, hend, if_false, reduceCtorEq] at he
        · simp only [Pc.target, hlinkn, hend, if_true]
  case front_last n =>
    cases h0 : s.next 0 with
    | none =>
        rw [h0] at ht
        cases ht
    | some a =>
        rw [h0, Option.map_some] at ht
        cases ht
        obtain ⟨hlink0, hm⟩ := hok.knows
        have hhead : 0 ∈ (s.pc i).holds := by rw [hq]; exact List.mem_cons_self
        have hnext := h.next_eq hhead h.mem.head_mem (by rw [hq]; rintro ⟨⟩)
        obtain rfl : a = n := Option.some.inj (h0.symm.trans (hnext.trans hlink0))
        rw [h.next_eq_of_free hm (h.mem.path.next_mem h.mem.head_mem hlink0)]
        refine ⟨link, chain, ?_⟩
        by_cases hend : link a = none
        · rw [if_pos hend]
          exact h.goto hq ⟨rfl, rfl, rfl, rfl, rfl, rfl, rfl⟩ rfl rfl rfl hok.plain rfl rfl rfl rfl
            rfl (by simp [Pc.target, hend]) hlink0
        · rw [if_neg hend]
          exact h.goto hq ⟨rfl, rfl, rfl, rfl, rfl, rfl, rfl⟩ rfl rfl rfl (fun _ => rfl) rfl rfl rfl
            rfl rfl (by simp [Pc.target, hend]) trivial
  case front_unlock =>
    cases ht
    exact ⟨link, chain, h.unlock_node hq ⟨rfl, rfl, rfl, rfl, rfl, rfl, rfl⟩ rfl rfl rfl
      List.mem_cons_self hok.plain (by simp [Pc.holds]) rfl rfl rfl rfl rfl rfl trivial⟩

/-- `push_back`, where the node that was read is still the last when it is locked. -/
theorem Inv.push_back (h : Inv kind link chain s) (ht : run_step kind s i = some t)
    (hread : ∀ n p, s.pc i = .back_lock n p → p = s.last_node_ptr)
    (hpart : (s.pc i).part = .back) :
    ∃ link' chain', Inv kind link' chain' t := by
  have hok := h.threads i
  cases hq : s.pc i
  all_goals rw [hq] at hok hpart; cases hpart
  all_goals simp only [run_step, hq] at ht
  case new_back v =>
    cases ht
    exact ⟨link, chain, h.new_node hq hok.plain rfl rfl rfl rfl rfl rfl rfl
      (Function.update_self ..)⟩
  case back_read n =>
    cases ht
    exact ⟨link, chain, h.goto hq ⟨rfl, rfl, rfl, rfl, rfl, rfl, rfl⟩ rfl rfl rfl hok.plain rfl rfl
      rfl rfl rfl rfl hok.knows⟩
  case back_lock n p =>
    split at ht
    · next hlast =>
        obtain ⟨hm, rfl⟩ := lock_eq_some ht
        exact ⟨link, chain, h.lock_back hq (hread n p hq) hm hlast⟩
    · cases ht
  case back_adopt n p =>
    cases ht
    obtain ⟨hn, hp, hend, hptr⟩ := hok.knows
    exact ⟨link, chain, h.goto hq ⟨rfl, rfl, rfl, rfl, rfl, rfl, rfl⟩ rfl rfl rfl hok.plain rfl rfl
      rfl rfl rfl rfl ⟨hn, hp, hend, hptr, hptr⟩⟩
  case back_next n p q =>
    -- the new node is in the list, behind what was the last
    cases ht
    obtain ⟨hn, hp, hend, hptr, rfl⟩ := hok.knows
    obtain ⟨hnc, -⟩ := hok.owned n rfl
    have hne : n ≠ q := fun heq => hnc (heq ▸ hp)
    have hheld : q ∈ (s.pc i).holds := by rw [hq]; exact List.mem_cons_self
    have hnext : s.next q = none := (h.next_eq hheld hp (by rw [hq]; rintro ⟨⟩)).trans hend
    rw [hnext, release_none]
    refine h.insert (p := .back_last n q q) hq ⟨rfl, rfl, rfl, rfl, rfl, rfl, rfl⟩ rfl rfl rfl rfl
      rfl List.mem_cons_self ?_ (Function.update_self ..) ?_ hok.plain (by rintro ⟨⟩) rfl rfl rfl
      rfl
      rfl (by rintro a ⟨⟩) rfl ?_
    · exact (Function.update_of_ne hne ..).trans (hn.trans hend.symm)
    · exact fun a ha _ => Function.update_of_ne ha ..
    · intro link' chain' hlinkq hlinkn hm hmem
      refine ⟨⟨hlinkq, rfl⟩, ?_, fun _ _ => rfl⟩
      rintro e ⟨⟩
      exact ⟨by rw [← hptr]; exact List.mem_singleton_self _, (hmem n).mpr (Or.inl rfl),
        hlinkn.trans hend,
        Or.inr ⟨hm, q, List.mem_cons_self, (hmem q).mpr (Or.inr hp), hlinkq⟩⟩
  case back_last n p q =>
    obtain ⟨hlink, rfl⟩ := hok.knows
    have hheld : q ∈ (s.pc i).holds := by rw [hq]; exact List.mem_cons_self
    have hqc := hok.mem_chain List.mem_cons_self (by rintro ⟨⟩)
    rw [(h.next_eq hheld hqc (by rw [hq]; rintro ⟨⟩)).trans hlink, Option.map_some] at ht
    cases ht
    exact ⟨link, chain, h.set_last hq ⟨rfl, rfl, rfl, rfl, rfl, rfl, rfl⟩ rfl rfl rfl rfl rfl
      hok.plain rfl rfl rfl rfl rfl rfl rfl⟩
  case back_unlock_last p q =>
    cases ht
    refine ⟨link, chain, h.move_last hq ⟨rfl, rfl, rfl, rfl, rfl, rfl, rfl⟩ rfl ?_ rfl hok.plain rfl
      ?_ rfl rfl rfl rfl hok.knows⟩
    · intro j hj
      rw [hok.held_last.mpr rfl]
      simp [hj.symm]
    · exact iff_of_false (by rintro ⟨⟩) (by rintro ⟨⟩)
  case back_unlock p q =>
    cases ht
    obtain rfl := hok.knows
    exact ⟨link, chain, h.unlock_node hq ⟨rfl, rfl, rfl, rfl, rfl, rfl, rfl⟩ rfl rfl rfl
      List.mem_cons_self (fun _ => rfl) (by simp [Pc.holds]) rfl rfl rfl rfl rfl rfl trivial⟩

/-- The loops, as far as they do not change the list. -/
theorem Inv.traverse (h : Inv kind link chain s) (ht : run_step kind s i = some t)
    (hpart : (s.pc i).part = .walk) :
    Inv kind link chain t := by
  have hok := h.threads i
  cases hq : s.pc i
  all_goals rw [hq] at hok hpart; cases hpart
  all_goals simp only [run_step, hq] at ht
  case head_lock op =>
    obtain ⟨hm, rfl⟩ := lock_eq_some ht
    exact h.lock_node hq ⟨rfl, rfl, rfl, rfl, rfl, rfl, rfl⟩ hm rfl rfl rfl
      (Or.inl rfl) h.mem.head_mem hok.plain (by simp [Pc.holds]) rfl rfl rfl rfl rfl rfl trivial
  case next op cur =>
    cases ht
    have hheld : cur ∈ (s.pc i).holds := by rw [hq]; exact List.mem_cons_self
    have hc := hok.mem_chain List.mem_cons_self (by rintro ⟨⟩)
    have hnext := h.next_eq hheld hc (by rw [hq]; rintro ⟨⟩)
    cases hn : s.next cur with
    | none =>
        exact h.goto hq ⟨rfl, rfl, rfl, rfl, rfl, rfl, rfl⟩ rfl rfl rfl hok.plain rfl rfl rfl rfl
          rfl rfl trivial
    | some nxt =>
        exact h.goto hq ⟨rfl, rfl, rfl, rfl, rfl, rfl, rfl⟩ rfl rfl rfl hok.plain rfl rfl rfl rfl
          rfl rfl (hnext.symm.trans hn)
  case next_lock op cur nxt =>
    obtain ⟨hm, rfl⟩ := lock_eq_some ht
    have hc := hok.mem_chain List.mem_cons_self (by rintro ⟨⟩)
    exact h.lock_node hq ⟨rfl, rfl, rfl, rfl, rfl, rfl, rfl⟩ hm rfl rfl rfl
      (Or.inr ⟨cur, List.mem_cons_self, hc, hok.knows⟩) (h.mem.path.next_mem hc hok.knows) hok.plain
      (by simp [Pc.holds, or_comm]) rfl rfl rfl rfl rfl rfl hok.knows
  case locked op cur nxt =>
    have hc := hok.mem_chain List.mem_cons_self (by rintro ⟨⟩)
    have hne := h.mem.next_ne hc hok.knows
    have h0 : nxt ≠ 0 := fun heq =>
      h.mem.path.next_ne_head h.mem.nodup hc (heq ▸ hok.knows : link cur = some 0)
    cases op with
    | for_each | find_first_if p =>
        cases ht
        exact h.unlock_node hq ⟨rfl, rfl, rfl, rfl, rfl, rfl, rfl⟩ rfl rfl rfl List.mem_cons_self
          hok.plain (mem_second_iff hne) rfl rfl rfl rfl rfl rfl h0
    | remove_if p | remove_first p | insert_if p v =>
        obtain ⟨v, -, rfl⟩ := Option.map_eq_some_iff.mp ht
        split
        · exact h.goto hq ⟨rfl, rfl, rfl, rfl, rfl, rfl, rfl⟩ rfl rfl rfl hok.plain rfl rfl rfl rfl
            rfl rfl hok.knows
        · exact h.goto hq ⟨rfl, rfl, rfl, rfl, rfl, rfl, rfl⟩ rfl rfl rfl hok.plain rfl rfl rfl rfl
            rfl rfl hok.knows
  case visit op nxt =>
    cases op with
    | for_each =>
        obtain ⟨v, -, rfl⟩ := Option.map_eq_some_iff.mp ht
        exact h.goto hq ⟨rfl, rfl, rfl, rfl, rfl, rfl, rfl⟩ rfl rfl rfl hok.plain rfl rfl rfl rfl
          rfl rfl trivial
    | find_first_if p =>
        obtain ⟨v, -, rfl⟩ := Option.map_eq_some_iff.mp ht
        split
        · exact h.goto hq ⟨rfl, rfl, rfl, rfl, rfl, rfl, rfl⟩ rfl rfl rfl hok.plain rfl rfl rfl rfl
            rfl rfl trivial
        · exact h.goto hq ⟨rfl, rfl, rfl, rfl, rfl, rfl, rfl⟩ rfl rfl rfl hok.plain rfl rfl rfl rfl
            rfl rfl trivial
    | remove_if p | remove_first p | insert_if p v => cases ht
  case pass op cur nxt =>
    cases ht
    have hc := hok.mem_chain List.mem_cons_self (by rintro ⟨⟩)
    have hne := h.mem.next_ne hc hok.knows
    exact h.unlock_node hq ⟨rfl, rfl, rfl, rfl, rfl, rfl, rfl⟩ rfl rfl rfl List.mem_cons_self
      (fun hk => Op.plain_of_removes (hok.plain hk)) (mem_second_iff hne) rfl rfl rfl rfl rfl rfl
      trivial
  case unlock op found cur =>
    cases ht
    exact h.unlock_node hq ⟨rfl, rfl, rfl, rfl, rfl, rfl, rfl⟩ rfl rfl rfl List.mem_cons_self
      (fun _ => rfl) (by simp [Pc.holds]) rfl rfl rfl rfl rfl rfl trivial

/-- A removal and an insertion behind `cur`, which the thread holds with the node behind it. -/
theorem Inv.change (h : Inv kind link chain s) (ht : run_step kind s i = some t)
    (hpart : (s.pc i).part = .change) :
    ∃ link' chain', Inv kind link' chain' t := by
  have hok := h.threads i
  cases hq : s.pc i
  all_goals rw [hq] at hok hpart; cases hpart
  all_goals simp only [run_step, hq] at ht
  case unlink op cur nxt =>
    cases ht
    have hc := hok.mem_chain List.mem_cons_self (by rintro ⟨⟩)
    refine ⟨link, chain, h.write_next hq ⟨rfl, rfl, rfl, rfl, rfl, rfl, rfl⟩ rfl rfl rfl ?_
      hok.plain rfl rfl rfl rfl rfl (by rintro a ⟨⟩) (by rintro a ⟨⟩; exact hc) rfl rfl hok.knows⟩
    intro a
    by_cases ha : a = cur
    · exact Or.inr (Or.inl (congrArg some ha.symm))
    · exact Or.inl (Function.update_of_ne ha ..)
  case relink op cur nxt =>
    cases ht
    exact h.remove hq rfl
  case removed_last op cur nxt =>
    cases ht
    have hcur : cur ∈ chain := hok.knows
    have hheld : cur ∈ (s.pc i).holds := by rw [hq]; exact List.mem_cons_self
    rw [h.next_eq hheld hcur (by rw [hq]; rintro ⟨⟩)]
    refine ⟨link, chain, ?_⟩
    by_cases hend : link cur = none
    · rw [if_pos hend]
      exact h.goto hq ⟨rfl, rfl, rfl, rfl, rfl, rfl, rfl⟩ rfl rfl rfl hok.plain rfl rfl rfl rfl rfl
        (by simp [Pc.target, hend]) hcur
    · rw [if_neg hend]
      exact h.goto hq ⟨rfl, rfl, rfl, rfl, rfl, rfl, rfl⟩ rfl rfl rfl
        (fun hk => absurd (hok.plain hk) (by rintro ⟨⟩)) rfl rfl rfl rfl
        rfl (by simp [Pc.target, hend]) hcur
  case unlock_next op cur nxt =>
    cases ht
    have hcur : cur ∈ chain := hok.knows
    have hne : cur ≠ nxt := fun heq => (hok.owned nxt rfl).1 (heq ▸ hcur)
    exact ⟨link, chain, h.unlock_node hq ⟨rfl, rfl, rfl, rfl, rfl, rfl, rfl⟩ rfl rfl rfl
      (List.mem_cons_of_mem _ List.mem_cons_self) hok.plain (mem_first_iff hne) rfl rfl rfl rfl rfl
      rfl hcur⟩
  case destroy op cur nxt =>
    cases ht
    refine ⟨link, chain, ?_⟩
    cases op with
    | for_each | find_first_if p =>
        exact h.destroy_node hq (fun _ => rfl) rfl rfl rfl rfl rfl trivial
    | remove_if p | remove_first p | insert_if p v =>
        exact h.destroy_node hq hok.plain rfl rfl rfl rfl rfl trivial
  case insert_new op v cur nxt =>
    cases ht
    exact ⟨link, chain, h.new_node hq hok.plain rfl rfl rfl rfl rfl rfl rfl hok.knows⟩
  case insert_old op n cur nxt =>
    cases ht
    have hc := hok.mem_chain List.mem_cons_self (by rintro ⟨⟩)
    refine ⟨link, chain, h.write_next hq ⟨rfl, rfl, rfl, rfl, rfl, rfl, rfl⟩ rfl rfl rfl ?_
      hok.plain rfl rfl rfl rfl rfl (by rintro a ⟨⟩) (by rintro a ⟨⟩; exact hc) rfl rfl hok.knows⟩
    intro a
    by_cases ha : a = cur
    · exact Or.inr (Or.inl (congrArg some ha.symm))
    · exact Or.inl (Function.update_of_ne ha ..)
  case insert_next op n cur nxt =>
    cases ht
    have hc := hok.mem_chain List.mem_cons_self (by rintro ⟨⟩)
    refine ⟨link, chain, h.write_next hq ⟨rfl, rfl, rfl, rfl, rfl, rfl, rfl⟩ rfl rfl rfl ?_
      hok.plain rfl rfl rfl rfl rfl (fun _ => id) (by rintro a ⟨⟩; exact hc) rfl rfl
      ⟨hok.knows, Function.update_self ..⟩⟩
    intro a
    by_cases ha : a = n
    · exact Or.inr (Or.inr (congrArg some ha.symm))
    · exact Or.inl (Function.update_of_ne ha ..)
  case insert_head op n cur nxt =>
    cases ht
    obtain ⟨hlink, hn⟩ := hok.knows
    obtain ⟨hnc, -⟩ := hok.owned n rfl
    have hc := hok.mem_chain List.mem_cons_self (by rintro ⟨⟩)
    have hne : n ≠ cur := fun heq => hnc (heq ▸ hc)
    refine h.insert (p := .insert_unlock op cur nxt) hq ⟨rfl, rfl, rfl, rfl, rfl, rfl, rfl⟩ rfl rfl
      rfl rfl rfl List.mem_cons_self ?_ (Function.update_self ..) ?_ hok.plain (by rintro ⟨⟩) rfl
      rfl
      rfl rfl rfl (fun a ha => (Option.some.inj ha).symm) rfl ?_
    · exact (Function.update_of_ne hne ..).trans (hn.trans hlink.symm)
    · exact fun a ha _ => Function.update_of_ne ha ..
    · intro link' chain' _ _ _ _
      exact ⟨h.mem.next_ne hc hlink, by rintro e ⟨⟩, fun _ hend => by rw [hlink] at hend; cases
        hend⟩
  case insert_unlock op cur nxt =>
    cases ht
    have hne : cur ≠ nxt := hok.knows
    exact ⟨link, chain, h.unlock_node hq ⟨rfl, rfl, rfl, rfl, rfl, rfl, rfl⟩ rfl rfl rfl
      (List.mem_cons_of_mem _ List.mem_cons_self) (fun hk => absurd (hok.plain hk) (by rintro ⟨⟩))
      (mem_first_iff hne) rfl rfl rfl rfl rfl rfl trivial⟩

/-- The writes of `last_node_ptr` under its mutex. -/
theorem Inv.write_last (h : Inv kind link chain s) (ht : run_step kind s i = some t)
    (hpart : (s.pc i).part = .last) : Inv kind link chain t := by
  have hok := h.threads i
  cases hq : s.pc i
  all_goals rw [hq] at hok hpart; cases hpart
  all_goals simp only [run_step, hq] at ht
  case last_lock k =>
    split at ht
    · next hlast =>
        cases ht
        refine h.move_last hq ⟨rfl, rfl, rfl, rfl, rfl, rfl, rfl⟩ rfl ?_ rfl ?_ ?_ ?_ ?_ ?_ ?_ ?_ ?_
        · intro j hj
          rw [hlast]
          simp [hj.symm]
        all_goals cases k
        all_goals first | exact hok.plain | rfl | exact iff_of_true rfl rfl | exact hok.knows
    · cases ht
  case last_set k =>
    cases k with
    | push n =>
        have hheld : 0 ∈ (s.pc i).holds := by rw [hq]; exact List.mem_cons_self
        have hlink : link 0 = some n := hok.knows
        have hnext := (h.next_eq hheld h.mem.head_mem (by rw [hq]; rintro ⟨⟩)).trans hlink
        rw [hnext] at ht
        cases ht
        exact h.set_last hq ⟨rfl, rfl, rfl, rfl, rfl, rfl, rfl⟩ rfl rfl rfl rfl rfl hok.plain rfl
          rfl rfl rfl rfl rfl trivial
    | remove op cur nxt =>
        cases ht
        exact h.set_last hq ⟨rfl, rfl, rfl, rfl, rfl, rfl, rfl⟩ rfl rfl rfl rfl rfl hok.plain rfl
          rfl rfl rfl rfl rfl hok.knows
  case last_unlock k =>
    cases ht
    refine h.move_last hq ⟨rfl, rfl, rfl, rfl, rfl, rfl, rfl⟩ rfl ?_ rfl
      (fun hk => absurd (hok.plain hk) (by rintro ⟨⟩)) ?_ ?_ ?_ ?_ ?_ ?_ ?_
    · intro j hj
      rw [hok.held_last.mpr rfl]
      simp [hj.symm]
    all_goals cases k
    all_goals first | rfl | exact iff_of_false (by rintro ⟨⟩) (by rintro ⟨⟩) | exact hok.knows

/-- **Every step keeps the invariant**, if the node that `push_back` has read is the last one when
it is locked. -/
theorem Inv.step (h : Inv kind link chain s) {e : Event ι T} (ht : step kind s e = some t)
    (hread : ∀ i n p, e = .run i → s.pc i = .back_lock n p → p = s.last_node_ptr) :
    ∃ link' chain', Inv kind link' chain' t := by
  cases e with
  | call i c =>
      simp only [LockedList.step] at ht
      split at ht
      · next hq =>
          obtain ⟨p, hp, rfl⟩ := Option.map_eq_some_iff.mp ht
          exact ⟨link, chain, h.call hq hp⟩
      · cases ht
  | run i =>
      simp only [LockedList.step] at ht
      split at ht
      · cases hpart : (s.pc i).part with
        | idle =>
            cases hq : s.pc i <;> rw [hq] at hpart <;> cases hpart
            simp only [run_step, hq, reduceCtorEq] at ht
        | front => exact h.push_front ht hpart
        | back => exact h.push_back ht (fun n p hq => hread i n p rfl hq) hpart
        | walk => exact ⟨link, chain, h.traverse ht hpart⟩
        | change => exact h.change ht hpart
        | last => exact ⟨link, chain, h.write_last ht hpart⟩
      · cases ht

end BoostNet.LockedList
