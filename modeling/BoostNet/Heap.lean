/-
A heap whose addresses are used again, and lists linked through it. Nothing here names a
component; addresses and what a cell holds are arbitrary types.

An address that has been freed may be given to a later allocation, so that a pointer says
an address and not which node it was loaded for. A `Ref` remembers that: `gen` numbers
the allocations of its address. `Valid h r` says that the node of `r` has not been freed,
whatever has become of the address since. Memory holds addresses, and two pointers are
compared by their addresses.

`Path next p l q` is a list in memory: the nodes `l`, from the pointer `p` along `next` to
the pointer `q`; a null-terminated list is one with `q = none`. `Linked` is a list that is
linked in both directions, from its first node to a node behind it.
-/
import Mathlib.Data.List.Basic
import Mathlib.Data.List.Nodup
import Mathlib.Data.List.Perm.Basic
import Mathlib.Logic.Function.Basic

set_option autoImplicit false

namespace BoostNet

variable {A β : Type*}

/-! ## Cells and references -/

structure Cell (β : Type*) where
  live : Bool
  gen : Nat
  val : β

structure Ref (A : Type*) where
  addr : A
  gen : Nat
  deriving DecidableEq

namespace Heap

/-- The pointer `a` as it is now. -/
def ref (h : A → Cell β) (a : A) : Ref A := ⟨a, (h a).gen⟩

/-- The node that `r` was loaded for is still there. -/
def Valid (h : A → Cell β) (r : Ref A) : Prop :=
  (h r.addr).live = true ∧ (h r.addr).gen = r.gen

@[simp] theorem ref_addr (h : A → Cell β) (a : A) : (ref h a).addr = a := rfl

@[simp] theorem map_addr_map_ref (h : A → Cell β) (o : Option A) :
    (o.map (ref h)).map Ref.addr = o := by
  cases o <;> rfl

theorem valid_ref {h : A → Cell β} {a : A} (ha : (h a).live = true) : Valid h (ref h a) :=
  ⟨ha, rfl⟩

/-- Validity is about the liveness and the generation of the address. -/
theorem Valid.congr {h h' : A → Cell β} {r : Ref A} (hr : Valid h r)
    (hlive : (h' r.addr).live = (h r.addr).live) (hgen : (h' r.addr).gen = (h r.addr).gen) :
    Valid h' r :=
  ⟨hlive.trans hr.1, hgen.trans hr.2⟩

/-- A cell that is as it was. -/
theorem Valid.of_eq {h h' : A → Cell β} {r : Ref A} (hr : Valid h r)
    (heq : h' r.addr = h r.addr) : Valid h' r :=
  hr.congr (congrArg Cell.live heq) (congrArg Cell.gen heq)

/-- There is one node at an address. -/
theorem Valid.eq_of_addr {h : A → Cell β} {r r' : Ref A} (hr : Valid h r) (hr' : Valid h r')
    (haddr : r.addr = r'.addr) : r = r' := by
  obtain ⟨a, g⟩ := r
  obtain ⟨a', g'⟩ := r'
  obtain rfl : a = a' := haddr
  exact congrArg (Ref.mk a) (hr.2.symm.trans hr'.2)

/-- What a thread that has `r` finds at its address is the node that it has. -/
theorem Valid.ref_eq {h : A → Cell β} {r : Ref A} (hr : Valid h r) : ref h r.addr = r :=
  (valid_ref hr.1).eq_of_addr hr rfl

variable [DecidableEq A]

def alloc (h : A → Cell β) (a : A) (v : β) : A → Cell β :=
  Function.update h a { live := true, gen := (h a).gen + 1, val := v }

def free (h : A → Cell β) (a : A) : A → Cell β :=
  Function.update h a { h a with live := false }

def store (h : A → Cell β) (a : A) (v : β) : A → Cell β :=
  Function.update h a { h a with val := v }

variable {h : A → Cell β} {a b : A} {v : β} {r : Ref A}

@[simp] theorem alloc_self : alloc h a v a = { live := true, gen := (h a).gen + 1, val := v } :=
  Function.update_self ..

@[simp] theorem alloc_of_ne (hb : b ≠ a) : alloc h a v b = h b := Function.update_of_ne hb ..

@[simp] theorem free_self : free h a a = { h a with live := false } := Function.update_self ..

@[simp] theorem free_of_ne (hb : b ≠ a) : free h a b = h b := Function.update_of_ne hb ..

@[simp] theorem store_self : store h a v a = { h a with val := v } := Function.update_self ..

@[simp] theorem store_of_ne (hb : b ≠ a) : store h a v b = h b := Function.update_of_ne hb ..

/-- What is freed stays readable. -/
theorem free_same (b : A) : (free h a b).val = (h b).val ∧ (free h a b).gen = (h b).gen := by
  by_cases hb : b = a
  · rw [hb, free_self]
    exact ⟨rfl, rfl⟩
  · rw [free_of_ne hb]
    exact ⟨rfl, rfl⟩

/-- The other nodes stay when one is deleted. -/
theorem Valid.free {r' : Ref A} (hr : Valid h r) (hr' : Valid h r') (hne : r' ≠ r) :
    Valid (free h r.addr) r' :=
  hr'.of_eq (free_of_ne fun haddr => hne (hr'.eq_of_addr hr haddr))

theorem not_valid_free (hr : r.addr = a) : ¬ Valid (Heap.free h a) r := by
  rintro ⟨hlive, -⟩
  rw [hr, free_self] at hlive
  cases hlive

/-! ## What was retired and deleted -/

omit [DecidableEq A] in
/-- The nodes that a structure has retired, and those among them that were deleted since. -/
structure Ledger (h : A → Cell β) (retired deleted : List (Ref A)) : Prop where
  gen : ∀ r ∈ retired, r.gen ≤ (h r.addr).gen
  once : retired.Nodup
  deleted_once : deleted.Nodup
  sub : deleted ⊆ retired
  gone : ∀ r ∈ deleted, ¬ Valid h r
  there : ∀ r ∈ retired, r ∉ deleted → Valid h r

variable {h' : A → Cell β} {retired deleted : List (Ref A)}

omit [DecidableEq A] in
theorem Ledger.nil : Ledger h [] [] where
  gen := by simp
  once := List.nodup_nil
  deleted_once := List.nodup_nil
  sub := List.Subset.refl _
  gone := by simp
  there := by simp

omit [DecidableEq A] in
/-- Writes change nothing. -/
theorem Ledger.congr (hl : Ledger h retired deleted) (hlive : ∀ a, (h' a).live = (h a).live)
    (hgen : ∀ a, (h' a).gen = (h a).gen) : Ledger h' retired deleted where
  gen r hr := Nat.le_trans (hl.gen r hr) (Nat.le_of_eq (hgen _).symm)
  once := hl.once
  deleted_once := hl.deleted_once
  sub := hl.sub
  gone r hr hvalid := hl.gone r hr (hvalid.congr (hlive _).symm (hgen _).symm)
  there r hr hd := (hl.there r hr hd).congr (hlive _) (hgen _)

/-- A new node is none of those that were retired, also if it is where one of them was. -/
theorem Ledger.new (hl : Ledger h retired deleted) : ref (alloc h a v) a ∉ retired := by
  intro hmem
  have hgen : (alloc h a v a).gen ≤ (h a).gen := hl.gen _ hmem
  rw [alloc_self] at hgen
  exact Nat.not_succ_le_self _ hgen

theorem Ledger.alloc (hl : Ledger h retired deleted) (ha : (h a).live = false) :
    Ledger (alloc h a v) retired deleted where
  gen := by
    intro r hr
    refine Nat.le_trans (hl.gen r hr) ?_
    by_cases hra : r.addr = a
    · rw [hra, alloc_self]
      exact Nat.le_succ _
    · exact Nat.le_of_eq (by rw [alloc_of_ne hra])
  once := hl.once
  deleted_once := hl.deleted_once
  sub := hl.sub
  gone := by
    rintro r hr hvalid
    by_cases hra : r.addr = a
    · have href := hvalid.ref_eq
      rw [hra] at href
      exact hl.new (href.symm ▸ hl.sub hr)
    · exact hl.gone r hr (hvalid.of_eq (alloc_of_ne hra).symm)
  there := by
    intro r hr hd
    have hvalid := hl.there r hr hd
    refine hvalid.of_eq (alloc_of_ne fun hra => ?_)
    rw [← hra, hvalid.1] at ha
    cases ha

omit [DecidableEq A] in
/-- A node is retired. -/
theorem Ledger.retire (hl : Ledger h retired deleted) (hr : Valid h r) (hnot : r ∉ retired) :
    Ledger h (r :: retired) deleted where
  gen := List.forall_mem_cons.mpr ⟨Nat.le_of_eq hr.2.symm, hl.gen⟩
  once := List.nodup_cons.mpr ⟨hnot, hl.once⟩
  deleted_once := hl.deleted_once
  sub _ hd := List.mem_cons_of_mem r (hl.sub hd)
  gone := hl.gone
  there := List.forall_mem_cons.mpr ⟨fun _ => hr, hl.there⟩

/-- A retired node is deleted. -/
theorem Ledger.free (hl : Ledger h retired deleted) (hr : Valid h r) (hmem : r ∈ retired) :
    Ledger (Heap.free h r.addr) retired (r :: deleted) where
  gen := by
    intro r' hr'
    refine Nat.le_trans (hl.gen r' hr') (Nat.le_of_eq ?_)
    by_cases haddr : r'.addr = r.addr
    · rw [haddr, free_self]
    · rw [free_of_ne haddr]
  once := hl.once
  deleted_once := List.nodup_cons.mpr ⟨fun hd => hl.gone r hd hr, hl.deleted_once⟩
  sub := List.cons_subset.mpr ⟨hmem, hl.sub⟩
  gone := by
    refine List.forall_mem_cons.mpr ⟨not_valid_free rfl, fun r' hr' hvalid => ?_⟩
    have hne : r'.addr ≠ r.addr := fun haddr => not_valid_free haddr hvalid
    exact hl.gone r' hr' (hvalid.of_eq (free_of_ne hne).symm)
  there := by
    intro r' hr' hd
    rw [List.mem_cons, not_or] at hd
    exact hr.free (hl.there r' hr' hd.2) hd.1

end Heap

/-! ## Linked lists -/

namespace Heap

/-- From `p` along `next` through the nodes `l` to `q`. -/
def Path (next : A → Option A) : Option A → List A → Option A → Prop
  | p, [], q => p = q
  | p, a :: l, q => p = some a ∧ Path next (next a) l q

variable {next next' : A → Option A} {p q : Option A} {l m : List A} {a : A}

@[simp] theorem path_nil : Path next p [] q ↔ p = q := Iff.rfl

@[simp] theorem path_cons : Path next p (a :: l) q ↔ p = some a ∧ Path next (next a) l q := Iff.rfl

theorem path_append : Path next p (l ++ m) q ↔ ∃ r, Path next p l r ∧ Path next r m q := by
  induction l generalizing p with
  | nil => simp
  | cons a l ih => simp [ih, and_assoc]

/-- A list and its last node. -/
theorem path_concat : Path next p (l ++ [a]) q ↔ Path next p l (some a) ∧ next a = q := by
  rw [path_append]
  constructor
  · rintro ⟨r, hl, rfl, hq⟩
    exact ⟨hl, hq⟩
  · rintro ⟨hl, hq⟩
    exact ⟨some a, hl, rfl, hq⟩

theorem Path.eq_nil (h : Path next none l q) : l = [] := by
  cases l with
  | nil => rfl
  | cons a l => exact absurd h.1 nofun

/-- A null-terminated list that begins at `a`. -/
theorem Path.eq_cons (h : Path next (some a) l none) :
    ∃ m, l = a :: m ∧ Path next (next a) m none := by
  cases l with
  | nil => exact absurd h nofun
  | cons b m =>
      obtain ⟨hb, hm⟩ := h
      obtain rfl := Option.some.inj hb
      exact ⟨m, rfl, hm⟩

/-- The nodes of a list with `b` behind `a`. -/
theorem perm_behind (l m : List A) (a b : A) : (l ++ a :: b :: m).Perm (b :: (l ++ a :: m)) := by
  refine (List.Perm.append_left l (List.Perm.swap b a m)).trans ?_
  exact List.perm_middle

/-- The nodes behind the first one, of two lists one of which has the node `b` besides. -/
theorem Path.tail_perm (h : Path next (some a) l none) (h' : Path next' (some a) m none) {b : A}
    (hperm : m.Perm (b :: l)) : m.tail.Perm (b :: l.tail) := by
  obtain ⟨l, rfl, -⟩ := h.eq_cons
  obtain ⟨m, rfl, -⟩ := h'.eq_cons
  exact (hperm.trans (List.Perm.swap a b l)).cons_inv

/-- There is one list to the end from a pointer. -/
theorem Path.unique (h : Path next p l none) (h' : Path next p m none) : l = m := by
  induction l generalizing p m with
  | nil =>
      obtain rfl : p = none := h
      exact h'.eq_nil.symm
  | cons a l ih =>
      obtain ⟨rfl, hl⟩ := h
      obtain ⟨m, rfl, hm⟩ := h'.eq_cons
      rw [ih hl hm]

/-- The first node of a list that does not end where it begins. -/
theorem Path.head_mem (h : Path next (some a) l none) : a ∈ l := by
  obtain ⟨m, rfl, -⟩ := h.eq_cons
  exact List.mem_cons_self

theorem Path.head_mem_concat {b : A} (h : Path next (some a) l (some b)) : a ∈ l ++ [b] := by
  cases l with
  | nil => simp [Option.some.inj h]
  | cons c l => simp [Option.some.inj h.1]

/-- A list is where it was if its nodes are not written. -/
theorem Path.congr (h : Path next p l q) (hnext : ∀ a ∈ l, next' a = next a) :
    Path next' p l q := by
  induction l generalizing p with
  | nil => exact h
  | cons a l ih =>
      rw [path_cons, hnext a List.mem_cons_self]
      exact ⟨h.1, ih h.2 (fun b hb => hnext b (List.mem_cons_of_mem a hb))⟩

/-- What a null-terminated list goes on with behind one of its nodes. -/
theorem Path.split (h : Path next p l none) (ha : a ∈ l) :
    ∃ pre post, l = pre ++ a :: post ∧ Path next (next a) post none := by
  obtain ⟨pre, post, rfl⟩ := List.append_of_mem ha
  obtain ⟨r, -, hr⟩ := path_append.mp h
  exact ⟨pre, post, rfl, hr.2⟩

/-- The node behind a node of the list. -/
theorem Path.split_next {b : A} (h : Path next p l none) (ha : a ∈ l) (hb : next a = some b) :
    ∃ pre post, l = pre ++ a :: b :: post := by
  obtain ⟨pre, post, rfl, hpost⟩ := h.split ha
  rw [hb] at hpost
  obtain ⟨post, rfl, -⟩ := hpost.eq_cons
  exact ⟨pre, post, rfl⟩

theorem Path.next_mem {b : A} (h : Path next p l none) (ha : a ∈ l) (hb : next a = some b) :
    b ∈ l := by
  obtain ⟨pre, post, rfl⟩ := h.split_next ha hb
  simp

/-- The first node is behind no other. -/
theorem Path.next_ne_head {b : A} (h : Path next (some a) l none) (hnd : l.Nodup) (hb : b ∈ l) :
    next b ≠ some a := by
  intro hnext
  obtain ⟨pre, post, rfl⟩ := h.split_next hb hnext
  obtain ⟨m, hm, -⟩ := h.eq_cons
  cases pre with
  | nil =>
      obtain rfl := (List.cons.inj hm).1
      exact absurd hnd (by simp)
  | cons c pre =>
      obtain rfl := (List.cons.inj hm).1
      exact absurd hnd (by simp)

/-- A node is behind one node only. -/
theorem Path.next_inj {b c : A} (h : Path next p l none) (hnd : l.Nodup) (ha : a ∈ l) (hb : b ∈ l)
    (hac : next a = some c) (hbc : next b = some c) : a = b := by
  induction l generalizing p with
  | nil => exact absurd ha List.not_mem_nil
  | cons x l ih =>
      obtain ⟨hx, hl⟩ := h
      have hnd' := (List.nodup_cons.mp hnd).2
      rcases List.mem_cons.mp ha with rfl | ha'
      · rcases List.mem_cons.mp hb with rfl | hb'
        · rfl
        · rw [hac] at hl
          exact absurd hbc (hl.next_ne_head hnd' hb')
      · rcases List.mem_cons.mp hb with rfl | hb'
        · rw [hbc] at hl
          exact absurd hac (hl.next_ne_head hnd' ha')
        · exact ih hl hnd' ha' hb'

/-- A null-terminated list has one last node. -/
theorem Path.last_unique {b : A} (h : Path next p l none) (ha : a ∈ l) (hb : b ∈ l)
    (hna : next a = none) (hnb : next b = none) : a = b := by
  obtain ⟨pre, post, rfl, hpost⟩ := h.split ha
  obtain ⟨pre', post', heq, hpost'⟩ := h.split hb
  rw [hna] at hpost
  rw [hnb] at hpost'
  rw [hpost.eq_nil, hpost'.eq_nil] at heq
  exact List.singleton_inj.mp (List.append_inj' heq rfl).2

theorem Path.exists_last (h : Path next p l none) (hl : l ≠ []) : ∃ a ∈ l, next a = none := by
  rcases List.eq_nil_or_concat l with rfl | ⟨m, a, rfl⟩
  · exact absurd rfl hl
  · rw [List.concat_eq_append] at h ⊢
    exact ⟨a, by simp, (path_concat.mp h).2⟩

/-- A node `b` is put behind the node `a`. -/
theorem Path.insert_after {b : A} {pre post : List A} (h : Path next p (pre ++ a :: post) q)
    (hnd : (pre ++ a :: post).Nodup) (hb : b ∉ pre ++ a :: post) (ha : next' a = some b)
    (hb' : next' b = next a) (hrest : ∀ c, c ≠ a → c ≠ b → next' c = next c) :
    Path next' p (pre ++ a :: b :: post) q := by
  obtain ⟨r, hpre, rfl, hpost⟩ := path_append.mp h
  simp only [List.nodup_append, List.nodup_cons, List.mem_cons] at hnd
  simp only [List.mem_append, List.mem_cons, not_or] at hb
  refine path_append.mpr ⟨some a, hpre.congr fun c hc => hrest c ?_ ?_, rfl, ha, ?_⟩
  · exact fun heq => hnd.2.2 c hc a (Or.inl rfl) heq
  · exact fun heq => hb.1 (heq ▸ hc)
  · rw [hb']
    refine hpost.congr fun c hc => hrest c ?_ ?_
    · exact fun heq => hnd.2.1.1 (heq ▸ hc)
    · exact fun heq => hb.2.2 (heq ▸ hc)

/-- The node `b` behind the node `a` is taken out. -/
theorem Path.remove_after {b : A} {pre post : List A}
    (h : Path next p (pre ++ a :: b :: post) q) (hnd : (pre ++ a :: b :: post).Nodup)
    (ha : next' a = next b) (hrest : ∀ c, c ≠ a → c ≠ b → next' c = next c) :
    Path next' p (pre ++ a :: post) q := by
  obtain ⟨r, hpre, rfl, -, hpost⟩ := path_append.mp h
  simp only [List.nodup_append, List.nodup_cons, List.mem_cons] at hnd
  refine path_append.mpr ⟨some a, hpre.congr fun c hc => hrest c ?_ ?_, rfl, ?_⟩
  · exact fun heq => hnd.2.2 c hc a (Or.inl rfl) heq
  · exact fun heq => hnd.2.2 c hc b (Or.inr (Or.inl rfl)) heq
  · rw [ha]
    refine hpost.congr fun c hc => hrest c ?_ ?_
    · exact fun heq => hnd.2.1.1 (heq ▸ Or.inr hc)
    · exact fun heq => hnd.2.1.2.1 (heq ▸ hc)

/-! ## Lists linked in both directions -/

/-- From the node `a` along `next` through the nodes `l` to the node `b`, with `prev` the way
back. -/
def Linked (next prev : A → Option A) : A → List A → A → Prop
  | a, [], b => a = b
  | a, x :: l, b => a = x ∧ ∃ c, next x = some c ∧ prev c = some x ∧ Linked next prev c l b

variable {prev prev' : A → Option A} {b x : A}

@[simp] theorem linked_nil : Linked next prev a [] b ↔ a = b := Iff.rfl

@[simp] theorem linked_cons : Linked next prev a (x :: l) b ↔
    a = x ∧ ∃ c, next x = some c ∧ prev c = some x ∧ Linked next prev c l b := Iff.rfl

/-- A list and its last node before the end. -/
theorem linked_concat : Linked next prev a (l ++ [x]) b ↔
    Linked next prev a l x ∧ next x = some b ∧ prev b = some x := by
  induction l generalizing a with
  | nil =>
      constructor
      · rintro ⟨ha, c, hnext, hprev, rfl⟩
        exact ⟨ha, hnext, hprev⟩
      · rintro ⟨ha, hnext, hprev⟩
        exact ⟨ha, b, hnext, hprev, rfl⟩
  | cons y l ih =>
      constructor
      · rintro ⟨ha, c, hnext, hprev, hrest⟩
        obtain ⟨hlinked, hlast⟩ := ih.mp hrest
        exact ⟨⟨ha, c, hnext, hprev, hlinked⟩, hlast⟩
      · rintro ⟨⟨ha, c, hnext, hprev, hlinked⟩, hlast⟩
        exact ⟨ha, c, hnext, hprev, ih.mpr ⟨hlinked, hlast⟩⟩

/-- The list is where it was if its links are not written. -/
theorem Linked.congr (h : Linked next prev a l b) (hnext : ∀ c ∈ l, next' c = next c)
    (hprev : ∀ c ∈ l ++ [b], prev' c = prev c) : Linked next' prev' a l b := by
  induction l generalizing a with
  | nil => exact h
  | cons x l ih =>
      obtain ⟨ha, c, hc, hcx, hrest⟩ := h
      refine ⟨ha, c, (hnext x List.mem_cons_self).trans hc, ?_, ?_⟩
      · rw [hprev c, hcx]
        refine List.mem_cons_of_mem x ?_
        cases l with
        | nil =>
            rw [linked_nil] at hrest
            exact hrest ▸ List.mem_cons_self
        | cons y l =>
            rw [linked_cons] at hrest
            exact hrest.1 ▸ List.mem_cons_self
      · exact ih hrest (fun d hd => hnext d (List.mem_cons_of_mem x hd))
          fun d hd => hprev d (List.mem_cons_of_mem x hd)

end Heap

end BoostNet
