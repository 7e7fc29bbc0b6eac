/-
The invariant of the lists with a mutex in every node.

`link` is where `next` of each node of the list leads, and `chain` the nodes of the list, the
head first. A node's `next` differs from its `link` only while a thread that holds the node is
between two writes to it. The links of a node change only by the thread that holds it, so a
thread that holds a node knows what is behind it (`Knows`). A node that is not in the list any
more, or not yet, belongs to one thread (`owns`).

A thread that has changed which node is the last has yet to write `last_node_ptr`; until then
it holds the node that `last_node_ptr` points to (`target`).
-/
import BoostNet.Heap
import BoostNet.LockedList
import BoostNet.Threads

set_option autoImplicit false

namespace BoostNet.LockedList

open Heap

variable {ι T : Type*}

/-! ## What a thread holds -/

/-- The nodes whose mutex a thread holds. -/
def Pc.holds : Pc T → List Nat
  | .front_next _ | .front_head _ | .front_last _ | .front_unlock => [0]
  | .back_adopt _ p | .back_next _ p _ | .back_last _ p _ => [p]
  | .back_unlock_last p _ | .back_unlock p _ => [p]
  | .next _ cur | .next_lock _ cur _ => [cur]
  | .locked _ cur nxt | .pass _ cur nxt => [cur, nxt]
  | .visit _ nxt => [nxt]
  | .unlink _ cur nxt | .relink _ cur nxt | .removed_last _ cur nxt => [cur, nxt]
  | .unlock_next _ cur nxt => [cur, nxt]
  | .destroy _ cur _ => [cur]
  | .insert_new _ _ cur nxt | .insert_old _ _ cur nxt | .insert_next _ _ cur nxt => [cur, nxt]
  | .insert_head _ _ cur nxt | .insert_unlock _ cur nxt => [cur, nxt]
  | .last_lock (.push _) | .last_set (.push _) | .last_unlock (.push _) => [0]
  | .last_lock (.remove _ cur nxt) | .last_set (.remove _ cur nxt) => [cur, nxt]
  | .last_unlock (.remove _ cur nxt) => [cur, nxt]
  | .unlock _ _ cur => [cur]
  | _ => []

/-- A thread holds `last_ptr_mtx`. -/
def Pc.holds_last : Pc T → Bool
  | .back_adopt _ _ | .back_next _ _ _ | .back_last _ _ _ | .back_unlock_last _ _ => true
  | .last_set _ | .last_unlock _ => true
  | _ => false

/-- The new node of a thread, before it is put into the list. -/
def Pc.fresh : Pc T → Option Nat
  | .front_lock n | .front_next n | .front_head n => some n
  | .back_read n | .back_lock n _ | .back_adopt n _ | .back_next n _ _ => some n
  | .insert_old _ n _ _ | .insert_next _ n _ _ | .insert_head _ n _ _ => some n
  | _ => none

/-- The node a thread has taken out of the list. -/
def Pc.old : Pc T → Option Nat
  | .removed_last _ _ nxt | .unlock_next _ _ nxt | .destroy _ _ nxt => some nxt
  | .last_lock (.remove _ _ nxt) | .last_set (.remove _ _ nxt) => some nxt
  | .last_unlock (.remove _ _ nxt) => some nxt
  | _ => none

/-- The node outside the list that belongs to a thread. -/
def Pc.owns (p : Pc T) : Option Nat := p.fresh.or p.old

/-- The node whose `next` a thread has emptied and is to write again. -/
def Pc.mid : Pc T → Option Nat
  | .front_head _ => some 0
  | .relink _ cur _ | .insert_next _ _ cur _ | .insert_head _ _ cur _ => some cur
  | _ => none

/-- The last node of the list, which a thread is to write to `last_node_ptr`. -/
def Pc.target (link : Nat → Option Nat) : Pc T → Option Nat
  | .front_last n => if link n = none then some n else none
  | .removed_last _ cur _ => if link cur = none then some cur else none
  | .last_lock (.push n) | .last_set (.push n) => some n
  | .last_lock (.remove _ cur _) | .last_set (.remove _ cur _) => some cur
  | .back_last n _ _ => some n
  | _ => none

/-- What a thread knows of the list. -/
def Pc.Knows (link : Nat → Option Nat) (chain : List Nat) (s : LockedList ι T) : Pc T → Prop
  | .front_head n => s.next n = link 0
  | .front_last n => link 0 = some n ∧ s.m n = none
  | .last_lock (.push n) | .last_set (.push n) => link 0 = some n
  | .removed_last _ cur _ | .unlock_next _ cur _ | .destroy _ cur _ => cur ∈ chain
  | .last_lock (.remove _ cur _) | .last_set (.remove _ cur _) => cur ∈ chain
  | .last_unlock (.remove _ cur _) => cur ∈ chain
  | .back_read n | .back_lock n _ => s.next n = none
  | .back_adopt n p => s.next n = none ∧ p ∈ chain ∧ link p = none ∧ s.last_node_ptr = p
  | .back_next n p q =>
      s.next n = none ∧ p ∈ chain ∧ link p = none ∧ s.last_node_ptr = p ∧ q = p
  | .back_last n p q => link p = some n ∧ q = p
  | .back_unlock_last p q | .back_unlock p q => q = p
  | .next_lock _ cur nxt | .locked _ cur nxt | .pass _ cur nxt => link cur = some nxt
  | .unlink _ cur nxt | .relink _ cur nxt => link cur = some nxt
  | .insert_new _ _ cur nxt | .insert_old _ _ cur nxt => link cur = some nxt
  | .insert_next _ _ cur nxt => link cur = some nxt
  | .insert_head _ n cur nxt => link cur = some nxt ∧ s.next n = some nxt
  | .insert_unlock _ cur nxt => cur ≠ nxt
  | .visit _ nxt => nxt ≠ 0
  | _ => True

/-- The traversals that `threadsafe_list` has. -/
def Op.plain : Op T → Bool
  | .for_each | .find_first_if _ | .remove_if _ => true
  | _ => false

def Op.reads : Op T → Bool
  | .for_each | .find_first_if _ => true
  | _ => false

def Op.removes : Op T → Bool
  | .remove_if _ => true
  | _ => false

/-- Where a thread of a `threadsafe_list` can be. -/
def Pc.plain : Pc T → Bool
  | .idle | .new_front _ | .front_lock _ | .front_next _ | .front_head _ | .front_unlock => true
  | .head_lock op | .next op _ | .next_lock op _ _ | .locked op _ _ | .unlock op _ _ => op.plain
  | .visit op _ => op.reads
  | .pass op _ _ | .unlink op _ _ | .relink op _ _ | .unlock_next op _ _ => op.removes
  | .destroy op _ _ => op.removes
  | _ => false

theorem Op.plain_of_removes {op : Op T} (h : op.removes = true) : op.plain = true := by
  cases op <;> cases h
  rfl

/-! ## The invariant -/

/-- The nodes of the list. -/
structure Mem (kind : Kind) (link : Nat → Option Nat) (chain : List Nat) (s : LockedList ι T) :
    Prop where
  path : Path link (some 0) chain none
  nodup : chain.Nodup
  live : ∀ a ∈ chain, s.live a = true
  data : ∀ a ∈ chain, a ≠ 0 → (s.data a).isSome = true
  count : ∀ a, s.live a = true → a < s.count
  pushed : ∀ a ∈ s.pushed, a < s.count
  count_pos : 0 < s.count
  hist : s.pushed.Perm (s.removed ++ chain.tail)
  order : kind = .threadsafe_list → chain = 0 :: s.present

/-- What the thread `i`, where it is, holds and knows. -/
structure ThreadOk (kind : Kind) (link : Nat → Option Nat) (chain : List Nat)
    (s : LockedList ι T) (i : ι) (p : Pc T) : Prop where
  plain : kind = .threadsafe_list → p.plain = true
  held : ∀ a, s.m a = some i ↔ a ∈ p.holds
  held_last : s.last_ptr_mtx = some i ↔ p.holds_last = true
  walked : ∀ a ∈ p.holds, a ∈ chain ∨ p.old = some a
  owned : ∀ n, p.owns = some n →
    n ∉ chain ∧ s.live n = true ∧ n ≠ 0 ∧ (s.data n).isSome = true
  fresh : ∀ n, p.fresh = some n → n ∉ s.pushed
  knows : p.Knows link chain s
  target : ∀ e, p.target link = some e → s.last_node_ptr ∈ p.holds ∧ e ∈ chain ∧ link e = none ∧
    (e ∈ p.holds ∨ s.m e = none ∧ ∃ a ∈ p.holds, a ∈ chain ∧ link a = some e)

/-- The state with the ghost `link` and `chain`. -/
structure Inv (kind : Kind) (link : Nat → Option Nat) (chain : List Nat) (s : LockedList ι T) :
    Prop where
  mem : Mem kind link chain s
  threads : ∀ i, ThreadOk kind link chain s i (s.pc i)
  unique : Unique Pc.owns s.pc
  follows : ∀ a ∈ chain, s.next a = link a ∨ ∃ i, (s.pc i).mid = some a
  last : kind = .double_push_list → ∀ e ∈ chain, link e = none →
    s.last_node_ptr = e ∨ ∃ i, (s.pc i).target link = some e

variable {kind : Kind} {link link' : Nat → Option Nat} {chain chain' : List Nat}
  {s t : LockedList ι T} {i j : ι} {p : Pc T} {a b n : Nat}

theorem Pc.mem_holds_of_mid (h : p.mid = some a) : a ∈ p.holds := by
  cases p <;> cases h <;> simp [Pc.holds]

theorem Pc.owns_of_fresh (h : p.fresh = some n) : p.owns = some n := by
  rw [Pc.owns, h]
  rfl

theorem Pc.owns_of_old (h : p.old = some n) : p.owns = some n := by
  cases p with
  | last_lock k | last_set k | last_unlock k =>
      cases k with
      | push n => cases h
      | remove op cur nxt => exact h
  | _ => first | exact h | cases h

theorem Mem.head_mem (h : Mem kind link chain s) : 0 ∈ chain := h.path.head_mem

/-- The list begins with the head. -/
theorem Mem.eq_cons (h : Mem kind link chain s) : ∃ rest, chain = 0 :: rest := by
  obtain ⟨rest, hrest, -⟩ := h.path.eq_cons
  exact ⟨rest, hrest⟩

/-- No node is held by two threads. -/
theorem Inv.holder (h : Inv kind link chain s) (hi : a ∈ (s.pc i).holds)
    (hj : a ∈ (s.pc j).holds) : i = j :=
  Option.some.inj ((((h.threads i).held a).mpr hi).symm.trans (((h.threads j).held a).mpr hj))

/-- The thread that holds a node finds behind it what `link` says, unless it has emptied it. -/
theorem Inv.next_eq (h : Inv kind link chain s) (ha : a ∈ (s.pc i).holds) (hc : a ∈ chain)
    (hmid : (s.pc i).mid ≠ some a) : s.next a = link a := by
  rcases h.follows a hc with heq | ⟨j, hj⟩
  · exact heq
  · obtain rfl := h.holder ha (Pc.mem_holds_of_mid hj)
    exact absurd hj hmid

/-- The fields of a node that nobody holds are as `link` says. -/
theorem Inv.next_eq_of_free (h : Inv kind link chain s) (ha : s.m a = none) (hc : a ∈ chain) :
    s.next a = link a := by
  rcases h.follows a hc with heq | ⟨j, hj⟩
  · exact heq
  · have hm := ((h.threads j).held a).mpr (Pc.mem_holds_of_mid hj)
    rw [ha] at hm
    cases hm

/-- A thread that walks along the list holds nodes of it. -/
theorem ThreadOk.mem_chain (h : ThreadOk kind link chain s i p) (ha : a ∈ p.holds)
    (hold : p.old ≠ some a) : a ∈ chain :=
  (h.walked a ha).resolve_right hold

/-- What is held is there. -/
theorem Inv.live_of_held (h : Inv kind link chain s) (ha : a ∈ (s.pc i).holds) :
    s.live a = true := by
  rcases (h.threads i).walked a ha with hc | hold
  · exact h.mem.live a hc
  · exact ((h.threads i).owned a (Pc.owns_of_old hold)).2.1

/-- The number of the next node is not in use. -/
theorem Inv.not_live_count (h : Inv kind link chain s) : s.live s.count ≠ true :=
  fun hlive => Nat.lt_irrefl _ (h.mem.count _ hlive)

theorem inv_init : Inv kind (fun _ => none) [0] (init : LockedList ι T) where
  mem :=
    { path := ⟨rfl, rfl⟩
      nodup := List.nodup_singleton 0
      live := by simp [init]
      data := by simp
      count := by simp [init]
      pushed := by simp [init]
      count_pos := Nat.one_pos
      hist := List.Perm.refl _
      order := fun _ => rfl }
  threads := fun _ =>
    { plain := fun _ => rfl
      held := by simp [init, Pc.holds]
      held_last := by simp [init, Pc.holds_last]
      walked := by simp [init, Pc.holds]
      owned := by rintro n ⟨⟩
      fresh := by rintro n ⟨⟩
      knows := trivial
      target := by rintro e ⟨⟩ }
  unique := by rintro _ _ _ ⟨⟩
  follows := by simp [init]
  last := by simp [init]

/-! ## What a step leaves to the other threads -/

/-- From `s` to `t` the thread `i` has written only what it holds or owns. -/
structure Frame (link link' : Nat → Option Nat) (chain chain' : List Nat) (s t : LockedList ι T)
    (i : ι) : Prop where
  m : ∀ a j, j ≠ i → (t.m a = some j ↔ s.m a = some j)
  last_mtx : ∀ j, j ≠ i → (t.last_ptr_mtx = some j ↔ s.last_ptr_mtx = some j)
  taken : ∀ a, s.m a = none → t.m a = none ∨ a = 0 ∨ (a = s.last_node_ptr ∧ link a = none) ∨
    ∃ c ∈ (s.pc i).holds, c ∈ chain ∧ link c = some a
  link : ∀ a ∈ chain, link' a = link a ∨ a ∈ (s.pc i).holds
  kept : ∀ a ∈ chain, a ∈ chain' ∨ a ∈ (s.pc i).holds
  added : ∀ a ∈ chain', a ∈ chain ∨ (s.pc i).owns = some a
  owned : ∀ a, s.live a = true → a ∉ chain → (s.pc i).owns ≠ some a →
    t.live a = true ∧ t.next a = s.next a ∧ t.data a = s.data a
  ptr : t.last_node_ptr = s.last_node_ptr ∨ s.last_node_ptr ∈ (s.pc i).holds
  pushed : ∀ a ∈ t.pushed, a ∈ s.pushed ∨ (s.pc i).owns = some a

/-- What a thread knows is about the nodes it holds and its new node. -/
theorem Pc.Knows.congr (h : p.Knows link chain s)
    (hwalked : ∀ a ∈ p.holds, a ∈ chain ∨ p.old = some a)
    (hlink : ∀ a ∈ p.holds, a ∈ chain → link' a = link a)
    (hkept : ∀ a ∈ p.holds, a ∈ chain → a ∈ chain')
    (hnext : ∀ n, p.fresh = some n → t.next n = s.next n)
    (hptr : s.last_node_ptr ∈ p.holds → t.last_node_ptr = s.last_node_ptr)
    (hfree : ∀ n, (p.target link).isSome = (link n).isNone → 0 ∈ p.holds → link 0 = some n →
      s.m n = none → t.m n = none) :
    p.Knows link' chain' t := by
  have hstay : ∀ {a b}, a ∈ p.holds → p.old ≠ some a → link a = some b → link' a = some b :=
    fun ha hold hab => (hlink _ ha ((hwalked _ ha).resolve_right hold)).trans hab
  have hend : ∀ {a}, a ∈ p.holds → p.old ≠ some a → link a = none → link' a = none :=
    fun ha hold hab => (hlink _ ha ((hwalked _ ha).resolve_right hold)).trans hab
  cases p with
  | front_head n =>
      have h0 : 0 ∈ (Pc.front_head n : Pc T).holds := List.mem_cons_self
      have hc := (hwalked 0 h0).resolve_right (by rintro ⟨⟩)
      exact (hnext n rfl).trans (Eq.trans h (hlink 0 h0 hc).symm)
  | front_last n =>
      obtain ⟨h0n, hm⟩ := h
      refine ⟨hstay List.mem_cons_self (by rintro ⟨⟩) h0n, hfree n ?_ List.mem_cons_self h0n hm⟩
      cases hn : link n with
      | none => simp [Pc.target, hn]
      | some b => simp [Pc.target, hn]
  | back_read n | back_lock n p => exact (hnext n rfl).trans h
  | back_adopt n p =>
      obtain ⟨hn, hp, hlast, rfl⟩ := h
      have hmem := List.mem_singleton_self s.last_node_ptr
      exact ⟨(hnext n rfl).trans hn, hkept _ hmem hp, hend hmem (by rintro ⟨⟩) hlast, hptr hmem⟩
  | back_next n p q =>
      obtain ⟨hn, hp, hlast, rfl, rfl⟩ := h
      have hmem := List.mem_singleton_self s.last_node_ptr
      exact ⟨(hnext n rfl).trans hn, hkept _ hmem hp, hend hmem (by rintro ⟨⟩) hlast, hptr hmem,
        rfl⟩
  | back_last n p q => exact ⟨hstay List.mem_cons_self (by rintro ⟨⟩) h.1, h.2⟩
  | next_lock op cur nxt | locked op cur nxt | pass op cur nxt | unlink op cur nxt
  | relink op cur nxt | insert_new op v cur nxt | insert_old op n cur nxt
  | insert_next op n cur nxt =>
      exact hstay List.mem_cons_self (by rintro ⟨⟩) h
  | insert_head op n cur nxt =>
      exact ⟨hstay List.mem_cons_self (by rintro ⟨⟩) h.1, (hnext n rfl).trans h.2⟩
  | removed_last op cur nxt | unlock_next op cur nxt | destroy op cur nxt =>
      exact hkept cur List.mem_cons_self h
  | last_lock k | last_set k =>
      cases k with
      | push n => exact hstay List.mem_cons_self (by rintro ⟨⟩) h
      | remove op cur nxt => exact hkept cur List.mem_cons_self h
  | last_unlock k =>
      cases k with
      | push n => trivial
      | remove op cur nxt => exact hkept cur List.mem_cons_self h
  | _ => exact h

/-- The node a thread is to write to `last_node_ptr` depends on the links it knows. -/
theorem Pc.target_congr (hnew : ∀ n, p = .front_last n → link' n = link n)
    (hlink : ∀ a ∈ p.holds, a ∈ chain → link' a = link a) (hk : p.Knows link chain s) :
    p.target link' = p.target link := by
  cases p with
  | front_last n => simp only [Pc.target, hnew n rfl]
  | removed_last op cur nxt => simp only [Pc.target, hlink cur List.mem_cons_self hk]
  | last_lock k | last_set k => cases k <;> rfl
  | _ => rfl

/-- A free node is not written. -/
theorem Inv.not_held_of_free (h : Inv kind link chain s) (hm : s.m a = none) :
    a ∉ (s.pc i).holds := by
  intro hi
  rw [((h.threads i).held a).mpr hi] at hm
  cases hm

/-- The links of what another thread holds stay. -/
theorem Frame.link_held (h : Inv kind link chain s) (hf : Frame link link' chain chain' s t i)
    (hj : j ≠ i) (ha : a ∈ (s.pc j).holds) (hc : a ∈ chain) : link' a = link a :=
  (hf.link a hc).resolve_right fun hi => hj (h.holder ha hi)

/-- What another thread is to write to `last_node_ptr` stays. -/
theorem Frame.target_eq (h : Inv kind link chain s) (hf : Frame link link' chain chain' s t i)
    (hj : j ≠ i) : (s.pc j).target link' = (s.pc j).target link := by
  have hk := (h.threads j).knows
  refine Pc.target_congr (fun n hp => ?_) (fun a => hf.link_held h hj) hk
  rw [hp] at hk
  exact (hf.link n (h.mem.path.next_mem h.mem.head_mem hk.1)).resolve_right
    (h.not_held_of_free hk.2)

/-- A thread that the step is not about knows what it knew. -/
theorem ThreadOk.of_frame (h : Inv kind link chain s)
    (hf : Frame link link' chain chain' s t i) (hj : j ≠ i) :
    ThreadOk kind link' chain' t j (s.pc j) := by
  have hok := h.threads j
  -- what `j` holds the thread `i` does not
  have hother : ∀ {a}, a ∈ (s.pc j).holds → a ∉ (s.pc i).holds :=
    fun ha hi => hj (h.holder ha hi)
  have hlink : ∀ {a}, a ∈ (s.pc j).holds → a ∈ chain → link' a = link a :=
    fun ha hc => hf.link_held h hj ha hc
  have hkept : ∀ {a}, a ∈ (s.pc j).holds → a ∈ chain → a ∈ chain' :=
    fun ha hc => (hf.kept _ hc).resolve_right (hother ha)
  have hown : ∀ {n}, (s.pc j).owns = some n → (s.pc i).owns ≠ some n :=
    fun hn hi => hj (h.unique j i _ hn hi)
  have hfield : ∀ {n}, (s.pc j).owns = some n →
      t.live n = true ∧ t.next n = s.next n ∧ t.data n = s.data n :=
    fun hn => hf.owned _ (hok.owned _ hn).2.1 (hok.owned _ hn).1 (hown hn)
  have hptr : s.last_node_ptr ∈ (s.pc j).holds → t.last_node_ptr = s.last_node_ptr :=
    fun ha => hf.ptr.resolve_right (hother ha)
  -- a free node behind one that `j` holds is not locked
  have hfree : ∀ {a e}, a ∈ (s.pc j).holds → a ∈ chain → link a = some e → s.m e = none →
      (link e = none → s.last_node_ptr ∈ (s.pc j).holds) → t.m e = none := by
    intro a e ha hc hae hm hlast
    rcases hf.taken e hm with hm | rfl | ⟨rfl, hend⟩ | ⟨c, hc', hcc, hce⟩
    · exact hm
    · exact absurd hae (h.mem.path.next_ne_head h.mem.nodup hc)
    · rw [(hok.held _).mpr (hlast hend)] at hm
      cases hm
    · obtain rfl := h.mem.path.next_inj h.mem.nodup hc hcc hae hce
      exact absurd hc' (hother ha)
  refine { plain := hok.plain, held := ?_, held_last := ?_, walked := ?_, owned := ?_,
           fresh := ?_, knows := ?_, target := ?_ }
  · exact fun a => (hf.m a j hj).trans (hok.held a)
  · exact (hf.last_mtx j hj).trans hok.held_last
  · intro a ha
    rcases hok.walked a ha with hc | hc
    · exact Or.inl (hkept ha hc)
    · exact Or.inr hc
  · intro n hn
    obtain ⟨hc, -, h0, hdata⟩ := hok.owned n hn
    obtain ⟨hlive, -, hdata'⟩ := hfield hn
    refine ⟨fun hc' => ?_, hlive, h0, by rw [hdata']; exact hdata⟩
    exact (hf.added n hc').elim hc (hown hn)
  · intro n hn hpushed
    exact (hf.pushed n hpushed).elim (hok.fresh n hn) (hown (Pc.owns_of_fresh hn))
  · refine hok.knows.congr hok.walked (fun a => hlink) (fun a => hkept)
      (fun n hn => (hfield (Pc.owns_of_fresh hn)).2.1) hptr fun n htarget h0 hn hm => ?_
    refine hfree h0 h.mem.head_mem hn hm fun hend => ?_
    rw [hend, Option.isNone_none] at htarget
    obtain ⟨e, he⟩ := Option.isSome_iff_exists.mp htarget
    exact (hok.target e he).1
  · intro e he
    rw [hf.target_eq h hj] at he
    obtain ⟨hlast, hc, hend, hmem⟩ := hok.target e he
    -- the new last node is held by `j`, or by nobody
    have hi : e ∉ (s.pc i).holds := by
      rcases hmem with hmem | ⟨hm, -⟩
      · exact hother hmem
      · exact h.not_held_of_free hm
    refine ⟨hptr hlast ▸ hlast, (hf.kept e hc).resolve_right hi,
      ((hf.link e hc).resolve_right hi).trans hend, hmem.imp id ?_⟩
    rintro ⟨hm, a, ha, hac, hae⟩
    exact ⟨hfree ha hac hae hm (fun _ => hlast), a, ha, hkept ha hac, (hlink ha hac).trans hae⟩

/-- **The rule for a step.** A step of the thread `i` that leaves the others what they have,
and after which `i`, the list and `last_node_ptr` are as they should be, keeps the
invariant. -/
theorem Inv.of_frame [DecidableEq ι] (h : Inv kind link chain s)
    (hf : Frame link link' chain chain' s t i) (hpc : t.pc = Function.update s.pc i p)
    (hmem : Mem kind link' chain' t) (hi : ThreadOk kind link' chain' t i p)
    (howns : ∀ n, p.owns = some n → (s.pc i).owns = some n ∨ n = s.count ∨ n ∈ chain)
    (hfollows : ∀ a ∈ chain', t.next a = link' a ∨ p.mid = some a ∨
      a ∈ chain ∧ t.next a = s.next a ∧ link' a = link a ∧ (s.pc i).mid ≠ some a)
    (hlast : kind = .double_push_list → ∀ e ∈ chain', link' e = none →
      t.last_node_ptr = e ∨ p.target link' = some e ∨
      e ∈ chain ∧ link e = none ∧ t.last_node_ptr = s.last_node_ptr ∧
        (s.pc i).target link ≠ some e) :
    Inv kind link' chain' t where
  mem := hmem
  threads := by
    rw [hpc]
    exact forall_update_at hi fun j hj => ThreadOk.of_frame h hf hj
  unique := by
    rw [hpc]
    refine h.unique.update fun n hn j hj hown => ?_
    obtain ⟨hc, hlive, -⟩ := (h.threads j).owned n hown
    rcases howns n hn with hold | rfl | hc'
    · exact hj (h.unique j i n hown hold)
    · exact absurd (h.mem.count _ hlive) (Nat.lt_irrefl _)
    · exact hc hc'
  follows := by
    intro a ha
    rcases hfollows a ha with heq | hmid | ⟨hc, hnext, hlink, hmid⟩
    · exact Or.inl heq
    · exact Or.inr ⟨i, by rw [hpc, Function.update_self, hmid]⟩
    · rcases h.follows a hc with heq | ⟨j, hj⟩
      · exact Or.inl (hnext.trans (heq.trans hlink.symm))
      · have hji : j ≠ i := fun heq => hmid (heq ▸ hj)
        exact Or.inr ⟨j, by rw [hpc, Function.update_of_ne hji, hj]⟩
  last := by
    intro hkind e he hend
    rcases hlast hkind e he hend with heq | htarget | ⟨hc, hend', hptr, hnot⟩
    · exact Or.inl heq
    · exact Or.inr ⟨i, by rw [hpc, Function.update_self, htarget]⟩
    · rcases h.last hkind e hc hend' with heq | ⟨j, hj⟩
      · exact Or.inl (hptr.trans heq)
      · have hji : j ≠ i := fun heq => hnot (heq ▸ hj)
        refine Or.inr ⟨j, ?_⟩
        rw [hpc, Function.update_of_ne hji, hf.target_eq h hji, hj]

end BoostNet.LockedList
