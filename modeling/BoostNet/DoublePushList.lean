/-
`double_push_list` (Concurrent/day16-threadsafelist/tailpushlist.h): who unlocks what, and what
the list is when no operation is in progress.

`push_back` names the node to lock by reading `last_node_ptr` before it has locked anything, and
reads the pointer again to adopt the lock. If another thread has moved it in between, it unlocks
a node that it has not locked and leaves the other locked.

* `push_lists`: in every run in which the node that `push_back` locks is still the last, each
  mutex is unlocked by its owner, and between operations nothing is locked, `last_node_ptr` is
  at the end and the list is what was put in and not taken out.
* `stale_last`: two `push_back` of which one has read the pointer before the other.
-/
import BoostNet.LockedListSteps

set_option autoImplicit false

namespace BoostNet.DoublePushList

open Heap LockedList

variable {ι T : Type*} {s : LockedList ι T} {link : Nat → Option Nat} {chain : List Nat}

/-- The node whose mutex the next step of a thread unlocks. -/
def unlocks : Pc T → Option Nat
  | .front_unlock => some 0
  | .back_unlock _ q => some q
  | .locked .for_each cur _ | .locked (.find_first_if _) cur _ => some cur
  | .pass _ cur _ | .unlock _ _ cur => some cur
  | .unlock_next _ _ nxt | .insert_unlock _ _ nxt => some nxt
  | _ => none

/-- The next step of a thread unlocks `last_ptr_mtx`. -/
def unlocks_last : Pc T → Bool
  | .back_unlock_last _ _ | .last_unlock _ => true
  | _ => false

/-- The node that `push_back` has read and is to lock. -/
def reads_last : Pc T → Option Nat
  | .back_lock _ p => some p
  | _ => none

/-- The node that `push_back` locks is still the one that `last_node_ptr` points to. -/
def Fresh (s : LockedList ι T) : Event ι T → Prop
  | .call _ _ => True
  | .run i => ∀ p ∈ reads_last (s.pc i), p = s.last_node_ptr

instance (s : LockedList ι T) : (e : Event ι T) → Decidable (Fresh s e)
  | .call _ _ => isTrue trivial
  | .run i => inferInstanceAs (Decidable (∀ p ∈ reads_last (s.pc i), p = s.last_node_ptr))

/-- What holds in every state of a run. -/
structure Ok (s : LockedList ι T) : Prop where
  /-- a mutex is unlocked by the thread that has locked it -/
  owner : ∀ i a, unlocks (s.pc i) = some a → s.m a = some i
  owner_last : ∀ i, unlocks_last (s.pc i) = true → s.last_ptr_mtx = some i
  /-- between operations nothing is locked -/
  unlocked : (∀ i, s.pc i = .idle) → (∀ a, s.m a = none) ∧ s.last_ptr_mtx = none
  /-- between operations `last_node_ptr` is the last node of the list, which has what was put in
  and not taken out -/
  list : (∀ i, s.pc i = .idle) → ∃ l, Path s.next (s.next 0) l none ∧ l.Nodup ∧
    (0 :: l).getLast? = some s.last_node_ptr ∧ s.pushed.Perm (s.removed ++ l)

theorem holds_of_unlocks {p : Pc T} {a : Nat} (hk : p.Knows link chain s)
    (h : unlocks p = some a) : a ∈ p.holds := by
  cases p
  case locked op cur nxt => cases op <;> cases h <;> exact List.mem_cons_self
  case back_unlock p q =>
    cases h
    exact List.mem_singleton.mpr hk
  all_goals cases h
  all_goals simp [Pc.holds]

theorem ok_of_inv (h : Inv .double_push_list link chain s) : Ok s where
  owner i a ha := ((h.threads i).held a).mpr (holds_of_unlocks (h.threads i).knows ha)
  owner_last i hi := by
    refine (h.threads i).held_last.mpr ?_
    cases hq : s.pc i <;> rw [hq] at hi <;> cases hi <;> rfl
  unlocked hidle := by
    constructor
    · intro a
      cases hm : s.m a with
      | none => rfl
      | some i =>
          have hheld := ((h.threads i).held a).mp hm
          rw [hidle i] at hheld
          cases hheld
    · cases hm : s.last_ptr_mtx with
      | none => rfl
      | some i =>
          have hheld := (h.threads i).held_last.mp hm
          rw [hidle i] at hheld
          cases hheld
  list hidle := by
    have hnext : ∀ a ∈ chain, s.next a = link a := fun a ha =>
      (h.follows a ha).resolve_right fun ⟨i, hi⟩ => by rw [hidle i] at hi; cases hi
    obtain ⟨l, rfl⟩ := h.mem.eq_cons
    obtain ⟨e, he, hend⟩ := h.mem.path.exists_last (List.cons_ne_nil _ _)
    have hlast : s.last_node_ptr = e :=
      (h.last rfl e he hend).resolve_right fun ⟨i, hi⟩ => by rw [hidle i] at hi; cases hi
    refine ⟨l, (h.mem.path.congr hnext).2, (List.nodup_cons.mp h.mem.nodup).2, ?_, h.mem.hist⟩
    obtain ⟨pre, post, hsplit, hpost⟩ := h.mem.path.split he
    rw [hend] at hpost
    rw [hsplit, hpost.eq_nil, hlast, List.getLast?_concat]

variable [DecidableEq ι]

/-- **Under fresh reads every mutex is unlocked by its owner, and the list is what it should
be.** -/
theorem push_lists (as : List (Event ι T)) (h : (lts .double_push_list).Always Fresh init as) :
    (lts .double_push_list).Along Ok init as :=
  Lts.along_of_always _ (I := fun s => ∃ link chain, Inv .double_push_list link chain s)
    (fun _ ⟨_, _, hinv⟩ => ok_of_inv hinv)
    (fun _ _ _ ⟨_, _, hinv⟩ hfresh ht => hinv.step ht fun i n p he hq => by
      subst he
      exact hfresh p (by rw [hq]; rfl))
    ⟨_, _, inv_init⟩ h

/-- A `push_front` and a `push_back` that is not disturbed. -/
def in_turn : List (Event Bool Nat) :=
  .call false (.push_front 7) :: List.replicate 9 (.run false) ++
    .call true (.push_back 8) :: List.replicate 8 (.run true)

theorem push_lists_in_turn : (lts .double_push_list).Along Ok init in_turn :=
  push_lists in_turn (by decide)

/-- The thread `false` has read `last_node_ptr` when the other one appends a node. -/
def overtaken : List (Event Bool Nat) :=
  [.call false (.push_back 7), .run false, .run false] ++
    .call true (.push_back 8) :: List.replicate 8 (.run true) ++ List.replicate 6 (.run false)

theorem stale_last : ¬ (lts .double_push_list).Along Ok init overtaken := by
  intro h
  have hok := Lts.Along.last _ h rfl
  -- nobody is in an operation, and the mutex of the head is locked
  cases (hok.unlocked (fun | false => rfl | true => rfl)).1 0

end BoostNet.DoublePushList
