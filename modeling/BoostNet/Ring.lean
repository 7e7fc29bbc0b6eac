/-
A ring of `n` slots with one slot kept free: indices that go round, and what a ring holds
between its head and its tail.

Nothing here names a component. `next` is the step of an index, `place n h k` the slot that is
`k` places behind `h`. `Spans` says that `t` is the slot `m < n` places behind `h`: then `h = t`
means that nothing lies between them and `next n t = h` that there is no room (`empty_iff`,
`full_iff`). `Holds` adds that the slots between are those of a list.
-/
import Mathlib.Data.List.Basic
import Mathlib.Data.Nat.ModEq
import Mathlib.Logic.Function.Basic

set_option autoImplicit false

namespace BoostNet.Ring

variable {α : Type*} {n h t i j k : Nat}

/-! ## Indices -/

def next (n i : Nat) : Nat := (i + 1) % n

/-- The slot that is `k` places behind `h`. -/
def place (n h k : Nat) : Nat := (h + k) % n

theorem next_lt (hn : 0 < n) : next n i < n := Nat.mod_lt _ hn

theorem place_zero (hh : h < n) : place n h 0 = h := Nat.mod_eq_of_lt hh

theorem next_place : next n (place n h k) = place n h (k + 1) := by
  rw [next, place, place, Nat.mod_add_mod, Nat.add_assoc]

theorem place_next : place n (next n h) k = place n h (k + 1) := by
  rw [place, next, place, Nat.mod_add_mod, Nat.add_assoc, Nat.add_comm 1 k]

/-- Less than `n` places apart the slots are different. -/
theorem place_inj (hj : j < n) (hk : k < n) : place n h j = place n h k ↔ j = k := by
  refine ⟨fun heq => ?_, fun heq => heq ▸ rfl⟩
  have hmod : j ≡ k [MOD n] := Nat.ModEq.add_left_cancel' h heq
  rwa [Nat.ModEq, Nat.mod_eq_of_lt hj, Nat.mod_eq_of_lt hk] at hmod

theorem place_ne_self (hh : h < n) (hpos : 0 < k) (hk : k < n) : place n h k ≠ h := by
  intro heq
  have hzero : k = 0 :=
    (place_inj hk (Nat.zero_lt_of_lt hh)).mp (heq.trans (place_zero hh).symm)
  omega

/-! ## What lies between head and tail -/

/-- `t` is `m` places behind `h`. -/
structure Spans (n h t m : Nat) : Prop where
  head_lt : h < n
  length_lt : m < n
  tail_eq : t = place n h m

variable {m : Nat}

theorem Spans.init (hn : 0 < n) : Spans n 0 0 0 where
  head_lt := hn
  length_lt := hn
  tail_eq := (place_zero hn).symm

/-- The ring is empty. -/
theorem Spans.empty_iff (hs : Spans n h t m) : h = t ↔ m = 0 := by
  have hn : 0 < n := Nat.zero_lt_of_lt hs.head_lt
  calc h = t
      ↔ place n h 0 = place n h m := by rw [place_zero hs.head_lt, ← hs.tail_eq]
    _ ↔ 0 = m := place_inj hn hs.length_lt
    _ ↔ m = 0 := eq_comm

/-- A ring that is not empty has a first element. -/
theorem Spans.stored (hs : Spans n h t m) (hne : h ≠ t) : ∃ k, m = k + 1 :=
  Nat.exists_eq_succ_of_ne_zero (mt hs.empty_iff.mpr hne)

/-- The ring is full. -/
theorem Spans.full_iff (hs : Spans n h t m) : next n t = h ↔ m + 1 = n := by
  rw [hs.tail_eq, next_place]
  rcases Nat.lt_or_eq_of_le (Nat.succ_le_of_lt hs.length_lt) with hlt | heq
  · exact iff_of_false (place_ne_self hs.head_lt (Nat.succ_pos _) hlt) (Nat.ne_of_lt hlt)
  · have heq : m + 1 = n := heq
    refine iff_of_true ?_ heq
    rw [heq, place, Nat.add_mod_right, Nat.mod_eq_of_lt hs.head_lt]

theorem Spans.push (hs : Spans n h t m) (hroom : next n t ≠ h) :
    Spans n h (next n t) (m + 1) where
  head_lt := hs.head_lt
  length_lt := Nat.lt_of_le_of_ne (Nat.succ_le_of_lt hs.length_lt) (mt hs.full_iff.mpr hroom)
  tail_eq := by rw [hs.tail_eq, next_place]

theorem Spans.pop (hs : Spans n h t (m + 1)) : Spans n (next n h) t m where
  head_lt := next_lt (Nat.zero_lt_of_lt hs.head_lt)
  length_lt := Nat.lt_of_succ_lt hs.length_lt
  tail_eq := by rw [place_next, hs.tail_eq]

/-- A place before the tail is not the tail. -/
theorem Spans.place_ne_tail (hs : Spans n h t m) (hk : k < m) : place n h k ≠ t := by
  rw [hs.tail_eq, Ne, place_inj (Nat.lt_trans hk hs.length_lt) hs.length_lt]
  exact Nat.ne_of_lt hk

/-! ## What a ring holds -/

/-- The slots from `h` on are those of `xs`, and `t` is the place behind them. -/
structure Holds (n : Nat) (slot : Nat → Option α) (h t : Nat) (xs : List α) : Prop where
  spans : Spans n h t xs.length
  slots : ∀ k v, xs[k]? = some v → slot (place n h k) = some v

variable {slot : Nat → Option α} {xs : List α} {v : α}

theorem Holds.init (hn : 0 < n) : Holds n slot 0 0 [] where
  spans := Spans.init hn
  slots := fun k v hv => by cases hv

/-- An element more. -/
theorem Holds.push (hs : Holds n slot h t xs) (hroom : next n t ≠ h) (v : α) :
    Holds n (Function.update slot t (some v)) h (next n t) (xs ++ [v]) where
  spans := by
    rw [List.length_append, List.length_singleton]
    exact hs.spans.push hroom
  slots := by
    intro k w hw
    rcases Nat.lt_or_ge k xs.length with hk | hk
    · rw [List.getElem?_append_left hk] at hw
      rw [Function.update_of_ne (hs.spans.place_ne_tail hk)]
      exact hs.slots k w hw
    · rw [List.getElem?_append_right hk, List.getElem?_singleton] at hw
      split at hw
      case isTrue hzero =>
        obtain rfl : k = xs.length := by omega
        rw [← hs.spans.tail_eq, Function.update_self, hw]
      case isFalse => cases hw

theorem Holds.front (hs : Holds n slot h t (v :: xs)) : slot h = some v := by
  have hv := hs.slots 0 v rfl
  rwa [place_zero hs.spans.head_lt] at hv

/-- The first element is written over. -/
theorem Holds.write_front (hs : Holds n slot h t (v :: xs)) (w : α) :
    Holds n (Function.update slot h (some w)) h t (w :: xs) where
  spans := hs.spans
  slots := by
    intro k u hu
    cases k with
    | zero =>
        rw [place_zero hs.spans.head_lt, Function.update_self]
        exact hu
    | succ k =>
        have hk : k + 1 < (v :: xs).length := (List.getElem?_eq_some_iff.mp hu).1
        have hne : place n h (k + 1) ≠ h :=
          place_ne_self hs.spans.head_lt (Nat.succ_pos k) (Nat.lt_trans hk hs.spans.length_lt)
        rw [Function.update_of_ne hne]
        exact hs.slots (k + 1) u hu

/-- The first element is given up. -/
theorem Holds.pop (hs : Holds n slot h t (v :: xs)) (o : Option α) :
    Holds n (Function.update slot h o) (next n h) t xs where
  spans := hs.spans.pop
  slots := by
    intro k w hw
    have hk : k < xs.length := (List.getElem?_eq_some_iff.mp hw).1
    have hlt : xs.length + 1 < n := hs.spans.length_lt
    have hne : place n h (k + 1) ≠ h :=
      place_ne_self hs.spans.head_lt (Nat.succ_pos k)
        (Nat.lt_of_le_of_lt hk (Nat.lt_of_succ_lt hlt))
    rw [place_next, Function.update_of_ne hne]
    exact hs.slots (k + 1) w hw

end BoostNet.Ring
