/-
`quick_sort` on an array (Concurrent/day19-parallensort, parallen_sort.h): the scans from
both ends, the swap of what they stop at, the pivot put between the two parts, and the two
recursive calls.

The functions are the source's, with the array passed on, and every access fails outside
the array. `fuel` bounds the passes of each loop and the depth of the recursion.

What a partition keeps at the head of its loop is `Partitioning`. The right scan comes
first, and `arr[left]` is at most the pivot at that moment; that is why the left scan moves
wherever the right one has stopped before it, and why the place where they meet never holds
more than the pivot.

* `in_place_quick_sort`: the result, for any array and with what lies behind it.
-/
import BoostNet.Loop
import BoostNet.Slice
import Mathlib.Data.Int.Order.Basic

set_option autoImplicit false

namespace BoostNet.InPlaceQuickSort

open Slice

variable {T : Type*} [LinearOrder T]

/-! ## The source -/

/-- `while (arr[right] >= key && left < right) right--`. -/
def scan_right (fuel : Nat) (arr : List T) (key : T) (left right : Int) : Option Int :=
  while_do
    (fun right => (read arr right).map fun a => decide (a ≥ key) && decide (left < right))
    (fun right => some (right - 1)) fuel right

/-- `while (arr[left] <= key && left < right) left++`. -/
def scan_left (fuel : Nat) (arr : List T) (key : T) (left right : Int) : Option Int :=
  while_do
    (fun left => (read arr left).map fun a => decide (a ≤ key) && decide (left < right))
    (fun left => some (left + 1)) fuel left

/-- What the loop of a partition changes. -/
structure Cursors (T : Type*) where
  arr : List T
  left : Int
  right : Int

/-- The body of `while (left < right)`. -/
def partition_pass (fuel : Nat) (key : T) (s : Cursors T) : Option (Cursors T) :=
  (scan_right fuel s.arr key s.left s.right).bind fun right =>
    (scan_left fuel s.arr key s.left right).bind fun left =>
      (swap s.arr left right).map fun arr => { arr, left, right }

def partition_loop (fuel : Nat) (key : T) (s : Cursors T) : Option (Cursors T) :=
  while_do (fun s => some (decide (s.left < s.right))) (partition_pass fuel key) fuel s

/-- `if (arr[left] < key) std::swap(arr[left], arr[start])`. -/
def place_pivot (key : T) (arr : List T) (left start : Int) : Option (List T) :=
  (read arr left).bind fun a => if a < key then swap arr left start else some arr

def quick_sort_recursive : Nat → List T → Int → Int → Option (List T)
  | 0, _, _, _ => none
  | fuel + 1, arr, start, end_ =>
      if start ≥ end_ then some arr
      else do
        let key ← read arr start
        let s ← partition_loop fuel key { arr, left := start, right := end_ }
        let arr ← place_pivot key s.arr s.left start
        let arr ← quick_sort_recursive fuel arr start (s.left - 1)
        quick_sort_recursive fuel arr (s.left + 1) end_

def quick_sort (fuel : Nat) (arr : List T) (len : Nat) : Option (List T) :=
  quick_sort_recursive fuel arr 0 (len - 1)

/-! ## The scans -/

section Scans

variable {arr : List T} {key : T} {left right : Int} {fuel : Nat}

omit [LinearOrder T] in
/-- A scan goes on over elements that pass its test, and stops at the bound or at an element
that does not. -/
theorem scan_total (p : T → Prop) (more : Int → Prop) [DecidablePred p] [DecidablePred more]
    (next : Int → Int) (Inv : Int → Prop) (variant : Int → Nat)
    (hread : ∀ i, Inv i → ∃ a, read arr i = some a)
    (hnext : ∀ i a, Inv i → more i → read arr i = some a → p a →
      Inv (next i) ∧ variant (next i) < variant i)
    {i : Int} (hinv : Inv i) (hfuel : variant i < fuel) :
    ∃ stop, while_do (fun i => (read arr i).map fun a => decide (p a) && decide (more i))
        (fun i => some (next i)) fuel i = some stop ∧
      Inv stop ∧ (¬ more stop ∨ ∃ a, read arr stop = some a ∧ ¬ p a) := by
  refine while_do_total Inv
    (fun stop => Inv stop ∧ (¬ more stop ∨ ∃ a, read arr stop = some a ∧ ¬ p a))
    variant ?_ hinv hfuel
  intro i hi
  obtain ⟨a, ha⟩ := hread i hi
  by_cases hgo : p a ∧ more i
  · right
    exact ⟨by simp [ha, hgo.1, hgo.2], next i, rfl, hnext i a hi hgo.2 ha hgo.1⟩
  · left
    refine ⟨?_, hi, ?_⟩
    · simp only [ha, Option.map_some, Option.some.injEq, Bool.and_eq_false_iff,
        decide_eq_false_iff_not]
      exact Decidable.not_and_iff_not_or_not.mp hgo
    · by_cases hp : p a
      · exact Or.inl fun hmore => hgo ⟨hp, hmore⟩
      · exact Or.inr ⟨a, ha, hp⟩

/-- The right scan stops at `left` or at an element below the pivot, and what it has passed
is not below it. -/
theorem scan_right_spec (key : T) (hleft : 0 ≤ left) (hlr : left ≤ right)
    (hright : right < arr.length) (hfuel : (right - left).toNat < fuel) :
    ∃ stop, scan_right fuel arr key left right = some stop ∧ left ≤ stop ∧ stop ≤ right ∧
      On (stop + 1) right arr (key ≤ ·) ∧
      (stop = left ∨ ∃ a, read arr stop = some a ∧ a < key) := by
  have hnext : ∀ r a, (left ≤ r ∧ r ≤ right ∧ On (r + 1) right arr (key ≤ ·)) → left < r →
      read arr r = some a → a ≥ key →
      (left ≤ r - 1 ∧ r - 1 ≤ right ∧ On (r - 1 + 1) right arr (key ≤ ·)) ∧
        (r - 1 - left).toNat < (r - left).toNat := by
    rintro r a ⟨hlo, hhi, hpassed⟩ hmore ha hpass
    refine ⟨⟨by omega, by omega, fun i v hilo hihi hv => ?_⟩, by omega⟩
    rcases Int.lt_or_eq_of_le hilo with hlt | heq
    · exact hpassed i v (by omega) hihi hv
    · have hir : i = r := by omega
      rw [hir, ha, Option.some.injEq] at hv
      exact hv ▸ hpass
  obtain ⟨stop, hscan, ⟨hlo, hhi, hpassed⟩, hstop⟩ := scan_total (· ≥ key) (left < ·) (· - 1)
    (fun r => left ≤ r ∧ r ≤ right ∧ On (r + 1) right arr (key ≤ ·)) (fun r => (r - left).toNat)
    (fun r hr => read_of_bounds (Int.le_trans hleft hr.1) (Int.lt_of_le_of_lt hr.2.1 hright)) hnext
    ⟨hlr, Int.le_refl right, fun i v hilo hihi => by omega⟩ hfuel
  refine ⟨stop, hscan, hlo, hhi, hpassed, ?_⟩
  rcases hstop with hend | ⟨a, ha, hbelow⟩
  · exact Or.inl (by omega)
  · exact Or.inr ⟨a, ha, not_le.mp hbelow⟩

/-- The left scan stops at `right` or at an element above the pivot. -/
theorem scan_left_spec (key : T) (hleft : 0 ≤ left) (hlr : left ≤ right)
    (hright : right < arr.length) (hfuel : (right - left).toNat < fuel) :
    ∃ stop, scan_left fuel arr key left right = some stop ∧ left ≤ stop ∧ stop ≤ right ∧
      On left (stop - 1) arr (· ≤ key) ∧
      (stop = right ∨ ∃ a, read arr stop = some a ∧ key < a) := by
  have hnext : ∀ l a, (left ≤ l ∧ l ≤ right ∧ On left (l - 1) arr (· ≤ key)) → l < right →
      read arr l = some a → a ≤ key →
      (left ≤ l + 1 ∧ l + 1 ≤ right ∧ On left (l + 1 - 1) arr (· ≤ key)) ∧
        (right - (l + 1)).toNat < (right - l).toNat := by
    rintro l a ⟨hlo, hhi, hpassed⟩ hmore ha hpass
    refine ⟨⟨by omega, by omega, fun i v hilo hihi hv => ?_⟩, by omega⟩
    rcases Int.lt_or_eq_of_le hihi with hlt | heq
    · exact hpassed i v hilo (by omega) hv
    · have hil : i = l := by omega
      rw [hil, ha, Option.some.injEq] at hv
      exact hv ▸ hpass
  obtain ⟨stop, hscan, ⟨hlo, hhi, hpassed⟩, hstop⟩ := scan_total (· ≤ key) (· < right) (· + 1)
    (fun l => left ≤ l ∧ l ≤ right ∧ On left (l - 1) arr (· ≤ key)) (fun l => (right - l).toNat)
    (fun l hl => read_of_bounds (Int.le_trans hleft hl.1) (Int.lt_of_le_of_lt hl.2.1 hright)) hnext
    ⟨Int.le_refl left, hlr, fun i v hilo hihi => by omega⟩ hfuel
  refine ⟨stop, hscan, hlo, hhi, hpassed, ?_⟩
  rcases hstop with hend | ⟨a, ha, habove⟩
  · exact Or.inl (by omega)
  · exact Or.inr ⟨a, ha, not_le.mp habove⟩

end Scans

/-! ## The partition -/

section Partition

variable {start end_ : Int} {arr : List T} {key : T} {s : Cursors T} {fuel : Nat}

/-- What holds at the head of the loop: the elements up to `left` are not above the pivot,
those behind `right` not below it, and the pivot is where it was. -/
structure Partitioning (start end_ : Int) (arr : List T) (key : T) (s : Cursors T) : Prop where
  start_le : start ≤ s.left
  left_le : s.left ≤ s.right
  le_end : s.right ≤ end_
  permuted : Permuted start end_ arr s.arr
  pivot : read s.arr start = some key
  low : On start s.left s.arr (· ≤ key)
  high : On (s.right + 1) end_ s.arr (key ≤ ·)

theorem Partitioning.init (hstart : start < end_) (hkey : read arr start = some key) :
    Partitioning start end_ arr key { arr, left := start, right := end_ } where
  start_le := Int.le_refl start
  left_le := Int.le_of_lt hstart
  le_end := Int.le_refl end_
  permuted := Permuted.refl start end_ arr
  pivot := hkey
  low i v hlo hhi hv := by
    have hi : i = start := Int.le_antisymm hhi hlo
    rw [hi, hkey, Option.some.injEq] at hv
    exact le_of_eq hv.symm
  high i v hlo hhi := by
    have hlo : end_ + 1 ≤ i := hlo
    omega

/-- A pass with the two cursors apart keeps the invariant, and brings them closer. -/
theorem Partitioning.pass (h : Partitioning start end_ arr key s) (hstart : 0 ≤ start)
    (hend : end_ < arr.length) (hlt : s.left < s.right)
    (hfuel : (end_ - start).toNat < fuel) :
    ∃ t, partition_pass fuel key s = some t ∧ Partitioning start end_ arr key t ∧
      (t.right - t.left).toNat < (s.right - s.left).toNat := by
  obtain ⟨hsl, hlr, hre, hperm, hpivot, hlow, hhigh⟩ := h
  have hlen : end_ < s.arr.length := by
    rw [hperm.length_eq]
    exact hend
  -- the right scan
  have hfuelr : (s.right - s.left).toNat < fuel := by omega
  obtain ⟨r, hr, hlr', hrr, hpassed, hrstop⟩ := scan_right_spec key (Int.le_trans hstart hsl) hlr
    (Int.lt_of_le_of_lt hre hlen) hfuelr
  have hhigh' : On (r + 1) end_ s.arr (key ≤ ·) := by
    intro i v hlo hhi hv
    by_cases hi : i ≤ s.right
    · exact hpassed i v hlo hi hv
    · exact hhigh i v (by omega) hhi hv
  -- the left scan
  have hrlen : r < s.arr.length := by omega
  have hfuell : (r - s.left).toNat < fuel := by omega
  obtain ⟨l, hl, hll, hlr'', hpassedl, hlstop⟩ :=
    scan_left_spec key (Int.le_trans hstart hsl) hlr' hrlen hfuell
  have hlow' : On start (l - 1) s.arr (· ≤ key) := by
    intro i v hlo hhi hv
    by_cases hi : i ≤ s.left
    · exact hlow i v hlo hi hv
    · exact hpassedl i v (by omega) hhi hv
  obtain ⟨a, ha⟩ : ∃ a, read s.arr l = some a := read_of_bounds (by omega) (by omega)
  obtain ⟨b, hb⟩ : ∃ b, read s.arr r = some b := read_of_bounds (by omega) (by omega)
  obtain ⟨arr', hswap, hperm', hread⟩ := swap_spec ha hb
  have hpermuted : Permuted start end_ s.arr arr' :=
    Permuted.swap ha hb hperm' hread ⟨by omega, by omega⟩ ⟨by omega, by omega⟩
  have hpass : partition_pass fuel key s = some { arr := arr', left := l, right := r } := by
    simp only [partition_pass, hr, hl, hswap, Option.bind_some, Option.map_some]
  refine ⟨_, hpass, ?_⟩
  by_cases hmeet : l = r
  · -- they have met: nothing moves, and the place holds no more than the pivot
    have hbkey : b ≤ key := by
      rcases hrstop with hrl | ⟨b', hb', hlt'⟩
      · exact hlow r b (by omega) (by omega) hb
      · rw [hb, Option.some.injEq] at hb'
        exact le_of_lt (hb' ▸ hlt')
    have hsame : ∀ k, read arr' k = read s.arr k := by
      intro k
      rw [hread]
      split
      case isTrue hk => rw [hk, ← hmeet, ha]
      case isFalse hk => rw [if_neg (by omega)]
    have hless : (r - l).toNat < (s.right - s.left).toNat := by omega
    refine ⟨⟨Int.le_trans hsl hll, Int.le_of_eq hmeet, Int.le_trans hrr hre,
      hperm.trans hpermuted, ?_, ?_, ?_⟩, hless⟩
    · exact (hsame start).trans hpivot
    · intro i v hlo hhi hv
      rw [hsame] at hv
      rcases Int.lt_or_eq_of_le hhi with hi | hi
      · exact hlow' i v hlo (Int.le_sub_one_of_lt hi) hv
      · rw [hi, hmeet, hb, Option.some.injEq] at hv
        exact hv ▸ hbkey
    · intro i v hlo hhi hv
      rw [hsame] at hv
      exact hhigh' i v hlo hhi hv
  · -- both stopped at an element on the wrong side, and the left scan has moved
    have hakey : key < a := by
      rcases hlstop with hstop | ⟨a', ha', hlt'⟩
      · exact absurd hstop hmeet
      · rw [ha, Option.some.injEq] at ha'
        exact ha' ▸ hlt'
    have hbkey : b < key := by
      rcases hrstop with hrl | ⟨b', hb', hlt'⟩
      · omega
      · rw [hb, Option.some.injEq] at hb'
        exact hb' ▸ hlt'
    have hmoved : s.left < l := by
      rcases Int.lt_or_eq_of_le hll with hlt' | heq
      · exact hlt'
      · exact absurd (hlow l a (by omega) (by omega) ha) (not_le.mpr hakey)
    have hless : (r - l).toNat < (s.right - s.left).toNat := by omega
    refine ⟨⟨Int.le_trans hsl hll, hlr'', Int.le_trans hrr hre, hperm.trans hpermuted,
      ?_, ?_, ?_⟩, hless⟩
    · change read arr' start = some key
      rw [hread, if_neg (by omega), if_neg (by omega), hpivot]
    · intro i v hlo hhi hv
      have hhi : i ≤ l := hhi
      have hv : read arr' i = some v := hv
      rw [hread, if_neg (by omega)] at hv
      split at hv
      case isTrue hi =>
          rw [Option.some.injEq] at hv
          exact hv ▸ le_of_lt hbkey
      case isFalse hi => exact hlow' i v hlo (by omega) hv
    · intro i v hlo hhi hv
      have hlo : r + 1 ≤ i := hlo
      have hv : read arr' i = some v := hv
      rw [hread, if_neg (by omega), if_neg (by omega)] at hv
      exact hhigh' i v hlo hhi hv

/-- The loop ends with the two cursors at one place. -/
theorem partition_loop_spec (hkey : read arr start = some key) (hstart : 0 ≤ start)
    (hlt : start < end_) (hend : end_ < arr.length) (hfuel : (end_ - start).toNat < fuel) :
    ∃ t, partition_loop fuel key { arr, left := start, right := end_ } = some t ∧
      Partitioning start end_ arr key t ∧ t.left = t.right := by
  refine while_do_total (Partitioning start end_ arr key)
    (fun t => Partitioning start end_ arr key t ∧ t.left = t.right)
    (fun t => (t.right - t.left).toNat) ?_ (Partitioning.init hlt hkey) hfuel
  intro t ht
  rcases Int.lt_or_eq_of_le ht.left_le with hgo | hmeet
  · right
    exact ⟨by rw [decide_eq_true hgo], ht.pass hstart hend hgo hfuel⟩
  · left
    exact ⟨by rw [decide_eq_false (by omega)], ht, hmeet⟩

/-- After the conditional swap the pivot lies between the two parts. -/
theorem place_pivot_spec (h : Partitioning start end_ arr key s)
    (hmeet : s.left = s.right) (hstart : 0 ≤ start) (hend : end_ < arr.length) :
    ∃ arr', place_pivot key s.arr s.left start = some arr' ∧
      Permuted start end_ arr arr' ∧ read arr' s.left = some key ∧
      On start (s.left - 1) arr' (· ≤ key) ∧ On (s.left + 1) end_ arr' (key ≤ ·) := by
  obtain ⟨hsl, hlr, hre, hperm, hpivot, hlow, hhigh⟩ := h
  have hlen := hperm.length_eq
  obtain ⟨a, ha⟩ : ∃ a, read s.arr s.left = some a := read_of_bounds (by omega) (by omega)
  have hale : a ≤ key := hlow s.left a hsl (Int.le_refl _) ha
  by_cases hlt : a < key
  · obtain ⟨arr', hswap, hperm', hread⟩ := swap_spec ha hpivot
    have hpermuted : Permuted start end_ s.arr arr' :=
      Permuted.swap ha hpivot hperm' hread ⟨hsl, by omega⟩ ⟨Int.le_refl _, by omega⟩
    -- the pivot is at `start`, so the place of the swap is another one
    have hne : s.left ≠ start := by
      intro heq
      rw [heq, hpivot, Option.some.injEq] at ha
      exact absurd hlt (ha ▸ lt_irrefl key)
    have hplace : place_pivot key s.arr s.left start = some arr' := by
      rw [place_pivot, ha, Option.bind_some, if_pos hlt, hswap]
    refine ⟨arr', hplace, hperm.trans hpermuted, ?_, ?_, ?_⟩
    · rw [hread, if_neg hne, if_pos rfl]
    · intro i v hlo hhi hv
      rw [hread] at hv
      split at hv
      case isTrue hi =>
          rw [Option.some.injEq] at hv
          exact hv ▸ hale
      case isFalse hi =>
          rw [if_neg (by omega)] at hv
          exact hlow i v hlo (by omega) hv
    · intro i v hlo hhi hv
      rw [hread, if_neg (by omega), if_neg (by omega)] at hv
      exact hhigh i v (by omega) hhi hv
  · have hkey : a = key := le_antisymm hale (not_lt.mp hlt)
    refine ⟨s.arr, by rw [place_pivot, ha, Option.bind_some, if_neg hlt], hperm, hkey ▸ ha, ?_, ?_⟩
    · intro i v hlo hhi hv
      exact hlow i v hlo (by omega) hv
    · intro i v hlo hhi hv
      exact hhigh i v (by omega) hhi hv

end Partition

/-! ## The recursion -/

/-- A call sorts its range and leaves the rest of the array as it is. -/
theorem quick_sort_recursive_spec {fuel : Nat} {arr : List T} {start end_ : Int}
    (hstart : 0 ≤ start) (hend : end_ < arr.length) (hfuel : (end_ - start + 1).toNat + 1 ≤ fuel) :
    ∃ arr', quick_sort_recursive fuel arr start end_ = some arr' ∧
      Permuted start end_ arr arr' ∧ SortedOn start end_ arr' := by
  induction fuel generalizing arr start end_ with
  | zero => omega
  | succ fuel ih =>
      by_cases hge : start ≥ end_
      · refine ⟨arr, ?_, Permuted.refl _ _ _, sortedOn_of_le hge arr⟩
        rw [quick_sort_recursive, if_pos hge]
      · obtain ⟨key, hkey⟩ : ∃ key, read arr start = some key := read_of_bounds hstart (by omega)
        have hloopfuel : (end_ - start).toNat < fuel := by omega
        obtain ⟨s, hloop, hpart, hmeet⟩ :=
          partition_loop_spec hkey hstart (Int.not_le.mp hge) hend hloopfuel
        have hsl := hpart.start_le
        have hle := hpart.le_end
        obtain ⟨arr₁, hplace, hperm₁, hpivot₁, hlow₁, hhigh₁⟩ :=
          place_pivot_spec hpart hmeet hstart hend
        have hlen₁ := hperm₁.length_eq
        have hend₁ : s.left - 1 < arr₁.length := by omega
        obtain ⟨arr₂, hleft, hperm₂, hsorted₂⟩ := ih hstart hend₁ (by omega)
        have hlen₂ := hperm₂.length_eq
        have hstart₂ : 0 ≤ s.left + 1 := by omega
        have hend₂ : end_ < arr₂.length := by omega
        obtain ⟨arr₃, hright, hperm₃, hsorted₃⟩ := ih hstart₂ hend₂ (by omega)
        refine ⟨arr₃, ?_, ?_, ?_⟩
        · rw [quick_sort_recursive, if_neg hge]
          simp only [hkey, hloop, hplace, hleft, hright, Option.bind_eq_bind, Option.bind_some]
        · exact (hperm₁.trans (hperm₂.mono (Int.le_refl _) (by omega))).trans
            (hperm₃.mono (by omega) (Int.le_refl _))
        · -- each half keeps the other one and the pivot as they are
          have hpivot₃ : read arr₃ s.left = some key := by
            rw [hperm₃.outside _ (by omega), hperm₂.outside _ (by omega), hpivot₁]
          refine SortedOn.around
            (hsorted₂.outside hperm₃ (by omega)) hsorted₃ hpivot₃ ?_ ?_
          · exact (hlow₁.permuted hperm₂ (Int.le_refl _) (Int.le_refl _)).outside hperm₃ (by omega)
          · exact (hhigh₁.outside hperm₂ (by omega)).permuted hperm₃ (Int.le_refl _) (Int.le_refl _)

/-! ## What lies behind the array -/

section Frame

variable {arr : List T} {key : T} {left right : Int} {fuel : Nat}

theorem scan_right_append (rest : List T) {stop : Int}
    (h : scan_right fuel arr key left right = some stop) :
    scan_right fuel (arr ++ rest) key left right = some stop := by
  refine while_do_sim id (fun r b hcond => ?_) (fun r t hbody => hbody) h
  obtain ⟨a, ha, hb⟩ := Option.map_eq_some_iff.mp hcond
  rw [id, read_append rest ha, Option.map_some, hb]

theorem scan_left_append (rest : List T) {stop : Int}
    (h : scan_left fuel arr key left right = some stop) :
    scan_left fuel (arr ++ rest) key left right = some stop := by
  refine while_do_sim id (fun l b hcond => ?_) (fun l t hbody => hbody) h
  obtain ⟨a, ha, hb⟩ := Option.map_eq_some_iff.mp hcond
  rw [id, read_append rest ha, Option.map_some, hb]

/-- The same cursors in an array that goes on. -/
def Cursors.extend (rest : List T) (s : Cursors T) : Cursors T := { s with arr := s.arr ++ rest }

theorem partition_pass_append (rest : List T) {s t : Cursors T}
    (h : partition_pass fuel key s = some t) :
    partition_pass fuel key (s.extend rest) = some (t.extend rest) := by
  simp only [partition_pass, Option.bind_eq_some_iff, Option.map_eq_some_iff] at h ⊢
  obtain ⟨r, hr, l, hl, arr', hswap, rfl⟩ := h
  exact ⟨r, scan_right_append rest hr, l, scan_left_append rest hl, _, swap_append rest hswap, rfl⟩

theorem partition_loop_append (rest : List T) {s t : Cursors T}
    (h : partition_loop fuel key s = some t) :
    partition_loop fuel key (s.extend rest) = some (t.extend rest) := by
  unfold partition_loop at h ⊢
  apply while_do_sim (Cursors.extend rest) ?_ ?_ h
  · intro s b hcond
    exact hcond
  · intro s t hbody
    exact partition_pass_append rest hbody

theorem place_pivot_append (rest : List T) {start : Int} {arr' : List T}
    (h : place_pivot key arr left start = some arr') :
    place_pivot key (arr ++ rest) left start = some (arr' ++ rest) := by
  obtain ⟨a, ha, h⟩ := Option.bind_eq_some_iff.mp h
  rw [place_pivot, read_append rest ha, Option.bind_some]
  split at h
  case isTrue hlt => rw [if_pos hlt, swap_append rest h]
  case isFalse hlt =>
      rw [Option.some.injEq] at h
      rw [if_neg hlt, h]

theorem quick_sort_recursive_append (rest : List T) {start end_ : Int} {arr' : List T}
    (h : quick_sort_recursive fuel arr start end_ = some arr') :
    quick_sort_recursive fuel (arr ++ rest) start end_ = some (arr' ++ rest) := by
  induction fuel generalizing arr arr' start end_ with
  | zero => simp [quick_sort_recursive] at h
  | succ fuel ih =>
      rw [quick_sort_recursive] at h ⊢
      split at h
      case isTrue hge =>
          rw [Option.some.injEq] at h
          rw [if_pos hge, h]
      case isFalse hge =>
          simp only [Option.bind_eq_bind, Option.bind_eq_some_iff] at h
          obtain ⟨key, hkey, s, hloop, arr₁, hplace, arr₂, hleft, hright⟩ := h
          have hloop' : partition_loop fuel key ⟨arr ++ rest, start, end_⟩ =
              some (s.extend rest) := partition_loop_append rest hloop
          have hplace' : place_pivot key (s.extend rest).arr (s.extend rest).left start =
              some (arr₁ ++ rest) := place_pivot_append rest hplace
          rw [if_neg hge]
          simp only [read_append rest hkey, hloop', hplace', Option.bind_eq_bind, Option.bind_some]
          rw [show (s.extend rest).left = s.left from rfl, ih hleft, Option.bind_some, ih hright]

end Frame

/-! ## `quick_sort` -/

/-- **The in-place sort.** With `len` the length of `arr` the call returns, with any fuel
from `len + 1` on, after accesses inside `arr` only, whatever lies behind it. It leaves
`arr` in order, and what lies behind it as it was. -/
theorem in_place_quick_sort (arr : List T) :
    ∃ sorted : List T, sorted.Perm arr ∧ sorted.Pairwise (· ≤ ·) ∧
      ∀ fuel, arr.length + 1 ≤ fuel →
        quick_sort fuel arr arr.length = some sorted ∧
        ∀ rest, quick_sort fuel (arr ++ rest) arr.length = some (sorted ++ rest) := by
  have hrun : ∀ fuel, arr.length + 1 ≤ fuel → ∃ sorted : List T,
      quick_sort fuel arr arr.length = some sorted ∧ sorted.Perm arr ∧
        sorted.Pairwise (· ≤ ·) := by
    intro fuel hfuel
    have hend : (arr.length - 1 : Int) < arr.length := by omega
    obtain ⟨sorted, hsorted, hperm, hord⟩ :=
      quick_sort_recursive_spec (Int.le_refl 0) hend (show _ ≤ fuel by omega)
    refine ⟨sorted, hsorted, hperm.perm, SortedOn.pairwise ?_⟩
    rw [hperm.length_eq]
    exact hord
  obtain ⟨sorted, -, hperm, hord⟩ := hrun (arr.length + 1) (Nat.le_refl _)
  refine ⟨sorted, hperm, hord, fun fuel hfuel => ?_⟩
  obtain ⟨sorted', hsorted', hperm', hord'⟩ := hrun fuel hfuel
  -- there is one sorted permutation only
  have hsame : sorted' = sorted :=
    List.Perm.eq_of_pairwise (fun a b _ _ hab hba => le_antisymm hab hba) hord' hord
      (hperm'.trans hperm.symm)
  rw [hsame] at hsorted'
  exact ⟨hsorted', fun rest => quick_sort_recursive_append rest hsorted'⟩

example : quick_sort 9 [6, 1, 0, 7, 5, 2, 9, -1] 8 = some [(-1 : Int), 0, 1, 2, 5, 6, 7, 9] := by
  decide

end BoostNet.InPlaceQuickSort
