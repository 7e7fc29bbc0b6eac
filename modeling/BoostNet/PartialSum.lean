/-
`parallel_partial_sum` (Concurrent/day21-ParallenAlgorithm/parallen_sum.h): every element
becomes the sum of those up to it.

The threads are a `Crew`. Each sums up its chunk, from `begin` to `last` inclusive, waits for the
sum up to the chunk before it, adds that to its last element and publishes this, and only then
adds it to its other elements. The values go from thread to thread through promises: `previous`
is that of the thread before. Every element that is read and written, every `get` and
`set_value` is one step. Iterators are indices.

`Holds` says what the chunk of a thread contains at each place of its program. Chunks are
disjoint, so that no thread disturbs another (`Inv.move`).

* `parallel_partial_sum_spec`: the sums, for every interleaving.
-/
import BoostNet.Blocks
import BoostNet.Crew
import Mathlib.Algebra.Group.Basic

set_option autoImplicit false

namespace BoostNet.PartialSum

open Blocks Crew

variable {M : Type*}

/-! ## Sums -/

section Sums

variable [AddCommSemigroup M]

/-- `a begin + .. + a (begin + d)` -/
def part (a : Nat → M) (begin : Nat) : Nat → M
  | 0 => a begin
  | d + 1 => part a begin d + a (begin + d + 1)

/-- The sum from `begin` up to and including `x`. -/
def sum_to (a : Nat → M) (begin x : Nat) : M := part a begin (x - begin)

theorem sum_to_self (a : Nat → M) (x : Nat) : sum_to a x x = a x := by
  rw [sum_to, Nat.sub_self, part]

theorem sum_to_succ (a : Nat → M) {begin x : Nat} (h : begin ≤ x) :
    sum_to a begin (x + 1) = sum_to a begin x + a (x + 1) := by
  rw [sum_to, sum_to, Nat.succ_sub h, part]
  congr 2
  omega

/-- The sum over two stretches. -/
theorem sum_to_add (a : Nat → M) {begin c x : Nat} (hc : begin ≤ c) (hx : c < x) :
    sum_to a begin c + sum_to a (c + 1) x = sum_to a begin x := by
  induction x, hx using Nat.le_induction with
  | base => rw [sum_to_self, ← sum_to_succ a hc]
  | succ x hx ih =>
      have hcx : c + 1 ≤ x := hx
      rw [sum_to_succ a hcx, sum_to_succ a (by omega), ← add_assoc, ih]

end Sums

/-! ## The threads -/

/-- The elements, and what the promises hold. -/
structure Shared (M : Type*) where
  a : Nat → M
  end_values : Nat → Option M

/-- `process_chunk` in a thread. -/
inductive Worker (M : Type*)
  | begin_sum (begin last : Nat)
  | sum (begin last i : Nat) (acc : M)
  | get (begin last : Nat)
  | add_last (begin last : Nat) (addend : M)
  | publish (begin last : Nat) (addend : M)
  | add (last i : Nat) (addend : M)
  | publish_first (last : Nat)
  | ended

namespace Worker

def is_over : Worker M → Bool
  | ended => true
  | _ => false

/-- Behind `std::partial_sum`: the first chunk has none before it, the last one no promise. -/
def summed (num_threads i begin last : Nat) : Worker M :=
  if i ≠ 0 then get begin last
  else if i < num_threads - 1 then publish_first last
  else ended

/-- The next step of the thread `i`. A second `set_value` of a promise would throw: there is no
step for it. -/
def step [Add M] (num_threads : Nat) (s : Shared M) (i : Nat) :
    Worker M → Option (Shared M × Worker M)
  -- std::partial_sum(begin, end, begin), with end = last + 1
  | begin_sum begin last =>
      some (s, if begin = last + 1 then summed num_threads i begin last
        else sum begin last (begin + 1) (s.a begin))
  | sum begin last j acc =>
      if j = last + 1 then some (s, summed num_threads i begin last)
      else
        let acc := acc + s.a j
        some ({ s with a := Function.update s.a j acc }, sum begin last (j + 1) acc)
  -- previous_end_value->get()
  | get begin last => (s.end_values (i - 1)).map fun addend => (s, add_last begin last addend)
  -- *last += addend;
  | add_last begin last addend =>
      some ({ s with a := Function.update s.a last (s.a last + addend) },
        if i < num_threads - 1 then publish begin last addend else add last begin addend)
  -- end_value->set_value(*last);
  | publish begin last addend =>
      match s.end_values i with
      | none => some ({ s with end_values := Function.update s.end_values i (some (s.a last)) },
          add last begin addend)
      | some _ => none
  -- std::for_each(begin, last, [addend](value_type& item) { item += addend; });
  | add last j addend =>
      if j = last then some (s, ended)
      else some ({ s with a := Function.update s.a j (s.a j + addend) }, add last (j + 1) addend)
  | publish_first last =>
      match s.end_values i with
      | none => some ({ s with end_values := Function.update s.end_values i (some (s.a last)) },
          ended)
      | some _ => none
  | ended => none

/-- The elements that the next step reads or writes. -/
def accesses : Worker M → List Nat
  | begin_sum begin last => if begin = last + 1 then [] else [begin]
  | sum _ last j _ => if j = last + 1 then [] else [j]
  | add_last _ last _ | publish _ last _ | publish_first last => [last]
  | add last j _ => if j = last then [] else [j]
  | get _ _ | ended => []

end Worker

def process_chunk [Add M] (num_threads block_size last : Nat) : Job (Shared M) (Worker M) where
  -- block_start = block_last; ++block_start;
  block_end := fun block_start => block_start + (block_size - 1) + 1
  enter := fun block_start => .begin_sum block_start (block_start + (block_size - 1))
  enter_last := fun block_start => .begin_sum block_start (block_start + (last - block_start - 1))
  ended := Worker.is_over
  step := Worker.step num_threads
  ended_stuck := by
    rintro s i w hover
    cases w <;> first | rfl | cases hover

abbrev State (M : Type*) := Crew.State (Shared M) (Worker M)

/-- The elements, and promises without values. -/
def shared (a : Nat → M) : Shared M := ⟨a, fun _ => none⟩

def init (a : Nat → M) (first last : Nat) : State M :=
  if last - first = 0 then skipped (shared a) else Crew.init first (shared a)

/-- The job of the threads of a call. -/
def job [Add M] (hardware_threads first last : Nat) : Job (Shared M) (Worker M) :=
  let length := last - first
  let num_threads := num_threads hardware_threads length
  process_chunk num_threads (length / num_threads) last

/-- A call of `parallel_partial_sum`. -/
def lts [Add M] (hardware_threads first last : Nat) (a : Nat → M) : Lts (State M) Event :=
  { Crew.lts (job hardware_threads first last)
      (num_threads hardware_threads (last - first)) first (shared a) with
    init := init a first last }

/-! ## The invariant -/

/-- The elements from `b` up to, not including, `e` are those of `v`. -/
def Same (a v : Nat → M) (b e : Nat) : Prop := ∀ x, b ≤ x → x < e → a x = v x

/-- What the chunk from `b` to `l`, of the thread `i`, contains; `a₀` are the elements at the
call. -/
def Holds [AddCommSemigroup M] (a₀ : Nat → M) (first num_threads i b l : Nat) (s : Shared M) :
    Worker M → Prop
  | .begin_sum begin last => begin = b ∧ last = l ∧ Same s.a a₀ b (l + 1) ∧ s.end_values i = none
  | .sum begin last j acc => begin = b ∧ last = l ∧ b < j ∧ j ≤ l + 1 ∧ acc = sum_to a₀ b (j - 1) ∧
      Same s.a (sum_to a₀ b) b j ∧ Same s.a a₀ j (l + 1) ∧ s.end_values i = none
  | .get begin last => begin = b ∧ last = l ∧ 0 < i ∧ Same s.a (sum_to a₀ b) b (l + 1) ∧
      s.end_values i = none
  | .add_last begin last addend => begin = b ∧ last = l ∧ 0 < i ∧
      addend = sum_to a₀ first (b - 1) ∧ Same s.a (sum_to a₀ b) b (l + 1) ∧ s.end_values i = none
  | .publish begin last addend => begin = b ∧ last = l ∧ 0 < i ∧ i < num_threads - 1 ∧
      addend = sum_to a₀ first (b - 1) ∧ Same s.a (sum_to a₀ b) b l ∧
      s.a l = sum_to a₀ first l ∧ s.end_values i = none
  | .add last j addend => last = l ∧ 0 < i ∧ b ≤ j ∧ j ≤ l ∧ addend = sum_to a₀ first (b - 1) ∧
      Same s.a (sum_to a₀ first) b j ∧ Same s.a (sum_to a₀ b) j l ∧ s.a l = sum_to a₀ first l ∧
      (i < num_threads - 1 → s.end_values i ≠ none)
  | .publish_first last => last = l ∧ i = 0 ∧ i < num_threads - 1 ∧
      Same s.a (sum_to a₀ first) b (l + 1) ∧ s.end_values i = none
  | .ended => Same s.a (sum_to a₀ first) b (l + 1) ∧ (i < num_threads - 1 → s.end_values i ≠ none)

/-- The last element of the chunk `i`. -/
def block_last (m first last i : Nat) : Nat := block_end m first last i - 1

structure Inv [AddCommSemigroup M] (a₀ : Nat → M) (m first last : Nat) (s : Shared M)
    (worker : Nat → Option (Worker M)) : Prop where
  holds : ∀ i w, i < m → worker i = some w →
    Holds a₀ first m i (block_start m first last i) (block_last m first last i) s w
  fresh : ∀ i, i < m → worker i = none →
    Same s.a a₀ (block_start m first last i) (block_last m first last i + 1) ∧
      s.end_values i = none
  published : ∀ i v, s.end_values i = some v → i < m - 1 ∧
    v = sum_to a₀ first (block_last m first last i)
  outside : ∀ x, x < first ∨ last ≤ x → s.a x = a₀ x

section Chunks

variable {m first last i j : Nat}

/-- No chunk is empty. -/
theorem chunk_nonempty (hsize : 0 < (last - first) / m) (hle : first ≤ last) (hi : i < m) :
    block_start m first last i ≤ block_last m first last i ∧
      block_last m first last i + 1 = block_end m first last i := by
  have hblock : block_start m first last i + (last - first) / m ≤ block_end m first last i :=
    block_start_add_le_end hle hi
  rw [block_last]
  omega

theorem block_last_lt (hsize : 0 < (last - first) / m) (hle : first ≤ last) (hi : i < m) :
    block_last m first last i < last := by
  have hend : block_end m first last i ≤ last := block_end_le hle hi
  have hlast := (chunk_nonempty hsize hle hi).2
  omega

/-- The thread of a chunk begins at its start. -/
theorem entry_eq [Add M] (hsize : 0 < (last - first) / m) (hle : first ≤ last) (hi : i < m) :
    entry (process_chunk (M := M) m ((last - first) / m) last) m first i =
      .begin_sum (block_start m first last i) (block_last m first last i) := by
  have hstart : begin_of (process_chunk (M := M) m ((last - first) / m) last) first i =
      block_start m first last i := by
    refine begin_of_eq (fun begin => ?_) i
    change begin + ((last - first) / m - 1) + 1 = begin + (last - first) / m
    omega
  have hchunk := chunk_nonempty hsize hle hi
  rw [entry, hstart, block_last, block_end]
  split
  case isTrue hlast =>
    rw [block_last, block_end, if_pos hlast] at hchunk
    change Worker.begin_sum _ _ = _
    congr 1
    omega
  case isFalse =>
    rw [block_start_succ]
    change Worker.begin_sum _ _ = _
    congr 1
    omega

/-- Chunks are apart. -/
theorem chunk_apart (hsize : 0 < (last - first) / m) (hle : first ≤ last) (hi : i < m) (hj : j < m)
    (hne : i ≠ j) {x : Nat} (hx : block_start m first last i ≤ x)
    (hx' : x < block_last m first last i + 1) :
    x < block_start m first last j ∨ block_last m first last j + 1 ≤ x := by
  rw [(chunk_nonempty hsize hle hi).2] at hx'
  rw [(chunk_nonempty hsize hle hj).2]
  rcases Nat.lt_or_gt_of_ne hne with hlt | hgt
  · have hapart : block_end m first last i ≤ block_start m first last j :=
      block_end_le_start hlt hj
    omega
  · have hapart : block_end m first last j ≤ block_start m first last i :=
      block_end_le_start hgt hi
    omega

/-- The chunk before ends where this one starts. -/
theorem block_last_pred (hsize : 0 < (last - first) / m) (hi : i < m) (hpos : 0 < i) :
    block_last m first last (i - 1) = block_start m first last i - 1 ∧
      first ≤ block_start m first last i - 1 ∧ 0 < block_start m first last i := by
  obtain ⟨k, rfl⟩ : ∃ k, i = k + 1 := ⟨i - 1, by omega⟩
  have hfirst : first ≤ block_start m first last k := first_le_block_start
  rw [Nat.add_sub_cancel, block_last, block_end, if_neg (by omega), block_start_succ]
  omega

end Chunks

/-! ## What a step keeps -/

section Steps

variable [AddCommSemigroup M] {a₀ : Nat → M} {m first last i b l : Nat} {s s' : Shared M}
  {w w' : Worker M} {worker : Nat → Option (Worker M)}

omit [AddCommSemigroup M] in
theorem Same.congr {a a' v : Nat → M} {b' e : Nat} (h : Same a v b e)
    (ha : ∀ x, b' ≤ x → x < l + 1 → a' x = a x) (hb : b' ≤ b) (he : e ≤ l + 1) :
    Same a' v b e := fun x hx hlt => (ha x (by omega) (by omega)).trans (h x hx hlt)

/-- Nothing but the chunk and its promise matters to a thread. -/
theorem Holds.congr (h : Holds a₀ first m i b l s w) (hbl : b ≤ l)
    (ha : ∀ x, b ≤ x → x < l + 1 → s'.a x = s.a x)
    (he : s'.end_values i = s.end_values i) : Holds a₀ first m i b l s' w := by
  have hl : s'.a l = s.a l := ha l hbl (Nat.lt_succ_self l)
  cases w with
  | begin_sum begin last' =>
      obtain ⟨h1, h2, hsame, hnone⟩ := h
      exact ⟨h1, h2, hsame.congr ha le_rfl le_rfl, he.trans hnone⟩
  | sum begin last' j acc =>
      obtain ⟨h1, h2, hbj, hjl, hacc, hdone, hleft, hnone⟩ := h
      exact ⟨h1, h2, hbj, hjl, hacc, hdone.congr ha le_rfl hjl, hleft.congr ha hbj.le le_rfl,
        he.trans hnone⟩
  | get begin last' =>
      obtain ⟨h1, h2, hi, hsame, hnone⟩ := h
      exact ⟨h1, h2, hi, hsame.congr ha le_rfl le_rfl, he.trans hnone⟩
  | add_last begin last' addend =>
      obtain ⟨h1, h2, hi, hv, hsame, hnone⟩ := h
      exact ⟨h1, h2, hi, hv, hsame.congr ha le_rfl le_rfl, he.trans hnone⟩
  | publish begin last' addend =>
      obtain ⟨h1, h2, hi, him, hv, hsame, hlast, hnone⟩ := h
      exact ⟨h1, h2, hi, him, hv, hsame.congr ha le_rfl (Nat.le_succ l), hl.trans hlast,
        he.trans hnone⟩
  | add last' j addend =>
      obtain ⟨h1, hi, hbj, hjl, hv, hdone, hleft, hlast, hset⟩ := h
      exact ⟨h1, hi, hbj, hjl, hv, hdone.congr ha le_rfl (by omega),
        hleft.congr ha hbj (Nat.le_succ l), hl.trans hlast, fun him => he ▸ hset him⟩
  | publish_first last' =>
      obtain ⟨h1, hi, him, hsame, hnone⟩ := h
      exact ⟨h1, hi, him, hsame.congr ha le_rfl le_rfl, he.trans hnone⟩
  | ended =>
      obtain ⟨hsame, hset⟩ := h
      exact ⟨hsame.congr ha le_rfl le_rfl, fun him => he ▸ hset him⟩

/-- A step of the thread `i`: what it has to show. -/
theorem Inv.move (h : Inv a₀ m first last s worker) (hsize : 0 < (last - first) / m)
    (hle : first ≤ last) (hi : i < m) (hw : worker i = some w)
    (ha : ∀ x, x < block_start m first last i ∨ block_last m first last i + 1 ≤ x →
      s'.a x = s.a x)
    (he : ∀ j, j ≠ i → s'.end_values j = s.end_values j)
    (hholds : Holds a₀ first m i (block_start m first last i) (block_last m first last i) s' w')
    (hpublished : ∀ v, s'.end_values i = some v → i < m - 1 ∧
      v = sum_to a₀ first (block_last m first last i)) :
    Inv a₀ m first last s' (Function.update worker i (some w')) := by
  have hother : ∀ j, j < m → j ≠ i → ∀ x, block_start m first last j ≤ x →
      x < block_last m first last j + 1 → s'.a x = s.a x := fun j hj hne x hx hlt =>
    ha x (chunk_apart hsize hle hj hi hne hx hlt)
  refine ⟨fun j v hj hv => ?_, fun j hj hnone => ?_, fun j v hv => ?_, fun x hx => ?_⟩
  · by_cases hji : j = i
    · subst hji
      rw [Function.update_self] at hv
      exact Option.some.inj hv ▸ hholds
    · rw [Function.update_of_ne hji] at hv
      exact (h.holds j v hj hv).congr (chunk_nonempty hsize hle hj).1 (hother j hj hji) (he j hji)
  · have hji : j ≠ i := by
      rintro rfl
      rw [Function.update_self] at hnone
      cases hnone
    rw [Function.update_of_ne hji] at hnone
    obtain ⟨hsame, hend⟩ := h.fresh j hj hnone
    exact ⟨hsame.congr (hother j hj hji) le_rfl le_rfl, (he j hji).trans hend⟩
  · by_cases hji : j = i
    · subst hji
      exact hpublished v hv
    · rw [he j hji] at hv
      exact h.published j v hv
  · refine (ha x ?_).trans (h.outside x hx)
    have hstart : first ≤ block_start m first last i := first_le_block_start
    have hend := block_last_lt hsize hle hi
    omega

/-- A step that writes nothing. -/
theorem Inv.goto (h : Inv a₀ m first last s worker) (hsize : 0 < (last - first) / m)
    (hle : first ≤ last) (hi : i < m) (hw : worker i = some w)
    (hholds : Holds a₀ first m i (block_start m first last i) (block_last m first last i) s w') :
    Inv a₀ m first last s (Function.update worker i (some w')) :=
  h.move hsize hle hi hw (fun _ _ => rfl) (fun _ _ => rfl) hholds (h.published i)

/-- A step that writes an element of the chunk. -/
theorem Inv.write {j : Nat} {v : M} (h : Inv a₀ m first last s worker)
    (hsize : 0 < (last - first) / m) (hle : first ≤ last) (hi : i < m) (hw : worker i = some w)
    (hj : block_start m first last i ≤ j) (hj' : j ≤ block_last m first last i)
    (hholds : Holds a₀ first m i (block_start m first last i) (block_last m first last i)
      { s with a := Function.update s.a j v } w') :
    Inv a₀ m first last { s with a := Function.update s.a j v }
      (Function.update worker i (some w')) := by
  refine h.move hsize hle hi hw (fun x hx => ?_) (fun _ _ => rfl) hholds (h.published i)
  exact Function.update_of_ne (by omega) _ _

/-- `set_value` of the promise. -/
theorem Inv.publish (h : Inv a₀ m first last s worker) (hsize : 0 < (last - first) / m)
    (hle : first ≤ last) (hi : i < m) (hw : worker i = some w) (him : i < m - 1) {v : M}
    (hv : v = sum_to a₀ first (block_last m first last i))
    (hholds : Holds a₀ first m i (block_start m first last i) (block_last m first last i)
      { s with end_values := Function.update s.end_values i (some v) } w') :
    Inv a₀ m first last { s with end_values := Function.update s.end_values i (some v) }
      (Function.update worker i (some w')) := by
  refine h.move hsize hle hi hw (fun _ _ => rfl) (fun j hj => Function.update_of_ne hj _ _) hholds
    fun u hu => ⟨him, ?_⟩
  change Function.update s.end_values i (some v) i = some u at hu
  rw [Function.update_self] at hu
  exact (Option.some.inj hu).symm.trans hv

/-- Behind `std::partial_sum`. -/
theorem holds_summed (hb : i = 0 → b = first) (hsame : Same s.a (sum_to a₀ b) b (l + 1))
    (hnone : s.end_values i = none) : Holds a₀ first m i b l s (Worker.summed m i b l) := by
  rw [Worker.summed]
  by_cases hi : i = 0
  · rw [if_neg (not_not.mpr hi)]
    rw [hb hi] at hsame ⊢
    split
    case isTrue him => exact ⟨rfl, hi, him, hsame, hnone⟩
    case isFalse him => exact ⟨hsame, fun hlt => absurd hlt him⟩
  · rw [if_pos hi]
    exact ⟨rfl, rfl, Nat.pos_of_ne_zero hi, hsame, hnone⟩

omit [AddCommSemigroup M] in
/-- An element behind the stretch is written. -/
theorem Same.write {a v : Nat → M} {e : Nat} (h : Same a v b e) {y : M} (hy : y = v e) :
    Same (Function.update a e y) v b (e + 1) := by
  intro x hx hlt
  rcases Nat.lt_succ_iff_lt_or_eq.mp hlt with hlt | rfl
  · rw [Function.update_of_ne (by omega)]
    exact h x hx hlt
  · rw [Function.update_self, hy]

omit [AddCommSemigroup M] in
theorem Same.tail {a v : Nat → M} {b' e : Nat} (h : Same a v b e) (hb : b ≤ b') :
    Same a v b' e := fun x hx hlt => h x (Nat.le_trans hb hx) hlt

omit [AddCommSemigroup M] in
/-- An element outside the stretch is written. -/
theorem Same.write_other {a v : Nat → M} {e j : Nat} (h : Same a v b e) {y : M}
    (hj : j < b ∨ e ≤ j) : Same (Function.update a j y) v b e := by
  intro x hx hlt
  rw [Function.update_of_ne (by omega)]
  exact h x hx hlt

/-- The sum of the chunk, with the sums of the chunks before it. -/
theorem sum_to_chunk (hfirst : first ≤ b - 1) (hb : 0 < b) {x : Nat} (hx : b ≤ x) :
    sum_to a₀ b x + sum_to a₀ first (b - 1) = sum_to a₀ first x := by
  have hsum := sum_to_add a₀ hfirst (show b - 1 < x by omega)
  rw [Nat.sub_add_cancel hb] at hsum
  rw [add_comm, hsum]

theorem Inv.step (h : Inv a₀ m first last s worker) (hsize : 0 < (last - first) / m)
    (hle : first ≤ last) (hi : i < m) (hw : worker i = some w)
    (hstep : w.step m s i = some (s', w')) :
    Inv a₀ m first last s' (Function.update worker i (some w')) := by
  have hholds := h.holds i w hi hw
  have hchunk := (chunk_nonempty hsize hle hi).1
  have hzero : i = 0 → block_start m first last i = first := by
    rintro rfl
    rw [block_start, Nat.zero_mul, Nat.add_zero]
  have hchunks : 0 < i → block_last m first last (i - 1) = block_start m first last i - 1 ∧
      first ≤ block_start m first last i - 1 ∧ 0 < block_start m first last i :=
    block_last_pred hsize hi
  have hstart : first ≤ block_start m first last i := first_le_block_start
  generalize hb : block_start m first last i = b at *
  generalize hl : block_last m first last i = l at *
  cases w with
  | begin_sum begin last' =>
      -- std::partial_sum over the chunk, an element a step
      obtain ⟨rfl, rfl, hsame, hnone⟩ := hholds
      rw [Worker.step, if_neg (by omega)] at hstep
      obtain ⟨rfl, rfl⟩ := Prod.mk.inj (Option.some.inj hstep)
      refine h.goto hsize hle hi hw ?_
      rw [hb, hl]
      have hfirst : s.a begin = a₀ begin := hsame begin le_rfl (by omega)
      refine ⟨rfl, rfl, Nat.lt_succ_self _, by omega, ?_, fun x hx hlt => ?_,
        hsame.tail (Nat.le_succ _), hnone⟩
      · rw [Nat.add_sub_cancel, sum_to_self, hfirst]
      · obtain rfl : x = begin := by omega
        rw [sum_to_self, hfirst]
  | sum begin last' j acc =>
      obtain ⟨rfl, rfl, hbj, hjl, hacc, hdone, hleft, hnone⟩ := hholds
      rw [Worker.step] at hstep
      split at hstep
      case isTrue hend =>
        obtain ⟨rfl, rfl⟩ := Prod.mk.inj (Option.some.inj hstep)
        refine h.goto hsize hle hi hw ?_
        rw [hb, hl]
        exact holds_summed hzero (hend ▸ hdone) hnone
      case isFalse hend =>
        obtain ⟨rfl, rfl⟩ := Prod.mk.inj (Option.some.inj hstep)
        have hsum : acc + s.a j = sum_to a₀ begin j := by
          obtain ⟨k, rfl⟩ : ∃ k, j = k + 1 := ⟨j - 1, by omega⟩
          rw [hleft _ le_rfl (by omega), hacc, Nat.add_sub_cancel, sum_to_succ a₀ (by omega)]
        refine h.write hsize hle hi hw (by omega) (by omega) ?_
        rw [hb, hl]
        exact ⟨rfl, rfl, by omega, by omega, hsum, hdone.write hsum,
          (hleft.tail (Nat.le_succ j)).write_other (Or.inl (Nat.lt_succ_self j)), hnone⟩
  | get begin last' =>
      -- the future of the chunk before gives its last sum, all chunks before it included
      obtain ⟨rfl, rfl, hpos, hsame, hnone⟩ := hholds
      obtain ⟨v, hv, hstep⟩ := Option.map_eq_some_iff.mp hstep
      obtain ⟨rfl, rfl⟩ := Prod.mk.inj hstep
      obtain ⟨hpred, -, -⟩ := hchunks hpos
      refine h.goto hsize hle hi hw ?_
      rw [hb, hl]
      exact ⟨rfl, rfl, hpos, hpred ▸ (h.published _ _ hv).2, hsame, hnone⟩
  | add_last begin last' addend =>
      -- the last element first, so that the next chunk need not wait for the others
      obtain ⟨rfl, rfl, hpos, hv, hsame, hnone⟩ := hholds
      obtain ⟨-, hfirst, hbegin⟩ := hchunks hpos
      obtain ⟨rfl, rfl⟩ := Prod.mk.inj (Option.some.inj hstep)
      have hsum : s.a last' + addend = sum_to a₀ first last' := by
        rw [hsame last' hchunk (Nat.lt_succ_self _), hv, sum_to_chunk hfirst hbegin hchunk]
      have hrest : Same s.a (sum_to a₀ begin) begin last' := fun x hx hlt =>
        hsame x hx (by omega)
      refine h.write hsize hle hi hw (by omega) (by omega) ?_
      rw [hb, hl]
      split
      case isTrue him =>
        exact ⟨rfl, rfl, hpos, him, hv, hrest.write_other (Or.inr le_rfl),
          (Function.update_self ..).trans hsum, hnone⟩
      case isFalse him =>
        exact ⟨rfl, hpos, le_rfl, hchunk, hv, fun x hx hlt => by omega,
          hrest.write_other (Or.inr le_rfl), (Function.update_self ..).trans hsum,
          fun hlt => absurd hlt him⟩
  | publish begin last' addend =>
      obtain ⟨rfl, rfl, hpos, him, hv, hsame, hlast, hnone⟩ := hholds
      simp only [Worker.step, hnone] at hstep
      obtain ⟨rfl, rfl⟩ := Prod.mk.inj (Option.some.inj hstep)
      refine h.publish hsize hle hi hw him (hl ▸ hlast) ?_
      rw [hb, hl]
      refine ⟨rfl, hpos, le_rfl, hchunk, hv, fun x hx hlt => by omega, hsame, hlast, fun _ => ?_⟩
      exact (Function.update_self ..).trans_ne (Option.some_ne_none _)
  | add last' j addend =>
      -- std::for_each over the rest, which ends before `last'`
      obtain ⟨rfl, hpos, hbj, hjl, hv, hdone, hleft, hlast, hset⟩ := hholds
      obtain ⟨-, hfirst, hbegin⟩ := hchunks hpos
      rw [Worker.step] at hstep
      split at hstep
      case isTrue hend =>
        subst hend
        obtain ⟨rfl, rfl⟩ := Prod.mk.inj (Option.some.inj hstep)
        refine h.goto hsize hle hi hw ?_
        rw [hb, hl]
        refine ⟨fun x hx hlt => ?_, hset⟩
        rcases Nat.lt_succ_iff_lt_or_eq.mp hlt with hlt | rfl
        · exact hdone x hx hlt
        · exact hlast
      case isFalse hend =>
        obtain ⟨rfl, rfl⟩ := Prod.mk.inj (Option.some.inj hstep)
        have hsum : s.a j + addend = sum_to a₀ first j := by
          rw [hleft j le_rfl (by omega), hv, sum_to_chunk hfirst hbegin hbj]
        refine h.write hsize hle hi hw (by omega) (by omega) ?_
        rw [hb, hl]
        exact ⟨rfl, hpos, by omega, by omega, hv, hdone.write hsum,
          (hleft.tail (Nat.le_succ j)).write_other (Or.inl (Nat.lt_succ_self j)),
          (Function.update_of_ne (Ne.symm hend) _ _).trans hlast, hset⟩
  | publish_first last' =>
      -- the first chunk has nothing to wait for
      obtain ⟨rfl, hzero', him, hsame, hnone⟩ := hholds
      simp only [Worker.step, hnone] at hstep
      obtain ⟨rfl, rfl⟩ := Prod.mk.inj (Option.some.inj hstep)
      refine h.publish hsize hle hi hw him (hl ▸ hsame last' hchunk (Nat.lt_succ_self _)) ?_
      rw [hb, hl]
      refine ⟨hsame, fun _ => ?_⟩
      exact (Function.update_self ..).trans_ne (Option.some_ne_none _)
  | ended => cases hstep

/-- The thread `i` is started. -/
theorem Inv.start (h : Inv a₀ m first last s worker) (hi : i < m) (hnone : worker i = none) :
    Inv a₀ m first last s (Function.update worker i
      (some (.begin_sum (block_start m first last i) (block_last m first last i)))) := by
  refine ⟨fun j v hj hv => ?_, fun j hj hv => ?_, h.published, h.outside⟩
  · by_cases hji : j = i
    · subst hji
      rw [Function.update_self] at hv
      obtain rfl := Option.some.inj hv
      obtain ⟨hsame, hend⟩ := h.fresh j hj hnone
      exact ⟨rfl, rfl, hsame, hend⟩
    · rw [Function.update_of_ne hji] at hv
      exact h.holds j v hj hv
  · have hji : j ≠ i := by
      rintro rfl
      rw [Function.update_self] at hv
      cases hv
    rw [Function.update_of_ne hji] at hv
    exact h.fresh j hj hv

theorem inv_keeps (hsize : 0 < (last - first) / m) (hle : first ≤ last) :
    Keeps (process_chunk m ((last - first) / m) last) m first (shared a₀)
      (Inv a₀ m first last) where
  init := ⟨fun _ _ _ hv => (by cases hv), fun _ _ _ => ⟨fun _ _ _ => rfl, rfl⟩,
    fun _ _ hv => (by cases hv), fun _ _ => rfl⟩
  start := fun s worker i hi hnone h => by
    rw [entry_eq hsize hle hi]
    exact h.start hi hnone
  step := fun s worker i w s' w' hi hw hstep h => h.step hsize hle hi hw hstep

/-- A thread goes to elements of its chunk only. -/
theorem Holds.accesses_mem (h : Holds a₀ first m i b l s w) (hbl : b ≤ l) {x : Nat}
    (hx : x ∈ w.accesses) : b ≤ x ∧ x ≤ l := by
  cases w with
  | begin_sum begin last' =>
      obtain ⟨rfl, rfl, -⟩ := h
      rw [Worker.accesses, if_neg (by omega), List.mem_singleton] at hx
      omega
  | sum begin last' j acc =>
      obtain ⟨rfl, rfl, hbj, hjl, -⟩ := h
      rw [Worker.accesses] at hx
      split at hx
      case isTrue => cases hx
      case isFalse hne =>
        rw [List.mem_singleton] at hx
        omega
  | get begin last' => cases hx
  | add_last begin last' addend =>
      obtain ⟨rfl, rfl, -⟩ := h
      obtain rfl := List.mem_singleton.mp hx
      exact ⟨hbl, le_rfl⟩
  | publish begin last' addend =>
      obtain ⟨rfl, rfl, -⟩ := h
      obtain rfl := List.mem_singleton.mp hx
      exact ⟨hbl, le_rfl⟩
  | add last' j addend =>
      obtain ⟨rfl, -, hbj, hjl, -⟩ := h
      rw [Worker.accesses] at hx
      split at hx
      case isTrue => cases hx
      case isFalse hne =>
        rw [List.mem_singleton] at hx
        omega
  | publish_first last' =>
      obtain ⟨rfl, -⟩ := h
      obtain rfl := List.mem_singleton.mp hx
      exact ⟨hbl, le_rfl⟩
  | ended => cases hx

/-! ## The call returns -/

/-- A thread waits only for the promise of the thread before it. -/
theorem Holds.exists_step (h : Holds a₀ first m i b l s w) (hover : w.is_over = false)
    (hready : 0 < i → s.end_values (i - 1) ≠ none) : ∃ r, w.step m s i = some r := by
  cases w with
  | begin_sum begin last' => exact ⟨_, rfl⟩
  | sum begin last' j acc =>
      rw [Worker.step]
      split <;> exact ⟨_, rfl⟩
  | get begin last' =>
      obtain ⟨-, -, hpos, -⟩ := h
      obtain ⟨v, hv⟩ := Option.ne_none_iff_exists'.mp (hready hpos)
      exact ⟨_, by rw [Worker.step, hv, Option.map_some]⟩
  | add_last begin last' addend => exact ⟨_, rfl⟩
  | publish begin last' addend =>
      obtain ⟨-, -, -, -, -, -, -, hnone⟩ := h
      exact ⟨_, by rw [Worker.step, hnone]⟩
  | add last' j addend =>
      rw [Worker.step]
      split <;> exact ⟨_, rfl⟩
  | publish_first last' =>
      obtain ⟨-, -, -, -, hnone⟩ := h
      exact ⟨_, by rw [Worker.step, hnone]⟩
  | ended => cases hover

/-- As long as a thread is not over, it or one before it can step. -/
theorem Inv.exists_step {t : State M} {block_size : Nat}
    (h : Inv a₀ m first last t.shared t.worker)
    (hcrew : Crew.Inv (process_chunk m block_size last) m first t) (hw : t.worker i = some w)
    (hover : w.is_over = false) :
    ∃ j t', step_worker (process_chunk m block_size last) t j = some t' := by
  induction i using Nat.strong_induction_on generalizing w with
  | _ i ih =>
      have hi := hcrew.lt_of_started hw
      by_cases hready : 0 < i → t.shared.end_values (i - 1) ≠ none
      · obtain ⟨r, hr⟩ := (h.holds i w hi hw).exists_step hover hready
        exact exists_step_worker hw hr
      · rw [Classical.not_imp, not_not] at hready
        obtain ⟨hpos, hnone⟩ := hready
        -- the thread before it has not published, and is not over
        obtain ⟨v, hv⟩ := hcrew.started_lt hw (Nat.sub_le i 1)
        refine ih (i - 1) (by omega) hv ?_
        have hholds := h.holds (i - 1) v (by omega) hv
        cases v with
        | ended => exact absurd hnone (hholds.2 (by omega))
        | _ => rfl

omit [AddCommSemigroup M] in
/-- Steps that a thread has left. -/
def Worker.left : Worker M → Nat
  | .begin_sum begin last => 2 * (last - begin) + 8
  | .sum begin last j _ => (last + 1 - j) + (last - begin) + 6
  | .get begin last => (last - begin) + 5
  | .add_last begin last _ => (last - begin) + 4
  | .publish begin last _ => (last - begin) + 3
  | .add last j _ => (last - j) + 1
  | .publish_first _ => 1
  | .ended => 0

omit [AddCommSemigroup M] in
theorem left_summed {begin last' : Nat} :
    (Worker.summed m i begin last' : Worker M).left ≤ (last' - begin) + 5 := by
  rw [Worker.summed]
  split
  case isTrue => exact le_rfl
  case isFalse =>
    split <;> simp only [Worker.left] <;> omega

theorem Holds.left_lt (h : Holds a₀ first m i b l s w) (hbl : b ≤ l)
    (hstep : w.step m s i = some (s', w')) : w'.left < w.left := by
  cases w with
  | begin_sum begin last' =>
      obtain ⟨rfl, rfl, -⟩ := h
      rw [Worker.step, if_neg (by omega)] at hstep
      obtain ⟨rfl, rfl⟩ := Prod.mk.inj (Option.some.inj hstep)
      simp only [Worker.left]
      omega
  | sum begin last' j acc =>
      obtain ⟨rfl, rfl, hbj, hjl, -⟩ := h
      rw [Worker.step] at hstep
      split at hstep
      case isTrue hend =>
        obtain ⟨rfl, rfl⟩ := Prod.mk.inj (Option.some.inj hstep)
        refine Nat.lt_of_le_of_lt left_summed ?_
        simp only [Worker.left]
        omega
      case isFalse hend =>
        obtain ⟨rfl, rfl⟩ := Prod.mk.inj (Option.some.inj hstep)
        simp only [Worker.left]
        omega
  | get begin last' =>
      obtain ⟨v, -, hstep⟩ := Option.map_eq_some_iff.mp hstep
      obtain ⟨rfl, rfl⟩ := Prod.mk.inj hstep
      simp only [Worker.left]
      omega
  | add_last begin last' addend =>
      obtain ⟨rfl, rfl⟩ := Prod.mk.inj (Option.some.inj hstep)
      split <;> simp only [Worker.left] <;> omega
  | publish begin last' addend =>
      obtain ⟨-, -, -, -, -, -, -, hnone⟩ := h
      simp only [Worker.step, hnone] at hstep
      obtain ⟨rfl, rfl⟩ := Prod.mk.inj (Option.some.inj hstep)
      simp only [Worker.left]
      omega
  | add last' j addend =>
      obtain ⟨rfl, -, hbj, hjl, -⟩ := h
      rw [Worker.step] at hstep
      split at hstep
      case isTrue hend =>
        obtain ⟨rfl, rfl⟩ := Prod.mk.inj (Option.some.inj hstep)
        simp only [Worker.left]
        omega
      case isFalse hend =>
        obtain ⟨rfl, rfl⟩ := Prod.mk.inj (Option.some.inj hstep)
        simp only [Worker.left]
        omega
  | publish_first last' =>
      obtain ⟨-, -, -, -, hnone⟩ := h
      simp only [Worker.step, hnone] at hstep
      obtain ⟨rfl, rfl⟩ := Prod.mk.inj (Option.some.inj hstep)
      exact Nat.one_pos
  | ended => cases hstep

theorem entry_left_lt (hsize : 0 < (last - first) / m) (hle : first ≤ last) (hi : i < m) :
    (entry (process_chunk (M := M) m ((last - first) / m) last) m first i).left <
      2 * (last - first) + 9 := by
  have hstart : first ≤ block_start m first last i := first_le_block_start
  have hend := block_last_lt hsize hle hi
  rw [entry_eq hsize hle hi]
  simp only [Worker.left]
  omega

/-- When all threads are over, every element is the sum up to it. -/
theorem Inv.sums (h : Inv a₀ m first last s worker) (hsize : 0 < (last - first) / m)
    (hle : first ≤ last) (hpos : 0 < m) (hover : ∀ i, i < m → worker i = some .ended) (x : Nat) :
    s.a x = if first ≤ x ∧ x < last then sum_to a₀ first x else a₀ x := by
  split
  case isFalse hx => exact h.outside x (by omega)
  case isTrue hx =>
    obtain ⟨i, hi, hstart, hend⟩ := exists_block hpos hx.1 hx.2
    rw [← (chunk_nonempty hsize hle hi).2] at hend
    exact (h.holds i .ended hi (hover i hi)).1 x hstart hend

end Steps

/-- **`parallel_partial_sum` is `std::partial_sum`.** For every range, every commutative and
associative `+`, every number of hardware threads and every interleaving: no chunk is empty, the
threads go to elements of the range only, the call returns, and when it does every element is the
sum of the elements up to it. -/
theorem parallel_partial_sum_spec [AddCommSemigroup M] (a : Nat → M)
    (hardware_threads first n : Nat) :
    (∀ i, i < num_threads hardware_threads (first + n - first) → ∃ begin last,
      entry (job (M := M) hardware_threads first (first + n))
        (num_threads hardware_threads (first + n - first)) first i = .begin_sum begin last ∧
      first ≤ begin ∧ begin ≤ last ∧ last < first + n) ∧
    ∃ bound, ∀ as s,
      (lts hardware_threads first (first + n) a).exec (init a first (first + n)) as = some s →
        (∀ i w, s.worker i = some w → ∀ x ∈ w.accesses, first ≤ x ∧ x < first + n) ∧
        (s.caller = .joined → ∀ x,
          s.shared.a x = if first ≤ x ∧ x < first + n then sum_to a first x else a x) ∧
        (s.caller ≠ .joined →
          ∃ e s', (lts hardware_threads first (first + n) a).step s e = some s') ∧
        as.length ≤ bound := by
  have hle : first ≤ first + n := Nat.le_add_right first n
  have hsize : first + n - first ≠ 0 →
      0 < (first + n - first) / num_threads hardware_threads (first + n - first) := fun hlen =>
    block_size_pos (num_threads_pos hlen) num_threads_le
  refine ⟨fun i hi => ?_, ?_⟩
  · have hlen : first + n - first ≠ 0 := fun heq => by
      have hfew : num_threads hardware_threads (first + n - first) ≤ first + n - first :=
        num_threads_le
      omega
    exact ⟨_, _, entry_eq (hsize hlen) hle hi, first_le_block_start,
      (chunk_nonempty (hsize hlen) hle hi).1, block_last_lt (hsize hlen) hle hi⟩
  · by_cases hlen : first + n - first = 0
    · refine ⟨0, fun as s hrun => ?_⟩
      rw [lts, exec_with_init, init, if_pos hlen] at hrun
      obtain ⟨rfl, rfl⟩ := exec_skipped hrun
      refine ⟨fun i w hw => (by cases hw), fun _ x => ?_, fun hnot => absurd rfl hnot,
        Nat.le_refl 0⟩
      rw [if_neg (by omega)]
      rfl
    · have hpos : 0 < num_threads hardware_threads (first + n - first) := num_threads_pos hlen
      refine ⟨(Crew.init first (shared a) : State M).left Worker.left
        (2 * (first + n - first) + 9) (num_threads hardware_threads (first + n - first)),
        fun as s hrun => ?_⟩
      rw [lts, exec_with_init, init, if_neg hlen] at hrun
      obtain ⟨hcrew, hinv⟩ := Crew.exec_inv hpos (inv_keeps (hsize hlen) hle) hrun
      refine ⟨fun i w hw x hx => ?_, fun hjoined => ?_, fun hnot => ?_,
        Crew.exec_length hpos (inv_keeps (hsize hlen) hle) ?_ ?_ hrun⟩
      · have hi := hcrew.lt_of_started hw
        have hmem := (hinv.holds i w hi hw).accesses_mem (chunk_nonempty (hsize hlen) hle hi).1 hx
        have hstart : first ≤ block_start
          (num_threads hardware_threads (first + n - first)) first (first + n) i :=
          first_le_block_start
        have hlast := block_last_lt (hsize hlen) hle hi
        omega
      · refine hinv.sums (hsize hlen) hle hpos fun i hi => ?_
        obtain ⟨w, hw, hover⟩ := hcrew.joined_over hjoined hi
        cases w with
        | ended => exact hw
        | _ => cases hover
      · exact hcrew.exists_step hpos (fun i w hw hover => hinv.exists_step hcrew hw hover) hnot
          (shared a)
      · exact fun i hi => entry_left_lt (hsize hlen) hle hi
      · exact fun t worker i w t' w' hi hw hstep h =>
          (h.holds i w hi hw).left_lt (chunk_nonempty (hsize hlen) hle hi).1 hstep

end BoostNet.PartialSum
