/-
Arrays that are addressed by an `int`, as the pointers and iterators of the sources are: an
access outside the array fails.

* `Permuted lo hi arr arr'`: `arr'` is `arr` with the elements at `[lo, hi]` permuted.
  `Permuted.swap` is its step, and what holds of all elements of a range is carried over by
  a permutation of a wider or of a disjoint one (`On.permuted`, `On.outside`).
* `SortedOn`: no element of a range is above a later one. `SortedOn.around` puts two sorted
  ranges together with what lies between them.
-/
import Mathlib.Data.List.Basic
import Mathlib.Order.Lattice

set_option autoImplicit false

namespace BoostNet.Slice

variable {T : Type*}

/-! ## Accesses -/

/-- `arr[i]`, read. -/
def read (arr : List T) (i : Int) : Option T := if 0 ≤ i then arr[i.toNat]? else none

/-- `arr[i] = v`. -/
def write (arr : List T) (i : Int) (v : T) : Option (List T) :=
  if 0 ≤ i ∧ i < arr.length then some (arr.set i.toNat v) else none

/-- `std::swap(arr[i], arr[j])`. -/
def swap (arr : List T) (i j : Int) : Option (List T) := do
  let a ← read arr i
  let b ← read arr j
  let arr' ← write arr i b
  write arr' j a

theorem read_of_bounds {arr : List T} {i : Int} (h0 : 0 ≤ i) (hlen : i < arr.length) :
    ∃ v, read arr i = some v := by
  have hi : i.toNat < arr.length := by omega
  exact ⟨arr[i.toNat], by rw [read, if_pos h0, List.getElem?_eq_getElem hi]⟩

theorem bounds_of_read {arr : List T} {i : Int} {v : T} (h : read arr i = some v) :
    0 ≤ i ∧ i < arr.length := by
  unfold read at h
  split at h
  case isTrue h0 =>
      obtain ⟨hlt, -⟩ := List.getElem?_eq_some_iff.mp h
      omega
  case isFalse => contradiction

theorem read_natCast (arr : List T) (n : Nat) : read arr n = arr[n]? := by
  rw [read, if_pos (Int.natCast_nonneg n), Int.toNat_natCast]

theorem read_append {arr : List T} {i : Int} {v : T} (rest : List T)
    (h : read arr i = some v) : read (arr ++ rest) i = some v := by
  obtain ⟨h0, hlen⟩ := bounds_of_read h
  unfold read at h ⊢
  rw [if_pos h0] at h ⊢
  rw [List.getElem?_append_left (by omega), h]

theorem write_append {arr arr' : List T} {i : Int} {v : T} (rest : List T)
    (h : write arr i v = some arr') : write (arr ++ rest) i v = some (arr' ++ rest) := by
  unfold write at h ⊢
  split at h
  case isTrue hi =>
      rw [Option.some.injEq] at h
      have hi' : 0 ≤ i ∧ i < (arr ++ rest).length := by
        rw [List.length_append]
        omega
      rw [if_pos hi', List.set_append_left _ _ (by omega), h]
  case isFalse => contradiction

/-- What lies behind the array plays no part in a swap. -/
theorem swap_append {arr arr' : List T} {i j : Int} (rest : List T)
    (h : swap arr i j = some arr') : swap (arr ++ rest) i j = some (arr' ++ rest) := by
  simp only [swap, Option.bind_eq_bind, Option.bind_eq_some_iff] at h ⊢
  obtain ⟨a, ha, b, hb, arr₁, harr₁, h⟩ := h
  exact ⟨a, read_append rest ha, b, read_append rest hb, _, write_append rest harr₁,
    write_append rest h⟩

/-! ## Permutations of a range -/

/-- `arr'` is `arr` with the elements at `[lo, hi]` permuted. -/
structure Permuted (lo hi : Int) (arr arr' : List T) : Prop where
  perm : arr'.Perm arr
  outside : ∀ i, i < lo ∨ hi < i → read arr' i = read arr i
  inside : ∀ i v, lo ≤ i → i ≤ hi → read arr' i = some v →
    ∃ j, lo ≤ j ∧ j ≤ hi ∧ read arr j = some v

namespace Permuted

variable {lo hi lo' hi' : Int} {arr arr' arr'' : List T}

theorem refl (lo hi : Int) (arr : List T) : Permuted lo hi arr arr where
  perm := List.Perm.refl arr
  outside _ _ := rfl
  inside i _ hlo hhi hv := ⟨i, hlo, hhi, hv⟩

theorem trans (h : Permuted lo hi arr arr') (h' : Permuted lo hi arr' arr'') :
    Permuted lo hi arr arr'' where
  perm := h'.perm.trans h.perm
  outside i hi := (h'.outside i hi).trans (h.outside i hi)
  inside i v hlo hhi hv := by
    obtain ⟨j, hjlo, hjhi, hj⟩ := h'.inside i v hlo hhi hv
    exact h.inside j v hjlo hjhi hj

theorem mono (h : Permuted lo hi arr arr') (hlo : lo' ≤ lo) (hhi : hi ≤ hi') :
    Permuted lo' hi' arr arr' where
  perm := h.perm
  outside i hi := h.outside i (by omega)
  inside i v hilo hihi hv := by
    by_cases hin : lo ≤ i ∧ i ≤ hi
    · obtain ⟨j, hjlo, hjhi, hj⟩ := h.inside i v hin.1 hin.2 hv
      exact ⟨j, by omega, by omega, hj⟩
    · rw [h.outside i (by omega)] at hv
      exact ⟨i, hilo, hihi, hv⟩

theorem length_eq (h : Permuted lo hi arr arr') : arr'.length = arr.length := h.perm.length_eq

end Permuted

/-- What a swap leaves where. -/
theorem swap_spec {arr : List T} {i j : Int} {a b : T} (ha : read arr i = some a)
    (hb : read arr j = some b) :
    ∃ arr', swap arr i j = some arr' ∧ arr'.Perm arr ∧
      ∀ k, read arr' k = if k = j then some a else if k = i then some b else read arr k := by
  obtain ⟨hi0, hilen⟩ := bounds_of_read ha
  obtain ⟨hj0, hjlen⟩ := bounds_of_read hb
  have hin : i.toNat < arr.length := by omega
  have hjn : j.toNat < arr.length := by omega
  have hai : arr[i.toNat] = a := by
    rw [read, if_pos hi0, List.getElem?_eq_getElem hin, Option.some.injEq] at ha
    exact ha
  have hbj : arr[j.toNat] = b := by
    rw [read, if_pos hj0, List.getElem?_eq_getElem hjn, Option.some.injEq] at hb
    exact hb
  have hswap : swap arr i j = some ((arr.set i.toNat b).set j.toNat a) := by
    simp only [swap, ha, hb, Option.bind_eq_bind, Option.bind_some]
    rw [write, if_pos ⟨hi0, hilen⟩, Option.bind_some, write, if_pos]
    rw [List.length_set]
    exact ⟨hj0, hjlen⟩
  refine ⟨_, hswap, ?_, fun k => ?_⟩
  · rw [← hai, ← hbj]
    exact List.set_set_perm hin hjn
  · by_cases hk0 : 0 ≤ k
    · rw [read, if_pos hk0, List.getElem?_set, List.getElem?_set, List.length_set]
      have hki : i.toNat = k.toNat ↔ k = i := by omega
      have hkj : j.toNat = k.toNat ↔ k = j := by omega
      simp only [hki, hkj, if_pos hin, if_pos hjn]
      rw [read, if_pos hk0]
    · rw [read, if_neg hk0, if_neg (by omega), if_neg (by omega), read, if_neg hk0]

theorem Permuted.swap {lo hi i j : Int} {arr arr' : List T} {a b : T} (ha : read arr i = some a)
    (hb : read arr j = some b) (hperm : arr'.Perm arr)
    (hread : ∀ k, read arr' k = if k = j then some a else if k = i then some b else read arr k)
    (hir : lo ≤ i ∧ i ≤ hi) (hjr : lo ≤ j ∧ j ≤ hi) : Permuted lo hi arr arr' where
  perm := hperm
  outside k hk := by rw [hread, if_neg (by omega), if_neg (by omega)]
  inside k v hklo hkhi hv := by
    rw [hread] at hv
    split at hv
    · exact ⟨i, hir.1, hir.2, ha.trans hv⟩
    · split at hv
      · exact ⟨j, hjr.1, hjr.2, hb.trans hv⟩
      · exact ⟨k, hklo, hkhi, hv⟩

/-! ## What holds of a range -/

/-- Every element at `[lo, hi]` satisfies `P`. -/
def On (lo hi : Int) (arr : List T) (P : T → Prop) : Prop :=
  ∀ i v, lo ≤ i → i ≤ hi → read arr i = some v → P v

theorem On.permuted {lo hi lo' hi' : Int} {arr arr' : List T} {P : T → Prop}
    (h : On lo hi arr P) (hperm : Permuted lo' hi' arr arr') (hlo : lo ≤ lo') (hhi : hi' ≤ hi) :
    On lo hi arr' P := by
  intro i v hilo hihi hv
  obtain ⟨j, hjlo, hjhi, hj⟩ := (hperm.mono hlo hhi).inside i v hilo hihi hv
  exact h j v hjlo hjhi hj

theorem On.outside {lo hi lo' hi' : Int} {arr arr' : List T} {P : T → Prop}
    (h : On lo hi arr P) (hperm : Permuted lo' hi' arr arr') (hout : hi < lo' ∨ hi' < lo) :
    On lo hi arr' P := by
  intro i v hilo hihi hv
  rw [hperm.outside i (by omega)] at hv
  exact h i v hilo hihi hv

section Order

variable [LinearOrder T]

/-- No element at `[lo, hi]` is above a later one. -/
def SortedOn (lo hi : Int) (arr : List T) : Prop :=
  ∀ i j a b, lo ≤ i → i < j → j ≤ hi → read arr i = some a → read arr j = some b → a ≤ b

theorem SortedOn.outside {lo hi lo' hi' : Int} {arr arr' : List T} (h : SortedOn lo hi arr)
    (hperm : Permuted lo' hi' arr arr') (hout : hi < lo' ∨ hi' < lo) : SortedOn lo hi arr' := by
  intro i j a b hlo hij hhi ha hb
  rw [hperm.outside i (by omega)] at ha
  rw [hperm.outside j (by omega)] at hb
  exact h i j a b hlo hij hhi ha hb

theorem sortedOn_of_le {lo hi : Int} (h : hi ≤ lo) (arr : List T) : SortedOn lo hi arr := by
  intro i j a b hlo hij hhi
  omega

/-- Two sorted ranges around an element that none on the left is above, and none on the
right below. -/
theorem SortedOn.around {lo mid hi : Int} {arr : List T} {key : T}
    (hleft : SortedOn lo (mid - 1) arr) (hright : SortedOn (mid + 1) hi arr)
    (hmid : read arr mid = some key) (hlow : On lo (mid - 1) arr (· ≤ key))
    (hhigh : On (mid + 1) hi arr (key ≤ ·)) : SortedOn lo hi arr := by
  intro i j a b hlo hij hhi ha hb
  -- where the two lie: on the left, at the key, on the right
  have hle : i ≤ mid → a ≤ key := by
    intro him
    rcases Int.lt_or_eq_of_le him with hlt | rfl
    · exact hlow i a hlo (by omega) ha
    · exact le_of_eq (Option.some.inj (ha.symm.trans hmid))
  have hge : mid ≤ j → key ≤ b := by
    intro hjm
    rcases Int.lt_or_eq_of_le hjm with hlt | rfl
    · exact hhigh j b (by omega) hhi hb
    · exact le_of_eq (Option.some.inj (hmid.symm.trans hb))
  by_cases him : i ≤ mid
  · by_cases hjm : mid ≤ j
    · exact le_trans (hle him) (hge hjm)
    · exact hleft i j a b hlo hij (by omega) ha hb
  · exact hright i j a b (by omega) hij hhi ha hb

/-- Sorted from end to end. -/
theorem SortedOn.pairwise {arr : List T} (h : SortedOn 0 (arr.length - 1) arr) :
    arr.Pairwise (· ≤ ·) := by
  rw [List.pairwise_iff_getElem]
  intro i j hi hj hij
  apply h i j (arr[i]) (arr[j]) (by omega) (by omega) (by omega)
  · rw [read_natCast, List.getElem?_eq_getElem hi]
  · rw [read_natCast, List.getElem?_eq_getElem hj]

end Order

end BoostNet.Slice
