/-
Lists of entries, each a key with its value, for any equivalence of the keys. Nothing here
names a component.

* `DistinctKeys`: no two entries have the same key. `mem_iff_find` says that a search
  then finds what there is.
* `assign`, `unassign`: an entry is found and changed, or added at the end; an entry is
  found and erased. What a search finds afterwards is `find_assign`, `find_unassign`.
* `insertSorted`: the insertion of an ordered map, that ignores a key it has.
  `foldl_insertSorted_perm` says what is in the map once entries with new keys are inserted.
-/
import Mathlib.Data.List.Basic

set_option autoImplicit false

namespace BoostNet.KeyedList

variable {K V : Type*} [BEq K]

/-! ## Searches -/

/-- The value of the first entry with the key. -/
def find (entries : List (K × V)) (key : K) : Option V :=
  (entries.find? fun item => item.1 == key).map Prod.snd

@[simp] theorem find_nil (key : K) : find ([] : List (K × V)) key = none := rfl

theorem find_cons (item : K × V) (entries : List (K × V)) (key : K) :
    find (item :: entries) key = if item.1 == key then some item.2 else find entries key := by
  rw [find, List.find?_cons]
  split
  · next h => rw [h]; rfl
  · next h => rw [h]; rfl

/-- No two entries have the same key. -/
def DistinctKeys (entries : List (K × V)) : Prop :=
  entries.Pairwise fun item item' => (item.1 == item'.1) = false

theorem mem_of_find {entries : List (K × V)} {key : K} {value : V}
    (h : find entries key = some value) :
    ∃ item ∈ entries, (item.1 == key) = true ∧ item.2 = value := by
  obtain ⟨item, hitem, hvalue⟩ := Option.map_eq_some_iff.mp h
  exact ⟨item, List.mem_of_find?_eq_some hitem, by simpa using List.find?_some hitem, hvalue⟩

variable [EquivBEq K]

theorem find_of_mem {entries : List (K × V)} (hdistinct : DistinctKeys entries) {key : K}
    {item : K × V} (hitem : item ∈ entries) (hkey : (item.1 == key) = true) :
    find entries key = some item.2 := by
  induction entries with
  | nil => cases hitem
  | cons first rest ih =>
      obtain ⟨hfirst, hrest⟩ := List.pairwise_cons.mp hdistinct
      rcases List.mem_cons.mp hitem with rfl | hmem
      · rw [find_cons, if_pos hkey]
      · have hne : (first.1 == key) = false := by
          rw [← BEq.congr_right hkey]
          exact hfirst item hmem
        rw [find_cons, hne, if_neg Bool.false_ne_true]
        exact ih hrest hmem

/-- Where the keys are distinct a search finds what there is. -/
theorem find_iff_mem {entries : List (K × V)} (hdistinct : DistinctKeys entries) {key : K}
    {value : V} :
    find entries key = some value ↔
      ∃ item ∈ entries, (item.1 == key) = true ∧ item.2 = value := by
  constructor
  · exact mem_of_find
  · rintro ⟨item, hitem, hkey, rfl⟩
    exact find_of_mem hdistinct hitem hkey

/-- Two lists with the same entries give the same, the keys being distinct. -/
theorem find_congr {entries entries' : List (K × V)} (h : DistinctKeys entries)
    (h' : DistinctKeys entries') {key : K}
    (hmem : ∀ item : K × V, (item.1 == key) = true → (item ∈ entries ↔ item ∈ entries')) :
    find entries key = find entries' key := by
  apply Option.ext
  intro value
  rw [find_iff_mem h, find_iff_mem h']
  constructor
  · rintro ⟨item, hitem, hkey, hvalue⟩
    exact ⟨item, (hmem item hkey).mp hitem, hkey, hvalue⟩
  · rintro ⟨item, hitem, hkey, hvalue⟩
    exact ⟨item, (hmem item hkey).mpr hitem, hkey, hvalue⟩

/-! ## Changes -/

omit [EquivBEq K] in
/-- The first entry with the key gets the value; if there is none, one is added. -/
def assign (key : K) (value : V) : List (K × V) → List (K × V)
  | [] => [(key, value)]
  | item :: rest =>
      if item.1 == key then (item.1, value) :: rest else item :: assign key value rest

omit [EquivBEq K] in
/-- The first entry with the key is erased. -/
def unassign (key : K) (entries : List (K × V)) : List (K × V) :=
  entries.eraseP fun item => item.1 == key

omit [EquivBEq K] in
theorem key_of_mem_assign {key : K} {value : V} {entries : List (K × V)} {item : K × V}
    (h : item ∈ assign key value entries) :
    item.1 = key ∨ ∃ item' ∈ entries, item'.1 = item.1 := by
  induction entries with
  | nil => exact Or.inl (by rw [List.mem_singleton.mp h])
  | cons first rest ih =>
      rw [assign] at h
      split at h
      · rcases List.mem_cons.mp h with rfl | hmem
        · exact Or.inr ⟨first, List.mem_cons_self, rfl⟩
        · exact Or.inr ⟨item, List.mem_cons_of_mem _ hmem, rfl⟩
      · rcases List.mem_cons.mp h with rfl | hmem
        · exact Or.inr ⟨item, List.mem_cons_self, rfl⟩
        · rcases ih hmem with hkey | ⟨item', hitem', hkey⟩
          · exact Or.inl hkey
          · exact Or.inr ⟨item', List.mem_cons_of_mem _ hitem', hkey⟩

omit [EquivBEq K] in
theorem distinctKeys_assign {key : K} {value : V} {entries : List (K × V)}
    (h : DistinctKeys entries) : DistinctKeys (assign key value entries) := by
  induction entries with
  | nil => exact List.pairwise_singleton _ _
  | cons first rest ih =>
      obtain ⟨hfirst, hrest⟩ := List.pairwise_cons.mp h
      rw [assign]
      split
      · exact List.pairwise_cons.mpr ⟨hfirst, hrest⟩
      · next hne =>
          refine List.pairwise_cons.mpr ⟨fun item hitem => ?_, ih hrest⟩
          rcases key_of_mem_assign hitem with hkey | ⟨item', hitem', hkey⟩
          · rw [hkey]
            exact Bool.not_eq_true _ ▸ hne
          · rw [← hkey]
            exact hfirst item' hitem'

theorem find_assign (key key' : K) (value : V) (entries : List (K × V)) :
    find (assign key value entries) key' =
      if key == key' then some value else find entries key' := by
  induction entries with
  | nil => simp only [assign, find_cons, find_nil]
  | cons first rest ih =>
      cases hfirst : first.1 == key with
      | true =>
          -- the entry has the key, so it has the other one exactly if that is the same
          simp only [assign, hfirst, if_true, find_cons, BEq.congr_left hfirst]
          split <;> rfl
      | false =>
          simp only [assign, hfirst, Bool.false_eq_true, if_false, find_cons, ih]
          split
          · next hkey =>
              have hne : (key == key') = false := by
                rw [BEq.comm, ← BEq.congr_left hkey]
                exact hfirst
              rw [hne, if_neg Bool.false_ne_true]
          · rfl

omit [EquivBEq K] in
theorem unassign_cons (key : K) (item : K × V) (entries : List (K × V)) :
    unassign key (item :: entries) =
      if item.1 == key then entries else item :: unassign key entries := by
  rw [unassign, List.eraseP_cons]
  cases item.1 == key <;> rfl

omit [EquivBEq K] in
theorem distinctKeys_unassign {key : K} {entries : List (K × V)} (h : DistinctKeys entries) :
    DistinctKeys (unassign key entries) :=
  List.Pairwise.sublist (List.eraseP_sublist ..) h

theorem find_unassign (key key' : K) {entries : List (K × V)} (h : DistinctKeys entries) :
    find (unassign key entries) key' = if key == key' then none else find entries key' := by
  induction entries with
  | nil => exact (ite_self _).symm
  | cons first rest ih =>
      obtain ⟨hdistinct, hrest⟩ := List.pairwise_cons.mp h
      cases hfirst : first.1 == key with
      | true =>
          rw [unassign_cons, if_pos hfirst, find_cons, BEq.congr_left hfirst]
          split
          · next hkey =>
              -- another entry with the key would not be distinct from the first
              by_contra hne
              obtain ⟨value, hvalue⟩ := Option.ne_none_iff_exists'.mp hne
              obtain ⟨item, hitem, hitem_key, -⟩ := mem_of_find hvalue
              have heq := BEq.trans (BEq.trans hfirst hkey) (BEq.symm hitem_key)
              rw [hdistinct item hitem] at heq
              cases heq
          · rfl
      | false =>
          rw [unassign_cons, hfirst, if_neg Bool.false_ne_true, find_cons, find_cons]
          split
          · next hkey =>
              have hne : (key == key') = false := by
                rw [BEq.comm, ← BEq.congr_left hkey]
                exact hfirst
              rw [hne, if_neg Bool.false_ne_true]
          · exact ih hrest

/-! ## Ordered maps -/

omit [BEq K] [EquivBEq K] in
/-- The insertion of `std::map`: before the first key that is greater, and not at all if
the key is there. -/
def insertSorted (less : K → K → Bool) (item : K × V) : List (K × V) → List (K × V)
  | [] => [item]
  | first :: rest =>
      if less item.1 first.1 then item :: first :: rest
      else if less first.1 item.1 then first :: insertSorted less item rest
      else first :: rest

omit [EquivBEq K] in
/-- A key that is not there yet is inserted. -/
theorem insertSorted_perm {less : K → K → Bool}
    (hless : ∀ a b, less a b = false → less b a = false → (a == b) = true) {item : K × V}
    {entries : List (K × V)} (hnew : ∀ item' ∈ entries, (item'.1 == item.1) = false) :
    (insertSorted less item entries).Perm (item :: entries) := by
  induction entries with
  | nil => exact List.Perm.refl _
  | cons first rest ih =>
      rw [insertSorted]
      split
      · exact List.Perm.refl _
      · next hlt =>
          split
          · exact ((ih fun item' h => hnew item' (List.mem_cons_of_mem _ h)).cons first).trans
              (List.Perm.swap ..)
          · next hgt =>
              have heq := hless first.1 item.1 (Bool.not_eq_true _ ▸ hgt) (Bool.not_eq_true _ ▸ hlt)
              rw [hnew first List.mem_cons_self] at heq
              cases heq

theorem DistinctKeys.perm {entries entries' : List (K × V)} (h : DistinctKeys entries)
    (hperm : entries.Perm entries') : DistinctKeys entries' :=
  (hperm.pairwise_iff fun hne => by rwa [BEq.comm]).mp h

/-- The entries of two lists, that have no key in common, are inserted into one map. -/
theorem foldl_insertSorted_perm {less : K → K → Bool}
    (hless : ∀ a b, less a b = false → less b a = false → (a == b) = true)
    {res entries : List (K × V)} (hdistinct : DistinctKeys (res ++ entries)) :
    (entries.foldl (fun res item => insertSorted less item res) res).Perm (res ++ entries) := by
  induction entries generalizing res with
  | nil =>
      rw [List.append_nil]
      exact List.Perm.refl _
  | cons item rest ih =>
      have hnew : ∀ item' ∈ res, (item'.1 == item.1) = false := by
        intro item' hitem'
        exact (List.pairwise_append.mp hdistinct).2.2 item' hitem' item List.mem_cons_self
      have hinsert := insertSorted_perm hless hnew
      have hperm : (res ++ item :: rest).Perm (insertSorted less item res ++ rest) :=
        List.perm_middle.trans (hinsert.symm.append_right rest)
      exact (ih (hdistinct.perm hperm)).trans hperm.symm

end BoostNet.KeyedList
