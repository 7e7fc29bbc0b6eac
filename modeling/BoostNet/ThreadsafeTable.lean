/-
`threadsafe_lookup_table` in Concurrent/day15-threadsafehash: a hash table with a
`shared_mutex` for each bucket.

`value_for`, `add_or_update_mapping` and `remove_mapping` lock the bucket of the key for
the whole of what they do, so each is one step, that needs the mutex of the bucket to be
free. `get_map` locks the buckets one after the other, one step each, then copies one bucket
after the other to a `std::map`, and unlocks. Keys have an equivalence `==`; the hash and
the order of `std::map` go with it (`Keys`).

The log has the calls in the order of their steps. An update takes effect in its step, and
`get_map` when it locks the last bucket: from there no bucket changes until it has copied all.

* `table_refines`: the table and the log, after any run.
-/
import BoostNet.History
import BoostNet.KeyedList
import BoostNet.Lts
import BoostNet.Threads
import Mathlib.Algebra.GroupWithZero.Nat
import Mathlib.Data.List.FinRange

set_option autoImplicit false

namespace BoostNet.ThreadsafeTable

open KeyedList

/-- What the table knows of its keys. -/
structure Keys (K : Type*) [BEq K] where
  hasher : K → Nat
  /-- The order of `std::map`. -/
  less : K → K → Bool
  hasher_eq : ∀ a b, (a == b) = true → hasher a = hasher b
  less_eq : ∀ a b, less a b = false → less b a = false → (a == b) = true

variable {ι K V : Type*} [BEq K] {num_buckets : Nat} [NeZero num_buckets]

/-- The index of the bucket. -/
def Keys.get_bucket (keys : Keys K) (num_buckets : Nat) [NeZero num_buckets] (key : K) :
    Fin num_buckets :=
  Fin.ofNat num_buckets (keys.hasher key)

/-! ## The log -/

inductive Event (ι K V : Type*) where
  | value_for (key : K) (default_value value : V)
  | add_or_update_mapping (key : K) (value : V)
  | remove_mapping (key : K)
  /-- `get_map` has locked the last bucket. -/
  | locked (i : ι)
  | get_map (i : ι) (res : List (K × V))

omit [BEq K] in
def Event.updates : Event ι K V → Bool
  | .add_or_update_mapping _ _ | .remove_mapping _ => true
  | .value_for _ _ _ | .locked _ | .get_map _ _ => false

/-- What the key has after an update. -/
def Event.apply (m : K → Option V) : Event ι K V → K → Option V
  | .add_or_update_mapping key value => fun key' => if key == key' then some value else m key'
  | .remove_mapping key => fun key' => if key == key' then none else m key'
  | .value_for _ _ _ | .locked _ | .get_map _ _ => m

/-- The map that the updates of a log make. -/
def abstractMap (log : List (Event ι K V)) : K → Option V :=
  log.foldl Event.apply fun _ => none

/-- `res` is the map. -/
def Represents (res : List (K × V)) (m : K → Option V) : Prop :=
  DistinctKeys res ∧ ∀ key, find res key = m key

/-- What held of the map when the thread last locked the last bucket. -/
def Snapshot (log : List (Event ι K V)) (i : ι) (P : (K → Option V) → Prop) : Prop :=
  ∃ log' later, log = log' ++ .locked i :: later ∧ Event.locked i ∉ later ∧ P (abstractMap log')

/-- What a call returns is right, after the log. -/
def Event.Right (log : List (Event ι K V)) : Event ι K V → Prop
  | .value_for key default_value value => value = (abstractMap log key).getD default_value
  | .get_map i res => Snapshot log i (Represents res)
  | .add_or_update_mapping _ _ | .remove_mapping _ | .locked _ => True

/-! ## The table -/

/-- Where a thread is. -/
inductive Pc (K V : Type*) where
  | idle
  | value_for (key : K) (default_value : V)
  | add_or_update_mapping (key : K) (value : V)
  | remove_mapping (key : K)
  /-- `get_map`: the next bucket to lock, to copy and to unlock. -/
  | lock (b : Nat)
  | copy (b : Nat) (res : List (K × V))
  | unlock (b : Nat) (res : List (K × V))

/-- `mutex` has the `get_map` that has locked the bucket. -/
structure Table (ι K V : Type*) (num_buckets : Nat) where
  data : Fin num_buckets → List (K × V) := fun _ => []
  mutex : Fin num_buckets → Option ι := fun _ => none
  pc : ι → Pc K V := fun _ => .idle
  log : List (Event ι K V) := []

variable [DecidableEq ι]

def Table.goto (s : Table ι K V num_buckets) (i : ι) (p : Pc K V) : Table ι K V num_buckets :=
  { s with pc := Function.update s.pc i p }

/-- The section of a bucket, that ends the call. -/
def Table.update (s : Table ι K V num_buckets) (i : ι) (b : Fin num_buckets)
    (data : List (K × V)) (e : Event ι K V) : Option (Table ι K V num_buckets) :=
  match s.mutex b with
  | none =>
      some { s.goto i .idle with data := Function.update s.data b data, log := s.log ++ [e] }
  | some _ => none

/-- `res.insert(*it)` for the entries of a bucket. -/
def insertAll (keys : Keys K) (res data : List (K × V)) : List (K × V) :=
  data.foldl (fun res item => insertSorted keys.less item res) res

/-- A step of a call. -/
def Table.run (keys : Keys K) (s : Table ι K V num_buckets) (i : ι) :
    Option (Table ι K V num_buckets) :=
  match s.pc i with
  | .idle => none
  | .value_for key default_value =>
      let b := keys.get_bucket num_buckets key
      s.update i b (s.data b)
        (.value_for key default_value ((find (s.data b) key).getD default_value))
  | .add_or_update_mapping key value =>
      let b := keys.get_bucket num_buckets key
      s.update i b (assign key value (s.data b)) (.add_or_update_mapping key value)
  | .remove_mapping key =>
      let b := keys.get_bucket num_buckets key
      s.update i b (unassign key (s.data b)) (.remove_mapping key)
  | .lock b =>
      if h : b < num_buckets then
        match s.mutex ⟨b, h⟩ with
        | none =>
            some { s.goto i (if b + 1 < num_buckets then .lock (b + 1) else .copy 0 []) with
              mutex := Function.update s.mutex ⟨b, h⟩ (some i)
              log := if b + 1 < num_buckets then s.log else s.log ++ [.locked i] }
        | some _ => none
      else none
  | .copy b res =>
      if h : b < num_buckets then
        some (s.goto i (.copy (b + 1) (insertAll keys res (s.data ⟨b, h⟩))))
      else some (s.goto i (.unlock 0 res))
  | .unlock b res =>
      if h : b < num_buckets then
        some { s.goto i (.unlock (b + 1) res) with mutex := Function.update s.mutex ⟨b, h⟩ none }
      else some { s.goto i .idle with log := s.log ++ [.get_map i res] }

inductive Call (K V : Type*) where
  | value_for (key : K) (default_value : V)
  | add_or_update_mapping (key : K) (value : V)
  | remove_mapping (key : K)
  | get_map

def Call.start : Call K V → Pc K V
  | .value_for key default_value => .value_for key default_value
  | .add_or_update_mapping key value => .add_or_update_mapping key value
  | .remove_mapping key => .remove_mapping key
  | .get_map => .lock 0

inductive Action (ι K V : Type*) where
  | call (i : ι) (c : Call K V)
  | run (i : ι)

def Table.step (keys : Keys K) (s : Table ι K V num_buckets) :
    Action ι K V → Option (Table ι K V num_buckets)
  | .call i c =>
      match s.pc i with
      | .idle => some (s.goto i c.start)
      | _ => none
  | .run i => s.run keys i

def system (keys : Keys K) (ι V : Type*) (num_buckets : Nat) [NeZero num_buckets]
    [DecidableEq ι] : Lts (Table ι K V num_buckets) (Action ι K V) where
  init := {}
  step := Table.step keys

omit [BEq K] [NeZero num_buckets] [DecidableEq ι] in
/-- The entries of the whole table. -/
def Table.entries (s : Table ι K V num_buckets) : List (K × V) :=
  (List.finRange num_buckets).flatMap s.data

/-- What should hold of the table. -/
structure Refines (keys : Keys K) (s : Table ι K V num_buckets) : Prop where
  unique : DistinctKeys s.entries
  /-- The table is the map that the updates so far make. -/
  map : ∀ key, find (s.data (keys.get_bucket num_buckets key)) key = abstractMap s.log key
  /-- What the calls have returned was right when they returned it. -/
  right : ∀ log e later, s.log = log ++ e :: later → e.Right log

/-! ## The invariant -/

/-- The thread has locked the bucket. -/
def Pc.Holds (b : Fin num_buckets) : Pc K V → Prop
  | .lock next => b < next
  | .copy _ _ => True
  | .unlock next _ => next ≤ b
  | .idle | .value_for _ _ | .add_or_update_mapping _ _ | .remove_mapping _ => False

/-- What a `get_map` has done. -/
def Pc.Knows (data : Fin num_buckets → List (K × V)) (log : List (Event ι K V)) (i : ι) :
    Pc K V → Prop
  | .copy next res =>
      Snapshot log i (· = abstractMap log) ∧ DistinctKeys res ∧
        ∀ item, item ∈ res ↔ ∃ b : Fin num_buckets, b < next ∧ item ∈ data b
  | .unlock _ res => Snapshot log i (Represents res)
  | .idle | .value_for _ _ | .add_or_update_mapping _ _ | .remove_mapping _ | .lock _ => True

structure Inv (keys : Keys K) (s : Table ι K V num_buckets) : Prop where
  placed : ∀ b, ∀ item ∈ s.data b, keys.get_bucket num_buckets item.1 = b
  distinct : ∀ b, DistinctKeys (s.data b)
  map : ∀ key, find (s.data (keys.get_bucket num_buckets key)) key = abstractMap s.log key
  right : ∀ log e later, s.log = log ++ e :: later → e.Right log
  mutex : ∀ b i, s.mutex b = some i ↔ (s.pc i).Holds b
  knows : ∀ i, (s.pc i).Knows s.data s.log i

variable {keys : Keys K} {s t : Table ι K V num_buckets} {i : ι} {p : Pc K V}

theorem Keys.get_bucket_eq (keys : Keys K) (num_buckets : Nat) [NeZero num_buckets] {a b : K}
    (h : (a == b) = true) :
    keys.get_bucket num_buckets a = keys.get_bucket num_buckets b := by
  rw [Keys.get_bucket, keys.hasher_eq a b h, Keys.get_bucket]

omit [DecidableEq ι] in
theorem Inv.refines (h : Inv keys s) : Refines keys s where
  unique := by
    refine List.pairwise_flatMap.mpr ⟨fun b _ => h.distinct b, ?_⟩
    refine (List.nodup_finRange num_buckets).imp fun {b b'} hne item hitem item' hitem' => ?_
    -- equal keys have the same bucket
    by_contra heq
    have hsame := keys.get_bucket_eq num_buckets (by simpa using heq)
    rw [h.placed b item hitem, h.placed b' item' hitem'] at hsame
    exact hne hsame
  map := h.map
  right := h.right

omit [DecidableEq ι] in
theorem Snapshot.append {log : List (Event ι K V)} {P : (K → Option V) → Prop} {e : Event ι K V}
    (h : Snapshot log i P) (he : e ≠ .locked i) : Snapshot (log ++ [e]) i P := by
  obtain ⟨log', later, rfl, hnot, hP⟩ := h
  refine ⟨log', later ++ [e], by rw [List.append_assoc]; rfl, ?_, hP⟩
  intro hmem
  rcases List.mem_append.mp hmem with hmem | hmem
  · exact hnot hmem
  · exact he (List.mem_singleton.mp hmem).symm

omit [DecidableEq ι] in
theorem abstractMap_append (log : List (Event ι K V)) (e : Event ι K V) :
    abstractMap (log ++ [e]) = e.apply (abstractMap log) := by
  rw [abstractMap, List.foldl_append]
  rfl

omit [DecidableEq ι] in
theorem Event.apply_of_not_updates {e : Event ι K V} (he : e.updates = false)
    (m : K → Option V) : e.apply m = m := by
  cases e with
  | add_or_update_mapping | remove_mapping => cases he
  | value_for | locked | get_map => rfl

omit [DecidableEq ι] [NeZero num_buckets] in
/-- What the other threads know outlives a step, if the step is no update while they
copy. -/
theorem Pc.Knows.append {data data' : Fin num_buckets → List (K × V)} {log : List (Event ι K V)}
    {e : Event ι K V} (h : p.Knows data log i) (he : e ≠ .locked i)
    (hcopy : (∃ next res, p = .copy next res) → data' = data ∧ e.updates = false) :
    p.Knows data' (log ++ [e]) i := by
  cases p with
  | copy next res =>
      obtain ⟨hsnapshot, hres⟩ := h
      obtain ⟨rfl, hupdates⟩ := hcopy ⟨next, res, rfl⟩
      refine ⟨?_, hres⟩
      rw [abstractMap_append, Event.apply_of_not_updates hupdates]
      exact hsnapshot.append he
  | unlock next res => exact Snapshot.append h he
  | _ => trivial

/-! ## The steps -/

omit [BEq K] [NeZero num_buckets] in
/-- A thread moves, and may lock or unlock a bucket `b` with it. -/
theorem holds_update {mutex : Fin num_buckets → Option ι} {pc : ι → Pc K V}
    (h : ∀ b j, mutex b = some j ↔ (pc j).Holds b) {b : Fin num_buckets} {m : Option ι}
    (hother : ∀ b', b' ≠ b → (p.Holds b' ↔ (pc i).Holds b'))
    (hself : m = some i ↔ p.Holds b) (hrest : ∀ j, j ≠ i → (m = some j ↔ (pc j).Holds b)) :
    ∀ b' j, Function.update mutex b m b' = some j ↔ (Function.update pc i p j).Holds b' := by
  intro b' j
  by_cases hb : b' = b
  · rw [hb, Function.update_self]
    by_cases hj : j = i
    · rw [hj, Function.update_self]
      exact hself
    · rw [Function.update_of_ne hj]
      exact hrest j hj
  · rw [Function.update_of_ne hb, h]
    by_cases hj : j = i
    · rw [hj, Function.update_self]
      exact (hother b' hb).symm
    · rw [Function.update_of_ne hj]

/-- A thread moves, and locks and unlocks nothing. -/
theorem Inv.holds (h : Inv keys s)
    (hp : ∀ b : Fin num_buckets, p.Holds b ↔ (s.pc i).Holds b) (b : Fin num_buckets) (j : ι) :
    s.mutex b = some j ↔ (Function.update s.pc i p j).Holds b := by
  rw [h.mutex]
  by_cases hj : j = i
  · rw [hj, Function.update_self, hp]
  · rw [Function.update_of_ne hj]

/-- What the threads know after the step of one of them. -/
theorem Inv.knows_update (h : Inv keys s) {data : Fin num_buckets → List (K × V)}
    {e : Event ι K V} (hp : p.Knows data (s.log ++ [e]) i)
    (he : ∀ j, j ≠ i → e ≠ .locked j)
    (hcopy : ∀ j, j ≠ i → (∃ next res, s.pc j = .copy next res) →
      data = s.data ∧ e.updates = false) :
    ∀ j, (Function.update s.pc i p j).Knows data (s.log ++ [e]) j := by
  intro j
  by_cases hj : j = i
  · rw [hj, Function.update_self]
    exact hp
  · rw [Function.update_of_ne hj]
    exact (h.knows j).append (he j hj) (hcopy j hj)

/-- A step within a call. -/
theorem Inv.goto (h : Inv keys s)
    (hp : ∀ b : Fin num_buckets, p.Holds b ↔ (s.pc i).Holds b)
    (hknows : p.Knows s.data s.log i) : Inv keys (s.goto i p) := by
  refine ⟨h.placed, h.distinct, h.map, h.right, h.holds hp, fun j => ?_⟩
  by_cases hj : j = i
  · rw [hj, show (s.goto i p).pc i = p from Function.update_self ..]
    exact hknows
  · rw [show (s.goto i p).pc j = _ from Function.update_of_ne hj ..]
    exact h.knows j

/-- The section of a bucket. Nobody who has to copy it is copying. -/
theorem Inv.update (h : Inv keys s) {b : Fin num_buckets} {data : List (K × V)}
    {e : Event ι K V} (hstep : s.update i b data e = some t)
    (hpc : ∀ b : Fin num_buckets, ¬ (s.pc i).Holds b)
    (hplaced : ∀ item ∈ data, keys.get_bucket num_buckets item.1 = b)
    (hdistinct : DistinctKeys data) (he : ∀ j, e ≠ .locked j) (hright : e.Right s.log)
    (hmap : ∀ key, find (Function.update s.data b data (keys.get_bucket num_buckets key)) key =
      e.apply (abstractMap s.log) key) : Inv keys t := by
  unfold Table.update at hstep
  cases hmutex : s.mutex b <;> simp only [hmutex, reduceCtorEq, Option.some.injEq] at hstep
  subst hstep
  refine ⟨?_, ?_, ?_, forall_split_append h.right hright, h.holds ?_, h.knows_update trivial ?_ ?_⟩
  · intro b' item hitem
    change item ∈ Function.update s.data b data b' at hitem
    by_cases hb : b' = b
    · rw [hb, Function.update_self] at hitem
      rw [hb]
      exact hplaced item hitem
    · rw [Function.update_of_ne hb] at hitem
      exact h.placed b' item hitem
  · intro b'
    show DistinctKeys (Function.update s.data b data b')
    by_cases hb : b' = b
    · rw [hb, Function.update_self]
      exact hdistinct
    · rw [Function.update_of_ne hb]
      exact h.distinct b'
  · intro key
    show _ = abstractMap (s.log ++ [e]) key
    rw [abstractMap_append]
    exact hmap key
  · exact fun b' => iff_of_false (by rintro ⟨⟩) (hpc b')
  · exact fun j _ => he j
  · rintro j - ⟨next, res, hj⟩
    -- who copies holds every bucket
    have hholds : s.mutex b = some j := (h.mutex b j).mpr (by rw [hj]; trivial)
    rw [hmutex] at hholds
    cases hholds

omit [DecidableEq ι] in
/-- The bucket of the key changes at the key only, and so does the map. -/
theorem Inv.find_update (h : Inv keys s) {key : K} {data : List (K × V)} {value : Option V}
    (hfind : ∀ key', find data key' =
      if key == key' then value else find (s.data (keys.get_bucket num_buckets key)) key')
    (key' : K) :
    find (Function.update s.data (keys.get_bucket num_buckets key) data
      (keys.get_bucket num_buckets key')) key' =
      if key == key' then value else abstractMap s.log key' := by
  by_cases hb : keys.get_bucket num_buckets key' = keys.get_bucket num_buckets key
  · rw [hb, Function.update_self, hfind, ← hb, h.map]
  · rw [Function.update_of_ne hb, h.map, if_neg]
    exact fun heq => hb (keys.get_bucket_eq _ heq).symm

omit [DecidableEq ι] in
theorem Inv.not_holds (h : Inv keys s) {b : Fin num_buckets} (hmutex : s.mutex b = none) (j : ι) :
    ¬ (s.pc j).Holds b := by
  intro hholds
  rw [(h.mutex b j).mpr hholds] at hmutex
  cases hmutex

/-- A thread locks a bucket, and goes on to `p`. -/
theorem Inv.holds_lock (h : Inv keys s) {b : Fin num_buckets} (hmutex : s.mutex b = none)
    (hother : ∀ b', b' ≠ b → (p.Holds b' ↔ (s.pc i).Holds b')) (hp : p.Holds b) :
    ∀ b' j, Function.update s.mutex b (some i) b' = some j ↔
      (Function.update s.pc i p j).Holds b' := by
  refine holds_update h.mutex hother (iff_of_true rfl hp) fun j hj => ?_
  exact iff_of_false (fun heq => hj (Option.some.inj heq).symm) (h.not_holds hmutex j)

/-- `get_map` locks a bucket that is not the last. -/
theorem Inv.lock (h : Inv keys s) {b : Nat} (hpc : s.pc i = .lock b) (hb : b < num_buckets)
    (hmutex : s.mutex ⟨b, hb⟩ = none) :
    Inv keys { s.goto i (.lock (b + 1)) with
      mutex := Function.update s.mutex ⟨b, hb⟩ (some i) } := by
  refine ⟨h.placed, h.distinct, h.map, h.right,
    h.holds_lock hmutex (fun b' hb' => ?_) (Nat.lt_succ_self b), fun j => ?_⟩
  · rw [hpc]
    have hne : b'.val ≠ b := fun heq => hb' (Fin.ext heq)
    show b'.val < b + 1 ↔ b'.val < b
    omega
  · show (Function.update s.pc i (.lock (b + 1)) j).Knows s.data s.log j
    by_cases hj : j = i
    · rw [hj, Function.update_self]
      trivial
    · rw [Function.update_of_ne hj]
      exact h.knows j

/-- `get_map` locks the last bucket. -/
theorem Inv.lock_last (h : Inv keys s) {b : Nat} (hpc : s.pc i = .lock b) (hb : b < num_buckets)
    (hlast : ¬ b + 1 < num_buckets) (hmutex : s.mutex ⟨b, hb⟩ = none) :
    Inv keys { s.goto i (.copy 0 []) with
      mutex := Function.update s.mutex ⟨b, hb⟩ (some i)
      log := s.log ++ [.locked i] } := by
  have hmap : abstractMap (s.log ++ [.locked i]) = abstractMap s.log := abstractMap_append ..
  refine ⟨h.placed, h.distinct, ?_, forall_split_append h.right trivial,
    h.holds_lock hmutex (fun b' hb' => ?_) trivial,
    h.knows_update ⟨⟨s.log, [], rfl, List.not_mem_nil, hmap.symm⟩, List.Pairwise.nil, ?_⟩ ?_ ?_⟩
  · intro key
    exact (h.map key).trans (congrFun hmap.symm key)
  · rw [hpc]
    have hne : b'.val ≠ b := fun heq => hb' (Fin.ext heq)
    have hlt := b'.isLt
    show True ↔ b'.val < b
    exact iff_of_true trivial (by omega)
  · intro item
    refine iff_of_false List.not_mem_nil ?_
    rintro ⟨b', hb', -⟩
    exact Nat.not_lt_zero _ hb'
  · intro j hj heq
    cases heq
    exact hj rfl
  · exact fun j _ _ => ⟨rfl, rfl⟩

variable [EquivBEq K]

/-- `get_map` copies a bucket. -/
theorem Inv.copy (h : Inv keys s) {b : Nat} {res : List (K × V)} (hpc : s.pc i = .copy b res)
    (hb : b < num_buckets) :
    Inv keys (s.goto i (.copy (b + 1) (insertAll keys res (s.data ⟨b, hb⟩)))) := by
  have hknows := h.knows i
  rw [hpc] at hknows
  obtain ⟨hsnapshot, hdistinct, hres⟩ := hknows
  -- the entries of this bucket have other keys than those of the buckets before it
  have hnew : DistinctKeys (res ++ s.data ⟨b, hb⟩) := by
    refine List.pairwise_append.mpr ⟨hdistinct, h.distinct _, fun item hitem item' hitem' => ?_⟩
    obtain ⟨b', hb', hmem⟩ := (hres item).mp hitem
    by_contra heq
    have hsame := keys.get_bucket_eq num_buckets (by simpa using heq)
    rw [h.placed b' item hmem, h.placed _ item' hitem'] at hsame
    rw [hsame] at hb'
    exact Nat.lt_irrefl b hb'
  have hperm := foldl_insertSorted_perm keys.less_eq hnew
  refine h.goto (fun _ => by rw [hpc]; rfl) ⟨hsnapshot, hnew.perm hperm.symm, fun item => ?_⟩
  rw [insertAll, hperm.mem_iff, List.mem_append, hres]
  constructor
  · rintro (⟨b', hb', hmem⟩ | hmem)
    · exact ⟨b', Nat.lt_succ_of_lt hb', hmem⟩
    · exact ⟨⟨b, hb⟩, Nat.lt_succ_self b, hmem⟩
  · rintro ⟨b', hb', hmem⟩
    rcases Nat.lt_succ_iff_lt_or_eq.mp hb' with hlt | heq
    · exact Or.inl ⟨b', hlt, hmem⟩
    · rw [show b' = ⟨b, hb⟩ from Fin.ext heq] at hmem
      exact Or.inr hmem

/-- `get_map` has copied all buckets: what it has is the map. -/
theorem Inv.copied (h : Inv keys s) {b : Nat} {res : List (K × V)} (hpc : s.pc i = .copy b res)
    (hb : ¬ b < num_buckets) : Inv keys (s.goto i (.unlock 0 res)) := by
  have hknows := h.knows i
  rw [hpc] at hknows
  obtain ⟨⟨log', later, hlog, hnot, hmap⟩, hdistinct, hres⟩ := hknows
  refine h.goto (fun b' => by rw [hpc]; exact iff_of_true (Nat.zero_le _) trivial) ?_
  refine ⟨log', later, hlog, hnot, hdistinct, fun key => ?_⟩
  rw [hmap, ← h.map]
  refine find_congr hdistinct (h.distinct _) fun item hkey => ?_
  rw [hres]
  constructor
  · rintro ⟨b', -, hmem⟩
    rw [← keys.get_bucket_eq _ hkey, h.placed b' item hmem]
    exact hmem
  · intro hmem
    exact ⟨_, by have hlt := (keys.get_bucket num_buckets key).isLt; omega, hmem⟩

omit [EquivBEq K] in
/-- `get_map` unlocks a bucket. -/
theorem Inv.unlock (h : Inv keys s) {b : Nat} {res : List (K × V)} (hpc : s.pc i = .unlock b res)
    (hb : b < num_buckets) :
    Inv keys { s.goto i (.unlock (b + 1) res) with
      mutex := Function.update s.mutex ⟨b, hb⟩ none } := by
  have hmutex : s.mutex ⟨b, hb⟩ = some i := (h.mutex _ i).mpr (by rw [hpc]; exact Nat.le_refl b)
  refine ⟨h.placed, h.distinct, h.map, h.right, holds_update h.mutex ?_ ?_ ?_, fun j => ?_⟩
  · intro b' hb'
    rw [hpc]
    have hne : b'.val ≠ b := fun heq => hb' (Fin.ext heq)
    show b + 1 ≤ b'.val ↔ b ≤ b'.val
    omega
  · exact iff_of_false (by rintro ⟨⟩) (Nat.not_succ_le_self b)
  · intro j hj
    refine iff_of_false (by rintro ⟨⟩) fun hholds => hj ?_
    exact Option.some.inj (((h.mutex _ j).mpr hholds).symm.trans hmutex)
  · show (Function.update s.pc i (.unlock (b + 1) res) j).Knows s.data s.log j
    have hknows := h.knows i
    rw [hpc] at hknows
    by_cases hj : j = i
    · rw [hj, Function.update_self]
      exact hknows
    · rw [Function.update_of_ne hj]
      exact h.knows j

omit [EquivBEq K] in
/-- `get_map` returns. -/
theorem Inv.return (h : Inv keys s) {b : Nat} {res : List (K × V)} (hpc : s.pc i = .unlock b res)
    (hb : ¬ b < num_buckets) :
    Inv keys { s.goto i .idle with log := s.log ++ [.get_map i res] } := by
  have hknows := h.knows i
  rw [hpc] at hknows
  refine ⟨h.placed, h.distinct, ?_, forall_split_append h.right hknows, h.holds fun b' => ?_,
    h.knows_update trivial (by rintro j - ⟨⟩) fun j _ _ => ⟨rfl, rfl⟩⟩
  · intro key
    exact (h.map key).trans (congrFun (abstractMap_append s.log (.get_map i res)).symm key)
  · rw [hpc]
    exact iff_of_false (by rintro ⟨⟩) fun hle => hb (Nat.lt_of_le_of_lt hle b'.isLt)

/-- A step of a call keeps the invariant. -/
theorem inv_run (h : Inv keys s) (hstep : s.run keys i = some t) : Inv keys t := by
  unfold Table.run at hstep
  cases hpc : s.pc i with
  | idle => simp only [hpc, reduceCtorEq] at hstep
  | value_for key default_value =>
      simp only [hpc] at hstep
      refine h.update hstep (by rw [hpc]; exact fun _ => id) (h.placed _) (h.distinct _)
        (by rintro j ⟨⟩) ?_ fun key' => ?_
      · show Option.getD _ _ = _
        rw [h.map]
      · rw [Function.update_eq_self]
        exact h.map key'
  | add_or_update_mapping key value =>
      simp only [hpc] at hstep
      refine h.update hstep (by rw [hpc]; exact fun _ => id) ?_ (distinctKeys_assign (h.distinct _))
        (by rintro j ⟨⟩) trivial (h.find_update fun key' => find_assign ..)
      intro item hitem
      rcases key_of_mem_assign hitem with hkey | ⟨item', hitem', hkey⟩
      · rw [hkey]
      · rw [← hkey]
        exact h.placed _ item' hitem'
  | remove_mapping key =>
      simp only [hpc] at hstep
      refine h.update hstep (by rw [hpc]; exact fun _ => id) ?_
        (distinctKeys_unassign (h.distinct _)) (by rintro j ⟨⟩) trivial
        (h.find_update fun key' => find_unassign key key' (h.distinct _))
      intro item hitem
      exact h.placed _ item (List.mem_of_mem_eraseP hitem)
  | lock b =>
      simp only [hpc] at hstep
      split at hstep
      · next hb =>
          split at hstep
          · next hmutex =>
              by_cases hlast : b + 1 < num_buckets
              · rw [if_pos hlast, if_pos hlast] at hstep
                cases hstep
                exact h.lock hpc hb hmutex
              · rw [if_neg hlast, if_neg hlast] at hstep
                cases hstep
                exact h.lock_last hpc hb hlast hmutex
          · cases hstep
      · cases hstep
  | copy b res =>
      simp only [hpc] at hstep
      split at hstep
      · next hb =>
          cases hstep
          exact h.copy hpc hb
      · next hb =>
          cases hstep
          exact h.copied hpc hb
  | unlock b res =>
      simp only [hpc] at hstep
      split at hstep
      · next hb =>
          cases hstep
          exact h.unlock hpc hb
      · next hb =>
          cases hstep
          exact h.return hpc hb

theorem inv_step {a : Action ι K V} (h : Inv keys s)
    (hstep : (system keys ι V num_buckets).step s a = some t) : Inv keys t := by
  change Table.step keys s a = some t at hstep
  cases a with
  | call i c =>
      cases hpc : s.pc i <;> simp only [Table.step, hpc, reduceCtorEq, Option.some.injEq] at hstep
      subst hstep
      refine h.goto (fun b => ?_) ?_
      · rw [hpc]
        cases c <;> first | exact Iff.rfl | exact iff_of_false (Nat.not_lt_zero _) id
      · cases c <;> trivial
  | run i => exact inv_run h hstep

omit [EquivBEq K] [DecidableEq ι] in
theorem inv_init (keys : Keys K) : Inv keys ({} : Table ι K V num_buckets) where
  placed _ _ hitem := absurd hitem List.not_mem_nil
  distinct _ := List.Pairwise.nil
  map _ := rfl
  right := forall_split_nil
  mutex _ _ := iff_of_false (by rintro ⟨⟩) id
  knows _ := trivial

end BoostNet.ThreadsafeTable
