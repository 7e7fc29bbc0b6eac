/-
The parallel sort of Concurrent/day19-parallensort (sorter.h): a call of `do_sort` pushes
its lower chunk on a stack, sorts the higher one itself, and then, until the lower one is
ready, takes chunks from the stack and sorts them.

A thread is the calls that it is in (`Call`, the innermost first), under a chunk if it is a
helper (`job`), and what the innermost one does next (`Pc`). A call that waits may sort a chunk
on top of its wait. Helpers start at any time, any number of them, and `end_of_data` is
not set before the first call has returned. A push, a pop, a test of a future and the
fulfilment of a promise are one step each. A chunk is the number of its push.

A chunk that a call waits for was pushed later than the chunks below the call were taken,
so it has a higher number than they have. That is why of all the chunks that are being
sorted the one with the highest number is not held up.

* `helping_sort`: the progress, the chunks and the result, after any run; and how many steps there
  are that are not idle, so that the list is returned.
-/
import Mathlib.Algebra.Order.BigOperators.Group.Finset
import Mathlib.Data.Fintype.BigOperators
import Mathlib.Data.Fintype.Card
import Mathlib.Data.Fintype.Option
import BoostNet.Lts
import BoostNet.QuickSort
import BoostNet.Threads

set_option autoImplicit false

namespace BoostNet.HelpingSorter

open QuickSort

variable {T ι : Type*}

/-! ## The system -/

/-- A call of `do_sort`, not the innermost one of its thread. -/
inductive Call (T : Type*) where
  /-- It sorts its higher chunk. -/
  | higher (result : List T) (new_lower : Nat)
  /-- It waits, and its thread sorts `chunk` in the meantime. -/
  | waiting (result : List T) (new_lower chunk : Nat)

/-- What a thread does next. `job` is the chunk that a helper has taken, and `none` for the
caller of `parallel_quick_sort`. -/
inductive Pc (T : Type*) where
  /-- The helper has not started. -/
  | off
  /-- `sort_thread`. -/
  | sort_thread
  | do_sort (job : Option Nat) (chunk_data : List T) (calls : List (Call T))
  | wait_for (job : Option Nat) (result : List T) (new_lower : Nat) (calls : List (Call T))
  | try_sort_chunk (job : Option Nat) (result : List T) (new_lower : Nat) (calls : List (Call T))
  | ret (job : Option Nat) (value : List T) (calls : List (Call T))

/-- `pushed` is all that has been pushed on `chunks`, and `taken` who has taken what. The
thread `none` is the caller. -/
structure Sys (T ι : Type*) where
  chunks : List (Nat × List T) := []
  promises : Nat → Option (List T) := fun _ => none
  pc : Option ι → Pc T
  pushed : List (List T) := []
  taken : List (Nat × Option ι) := []

variable [DecidableEq ι]

def Sys.goto (s : Sys T ι) (i : Option ι) (p : Pc T) : Sys T ι :=
  { s with pc := Function.update s.pc i p }

/-- `set_value`, that throws if the promise has a value. -/
def Sys.set_value (s : Sys T ι) (i : Option ι) (chunk : Nat) (value : List T) (p : Pc T) :
    Option (Sys T ι) :=
  match s.promises chunk with
  | none => some { s.goto i p with promises := Function.update s.promises chunk (some value) }
  | some _ => none

/-- A step of a thread. -/
def Sys.run [LT T] (part : Partition T) (s : Sys T ι) (i : Option ι) : Option (Sys T ι) :=
  match s.pc i with
  | .off => none
  | .sort_thread =>
      match s.chunks with
      | [] => some (s.goto i .sort_thread)
      | (chunk, chunk_data) :: rest =>
          some { s.goto i (.do_sort (some chunk) chunk_data []) with
            chunks := rest
            taken := s.taken ++ [(chunk, i)] }
  | .do_sort job [] calls => some (s.goto i (.ret job [] calls))
  | .do_sort job (p :: chunk_data) calls =>
      some { s.goto i (.do_sort job (part.higher_chunk p chunk_data)
          (.higher [p] s.pushed.length :: calls)) with
        chunks := (s.pushed.length, part.lower_chunk p chunk_data) :: s.chunks
        pushed := s.pushed ++ [part.lower_chunk p chunk_data] }
  | .wait_for job result new_lower calls =>
      match s.promises new_lower with
      | none => some (s.goto i (.try_sort_chunk job result new_lower calls))
      | some lower => some (s.goto i (.ret job (lower ++ result) calls))
  | .try_sort_chunk job result new_lower calls =>
      match s.chunks with
      | [] => some (s.goto i (.wait_for job result new_lower calls))
      | (chunk, chunk_data) :: rest =>
          some { s.goto i (.do_sort job chunk_data (.waiting result new_lower chunk :: calls)) with
            chunks := rest
            taken := s.taken ++ [(chunk, i)] }
  | .ret job new_higher (.higher result new_lower :: calls) =>
      some (s.goto i (.wait_for job (result ++ new_higher) new_lower calls))
  | .ret job value (.waiting result new_lower chunk :: calls) =>
      s.set_value i chunk value (.wait_for job result new_lower calls)
  | .ret (some chunk) value [] => s.set_value i chunk value .sort_thread
  | .ret none _ [] => none

inductive Action (ι : Type*) where
  /-- A helper is started. -/
  | start (i : ι)
  | run (i : Option ι)

def Sys.step [LT T] (part : Partition T) (s : Sys T ι) : Action ι → Option (Sys T ι)
  | .start i =>
      match s.pc (some i) with
      | .off => some (s.goto (some i) .sort_thread)
      | _ => none
  | .run i => s.run part i

/-- `parallel_quick_sort(input)`, with the helpers `ι`. -/
def system [LT T] (part : Partition T) (ι : Type*) [DecidableEq ι] (input : List T) :
    Lts (Sys T ι) (Action ι) where
  init := { pc := fun i => i.elim (.do_sort none input []) fun _ => .off }
  step := Sys.step part

/-! ## What should hold -/

/-- The first call has returned the value. -/
def Sys.Returned (s : Sys T ι) (value : List T) : Prop := s.pc none = .ret none value []

/-- All the thread can do is to test a future that is not ready, or nothing, and to find no
chunk. -/
def Sys.Idles (s : Sys T ι) (i : Option ι) : Prop :=
  s.chunks = [] ∧
    match s.pc i with
    | .sort_thread => True
    | .wait_for _ _ new_lower _ | .try_sort_chunk _ _ new_lower _ => s.promises new_lower = none
    | .off | .do_sort _ _ _ | .ret _ _ _ => False

def Sys.idles (s : Sys T ι) (i : Option ι) : Bool :=
  s.chunks.isEmpty &&
    match s.pc i with
    | .sort_thread => true
    | .wait_for _ _ new_lower _ | .try_sort_chunk _ _ new_lower _ => (s.promises new_lower).isNone
    | .off | .do_sort _ _ _ | .ret _ _ _ => false

omit [DecidableEq ι] in
theorem Sys.idles_iff (s : Sys T ι) (i : Option ι) : s.idles i = true ↔ s.Idles i := by
  unfold Sys.idles Sys.Idles
  rw [Bool.and_eq_true, List.isEmpty_iff]
  refine and_congr_right fun _ => ?_
  cases s.pc i with
  | sort_thread => exact iff_of_true rfl trivial
  | wait_for _ _ new_lower _ | try_sort_chunk _ _ new_lower _ => exact Option.isNone_iff_eq_none
  | off | do_sort _ _ _ | ret _ _ _ => exact iff_of_false Bool.false_ne_true id

instance (s : Sys T ι) (i : Option ι) : Decidable (s.Idles i) :=
  decidable_of_iff _ (s.idles_iff i)

/-- The step is not an idle one. -/
def Action.Busy (s : Sys T ι) : Action ι → Prop
  | .start _ => True
  | .run i => ¬ s.Idles i

instance (s : Sys T ι) (a : Action ι) : Decidable (a.Busy s) :=
  match a with
  | .start _ => isTrue trivial
  | .run i => inferInstanceAs (Decidable (¬ s.Idles i))

structure Sorts [LT T] (part : Partition T) (input : List T) (s : Sys T ι) : Prop where
  /-- Before the first call has returned some thread can do something. -/
  progress : (∀ value, ¬ s.Returned value) →
    ∃ i t, (system part ι input).step s (.run i) = some t ∧ ¬ s.Idles i
  /-- No chunk is taken twice, and a promise gets the chunk sorted. -/
  taken_once : (s.taken.map Prod.fst).Nodup
  sorted_chunk : ∀ chunk value, s.promises chunk = some value →
    (∃ i, (chunk, i) ∈ s.taken) ∧ ∃ chunk_data, s.pushed[chunk]? = some chunk_data ∧
      Sorted value ∧ value.Perm chunk_data
  /-- When the first call has returned, all chunks have been sorted. -/
  all_sorted : ∀ value, s.Returned value → ∀ chunk < s.pushed.length,
    (s.promises chunk).isSome = true
  result : ∀ value, s.Returned value → Sorted value ∧ value.Perm input

/-! ## The invariant -/

/-- The chunk that the call waits for, or will. -/
def Call.new_lower : Call T → Nat
  | .higher _ new_lower | .waiting _ new_lower _ => new_lower

/-- The chunk that is sorted on top of the call. -/
def Call.chunk : Call T → Option Nat
  | .higher _ _ => none
  | .waiting _ _ chunk => some chunk

/-- The chunks that the thread has taken and not finished. -/
def running (job : Option Nat) (calls : List (Call T)) : List Nat :=
  calls.filterMap Call.chunk ++ job.toList

def Pc.running : Pc T → List Nat
  | .off | .sort_thread => []
  | .do_sort job _ calls | .wait_for job _ _ calls | .try_sort_chunk job _ _ calls
  | .ret job _ calls => HelpingSorter.running job calls

/-- The chunks that the calls of the thread wait for. -/
def Pc.awaited : Pc T → List Nat
  | .off | .sort_thread => []
  | .do_sort _ _ calls | .ret _ _ calls => calls.map Call.new_lower
  | .wait_for _ _ new_lower calls | .try_sort_chunk _ _ new_lower calls =>
      new_lower :: calls.map Call.new_lower

/-- Every call waits for a chunk that was pushed after the chunks below it were taken. -/
def Ordered (pushed : Nat) (job : Option Nat) : List (Call T) → Prop
  | [] => True
  | call :: calls =>
      call.new_lower < pushed ∧ (∀ chunk ∈ running job calls, chunk < call.new_lower) ∧
        Ordered pushed job calls

def Pc.Ordered (pushed : Nat) : Pc T → Prop
  | .off | .sort_thread => True
  | .do_sort job _ calls | .ret job _ calls => HelpingSorter.Ordered pushed job calls
  | .wait_for job _ new_lower calls | .try_sort_chunk job _ new_lower calls =>
      new_lower < pushed ∧ (∀ chunk ∈ HelpingSorter.running job calls, chunk < new_lower) ∧
        HelpingSorter.Ordered pushed job calls

section Values

variable [LT T] (part : Partition T) (input : List T) (pushed : List (List T))

/-- The value of a chunk. -/
def lower_value (chunk : Nat) : List T := quick_sort part (pushed.getD chunk [])

/-- What the bottom of a thread has to return. -/
def job_value : Option Nat → List T
  | none => quick_sort part input
  | some chunk => lower_value part pushed chunk

/-- The value that is returned to the calls is the right one, if the futures have the right
ones. -/
def Fits (job : Option Nat) : List (Call T) → List T → Prop
  | [], value => value = job_value part input pushed job
  | .higher result new_lower :: calls, value =>
      Fits job calls (lower_value part pushed new_lower ++ (result ++ value))
  | .waiting result new_lower chunk :: calls, value =>
      value = lower_value part pushed chunk ∧
        Fits job calls (lower_value part pushed new_lower ++ result)

def Pc.Fits : Pc T → Prop
  | .off | .sort_thread => True
  | .do_sort job chunk_data calls =>
      HelpingSorter.Fits part input pushed job calls (quick_sort part chunk_data)
  | .wait_for job result new_lower calls | .try_sort_chunk job result new_lower calls =>
      HelpingSorter.Fits part input pushed job calls (lower_value part pushed new_lower ++ result)
  | .ret job value calls => HelpingSorter.Fits part input pushed job calls value

end Values

omit [DecidableEq ι] in
/-- The caller has no job, and a helper that sorts has one. -/
def Pc.Employed (i : Option ι) : Pc T → Prop
  | .off | .sort_thread => i.isSome = true
  | .do_sort job _ _ | .wait_for job _ _ _ | .try_sort_chunk job _ _ _ | .ret job _ _ =>
      i.isSome = job.isSome

structure Inv [LT T] (part : Partition T) (input : List T) (s : Sys T ι) : Prop where
  employed : ∀ i, (s.pc i).Employed i
  ordered : ∀ i, (s.pc i).Ordered s.pushed.length
  fits : ∀ i, (s.pc i).Fits part input s.pushed
  running : ∀ i, ∀ chunk ∈ (s.pc i).running, s.promises chunk = none ∧ (chunk, i) ∈ s.taken
  running_nodup : ∀ i, (s.pc i).running.Nodup
  taken_nodup : (s.taken.map Prod.fst).Nodup
  taken_lt : ∀ chunk ∈ s.taken.map Prod.fst, chunk < s.pushed.length
  queued : ∀ chunk chunk_data, (chunk, chunk_data) ∈ s.chunks →
    s.pushed[chunk]? = some chunk_data ∧ chunk ∉ s.taken.map Prod.fst
  queued_nodup : (s.chunks.map Prod.fst).Nodup
  promises : ∀ chunk value, s.promises chunk = some value →
    chunk ∈ s.taken.map Prod.fst ∧ value = lower_value part s.pushed chunk
  known : ∀ chunk < s.pushed.length, s.promises chunk = none →
    chunk ∈ s.chunks.map Prod.fst ∨ ∃ i, chunk ∈ (s.pc i).running
  awaited : ∀ chunk < s.pushed.length, s.promises chunk = none →
    ∃ i, chunk ∈ (s.pc i).awaited

section Results

variable [LT T] {part : Partition T} {input : List T} {s t : Sys T ι} {i : Option ι} {p : Pc T}

omit [DecidableEq ι] in
/-- A thread works on chunks that have been pushed. -/
theorem Inv.running_lt (h : Inv part input s) {chunk : Nat} (hc : chunk ∈ (s.pc i).running) :
    chunk < s.pushed.length :=
  h.taken_lt chunk (List.mem_map_of_mem (h.running i chunk hc).2)

/-- A thread that has started and is not at its end can take a step. -/
theorem Inv.run_isSome (h : Inv part input s) (hoff : s.pc i ≠ .off)
    (hend : ∀ value, s.pc i ≠ .ret none value []) : (s.run part i).isSome = true := by
  have hset : ∀ chunk ∈ (s.pc i).running, ∀ value q,
      (s.set_value i chunk value q).isSome = true := by
    intro chunk hc value q
    rw [Sys.set_value, (h.running i chunk hc).1]
    rfl
  cases hpc : s.pc i with
  | off => exact absurd hpc hoff
  | sort_thread =>
      cases hchunks : s.chunks <;> simp only [Sys.run, hpc, hchunks, Option.isSome_some]
  | do_sort job chunk_data calls =>
      cases chunk_data <;> simp only [Sys.run, hpc, Option.isSome_some]
  | wait_for job result new_lower calls =>
      cases hready : s.promises new_lower <;>
        simp only [Sys.run, hpc, hready, Option.isSome_some]
  | try_sort_chunk job result new_lower calls =>
      cases hchunks : s.chunks <;> simp only [Sys.run, hpc, hchunks, Option.isSome_some]
  | ret job value calls =>
      rw [hpc] at hset
      cases calls with
      | nil =>
          cases job with
          | none => exact absurd hpc (hend value)
          | some chunk =>
              simp only [Sys.run, hpc]
              exact hset chunk List.mem_cons_self _ _
      | cons call calls =>
          cases call with
          | higher result new_lower => simp only [Sys.run, hpc, Option.isSome_some]
          | waiting result new_lower chunk =>
              simp only [Sys.run, hpc]
              exact hset chunk List.mem_cons_self _ _

/-- Where all threads idle, a thread that has a chunk, or is the caller, waits for a later
chunk. -/
theorem Inv.waits (h : Inv part input s)
    (hidle : ∀ i t, s.run part i = some t → s.Idles i) (hend : ∀ value, ¬ s.Returned value)
    (hi : i = none ∨ (s.pc i).running ≠ []) :
    ∃ new_lower < s.pushed.length, s.promises new_lower = none ∧
      ∀ chunk ∈ (s.pc i).running, chunk < new_lower := by
  have hemployed := h.employed i
  have hordered := h.ordered i
  have hnot_end : ∀ value, s.pc i ≠ .ret none value [] := by
    intro value hpc
    rcases hi with rfl | hne
    · exact hend value hpc
    · rw [hpc] at hne
      exact hne rfl
  have hworks : s.pc i ≠ .off ∧ s.pc i ≠ .sort_thread := by
    constructor <;> intro hpc <;> rw [hpc] at hi hemployed <;> rcases hi with rfl | hne
    · cases hemployed
    · exact hne rfl
    · cases hemployed
    · exact hne rfl
  obtain ⟨t, ht⟩ := Option.isSome_iff_exists.mp (h.run_isSome hworks.1 hnot_end)
  obtain ⟨-, hidles⟩ := hidle i t ht
  cases hpc : s.pc i with
  | off => exact absurd hpc hworks.1
  | sort_thread => exact absurd hpc hworks.2
  | do_sort | ret =>
      rw [hpc] at hidles
      cases hidles
  | wait_for job result new_lower calls | try_sort_chunk job result new_lower calls =>
      rw [hpc] at hidles hordered
      exact ⟨new_lower, hordered.1, hidles, hordered.2.1⟩

/-- Of the chunks that are being sorted the last one is not held up, so not all threads
idle. -/
theorem Inv.progress (h : Inv part input s) (hend : ∀ value, ¬ s.Returned value) :
    ∃ i t, s.run part i = some t ∧ ¬ s.Idles i := by
  by_contra hnone
  have hidle : ∀ i t, s.run part i = some t → s.Idles i := by
    intro i t ht
    by_contra hidles
    exact hnone ⟨i, t, ht, hidles⟩
  obtain ⟨f, hf, hunready, -⟩ := h.waits hidle hend (Or.inl rfl)
  -- nothing is queued, or the caller could take it
  have hchunks : s.chunks = [] := by
    have hroot : s.pc none ≠ .off := by
      intro hpc
      have hemployed := h.employed none
      rw [hpc] at hemployed
      cases hemployed
    obtain ⟨t, ht⟩ := Option.isSome_iff_exists.mp (h.run_isSome hroot hend)
    exact (hidle none t ht).1
  have hrunning : ∀ chunk < s.pushed.length, s.promises chunk = none →
      ∃ i, chunk ∈ (s.pc i).running := by
    intro chunk hlt hnot
    refine (h.known chunk hlt hnot).resolve_left ?_
    rw [hchunks]
    exact List.not_mem_nil
  -- the thread that has a chunk waits for a later one, and so on
  have hlater : ∀ n chunk, s.pushed.length - chunk ≤ n → chunk < s.pushed.length →
      s.promises chunk = none → False := by
    intro n
    induction n with
    | zero =>
        intro chunk hle hlt
        omega
    | succ n ih =>
        intro chunk hle hlt hnot
        obtain ⟨i, hi⟩ := hrunning chunk hlt hnot
        obtain ⟨next, hnext, hunready, hgt⟩ :=
          h.waits hidle hend (Or.inr (List.ne_nil_of_mem hi))
        have hlt' := hgt chunk hi
        exact ih next (by omega) hnext hunready
  exact hlater _ f (Nat.le_refl _) hf hunready

omit [DecidableEq ι] [LT T] in
/-- The chunks that a call waits for have been pushed after the one it works on. So the waits have
no circle. -/
theorem Ordered.job_lt {pushed : Nat} {chunk : Nat} {calls : List (Call T)}
    (h : Ordered pushed (some chunk) calls) : ∀ call ∈ calls, chunk < call.new_lower := by
  induction calls with
  | nil => exact fun _ hc => absurd hc List.not_mem_nil
  | cons call calls ih =>
      obtain ⟨-, hgt, hrest⟩ := h
      intro call' hcall
      rcases List.mem_cons.mp hcall with rfl | hmem
      · exact hgt chunk (List.mem_append_right _ List.mem_cons_self)
      · exact ih hrest call' hmem

omit [DecidableEq ι] in
/-- A helper's calls wait for chunks that are later than its own. -/
theorem Inv.job_lt (h : Inv part input s) {chunk : Nat} (hi : i ≠ none)
    (hc : chunk ∈ (s.pc i).awaited) :
    ∃ job, job ∈ (s.pc i).running ∧ job < chunk := by
  have hemployed := h.employed i
  have hordered := h.ordered i
  obtain ⟨j, rfl⟩ := Option.ne_none_iff_exists'.mp hi
  cases hpc : s.pc (some j) with
  | off | sort_thread =>
      rw [hpc] at hc
      cases hc
  | do_sort job _ calls | ret job _ calls =>
      rw [hpc] at hc hemployed hordered
      obtain ⟨chunk', rfl⟩ := Option.isSome_iff_exists.mp hemployed.symm
      obtain ⟨call, hcall, rfl⟩ := List.mem_map.mp hc
      exact ⟨chunk', List.mem_append_right _ List.mem_cons_self, hordered.job_lt call hcall⟩
  | wait_for job _ _ calls | try_sort_chunk job _ _ calls =>
      rw [hpc] at hc hemployed hordered
      obtain ⟨chunk', rfl⟩ := Option.isSome_iff_exists.mp hemployed.symm
      have hmem : chunk' ∈ HelpingSorter.running (some chunk') calls :=
        List.mem_append_right _ List.mem_cons_self
      refine ⟨chunk', hmem, ?_⟩
      rcases List.mem_cons.mp hc with rfl | hc
      · exact hordered.2.1 chunk' hmem
      · obtain ⟨call, hcall, rfl⟩ := List.mem_map.mp hc
        exact hordered.2.2.job_lt call hcall

omit [DecidableEq ι] in
/-- When the first call has returned nobody waits for the first chunk that is not sorted. -/
theorem Inv.all_sorted (h : Inv part input s) {value : List T} (hend : s.Returned value)
    (chunk : Nat) : chunk < s.pushed.length → (s.promises chunk).isSome = true := by
  induction chunk using Nat.strong_induction_on with
  | h chunk ih =>
      intro hlt
      by_contra hne
      rw [Bool.not_eq_true, Option.isSome_eq_false_iff, Option.isNone_iff_eq_none] at hne
      obtain ⟨i, hi⟩ := h.awaited chunk hlt hne
      have hhelper : i ≠ none := by
        rintro rfl
        rw [hend] at hi
        cases hi
      obtain ⟨job, hjob, hjob_lt⟩ := h.job_lt hhelper hi
      have hready := ih job hjob_lt (h.running_lt hjob)
      rw [(h.running i job hjob).1] at hready
      cases hready

/-! ## The steps -/

omit [LT T] [DecidableEq ι] in
theorem getD_append {pushed : List (List T)} (lower : List T) {chunk : Nat}
    (hlt : chunk < pushed.length) : (pushed ++ [lower]).getD chunk [] = pushed.getD chunk [] := by
  rw [List.getD_eq_getElem?_getD, List.getElem?_append_left hlt, ← List.getD_eq_getElem?_getD]

omit [LT T] [DecidableEq ι] in
/-- More chunks change nothing in that order. -/
theorem Ordered.mono {pushed pushed' : Nat} {job : Option Nat} {calls : List (Call T)}
    (h : Ordered pushed job calls) (hle : pushed ≤ pushed') : Ordered pushed' job calls := by
  induction calls with
  | nil => trivial
  | cons call calls ih => exact ⟨Nat.lt_of_lt_of_le h.1 hle, h.2.1, ih h.2.2⟩

omit [LT T] [DecidableEq ι] in
theorem Pc.Ordered.mono {pushed pushed' : Nat} (h : p.Ordered pushed) (hle : pushed ≤ pushed') :
    p.Ordered pushed' := by
  cases p with
  | off | sort_thread => trivial
  | do_sort | ret => exact HelpingSorter.Ordered.mono h hle
  | wait_for | try_sort_chunk => exact ⟨Nat.lt_of_lt_of_le h.1 hle, h.2.1, h.2.2.mono hle⟩

omit [DecidableEq ι] in
/-- A chunk that is pushed later does not matter. -/
theorem Fits.push {pushed : List (List T)} (lower : List T) {job : Option Nat}
    {calls : List (Call T)} {value : List T} (h : Fits part input pushed job calls value)
    (hordered : Ordered pushed.length job calls)
    (hrunning : ∀ chunk ∈ running job calls, chunk < pushed.length) :
    Fits part input (pushed ++ [lower]) job calls value := by
  have hvalue : ∀ chunk < pushed.length,
      lower_value part (pushed ++ [lower]) chunk = lower_value part pushed chunk := by
    intro chunk hlt
    rw [lower_value, getD_append lower hlt, lower_value]
  induction calls generalizing value with
  | nil =>
      cases job with
      | none => exact h
      | some chunk => exact Eq.trans h (hvalue chunk (hrunning chunk List.mem_cons_self)).symm
  | cons call calls ih =>
      obtain ⟨hlt, -, hrest⟩ := hordered
      cases call with
      | higher result new_lower =>
          rw [Fits, hvalue new_lower hlt]
          exact ih h hrest hrunning
      | waiting result new_lower chunk =>
          rw [Fits, hvalue new_lower hlt, hvalue chunk (hrunning chunk List.mem_cons_self)]
          exact ⟨h.1, ih h.2 hrest fun c hc => hrunning c (List.mem_cons_of_mem _ hc)⟩

omit [DecidableEq ι] in
/-- A new chunk leaves the values of the earlier ones as they are. -/
theorem Pc.Fits.push {pushed : List (List T)} (lower : List T) (h : p.Fits part input pushed)
    (hordered : p.Ordered pushed.length)
    (hrunning : ∀ chunk ∈ p.running, chunk < pushed.length) :
    p.Fits part input (pushed ++ [lower]) := by
  cases p with
  | off | sort_thread => trivial
  | do_sort | ret => exact HelpingSorter.Fits.push lower h hordered hrunning
  | wait_for job result new_lower calls | try_sort_chunk job result new_lower calls =>
      show HelpingSorter.Fits part input (pushed ++ [lower]) job calls _
      rw [lower_value, getD_append lower hordered.1]
      exact HelpingSorter.Fits.push lower h hordered.2.2 hrunning

/-- A step of a thread, that neither pushes nor takes a chunk, and fulfils no promise. -/
theorem Inv.goto (h : Inv part input s) (hemployed : p.Employed i)
    (hordered : p.Ordered s.pushed.length) (hfits : p.Fits part input s.pushed)
    (hrunning : p.running = (s.pc i).running)
    (hawaited : ∀ chunk ∈ (s.pc i).awaited, s.promises chunk = none → chunk ∈ p.awaited) :
    Inv part input (s.goto i p) where
  employed := forall_update_at (P := Pc.Employed) hemployed fun j _ => h.employed j
  ordered := forall_update hordered fun j _ => h.ordered j
  fits := forall_update hfits fun j _ => h.fits j
  running := forall_update_at
    (P := fun j (q : Pc T) => ∀ chunk ∈ q.running, s.promises chunk = none ∧ (chunk, j) ∈ s.taken)
    (hrunning ▸ h.running i) fun j _ => h.running j
  running_nodup := forall_update (P := fun q : Pc T => q.running.Nodup)
    (hrunning ▸ h.running_nodup i) fun j _ => h.running_nodup j
  taken_nodup := h.taken_nodup
  taken_lt := h.taken_lt
  queued := h.queued
  queued_nodup := h.queued_nodup
  promises := h.promises
  known chunk hlt hnot := (h.known chunk hlt hnot).imp_right fun hexists =>
    exists_update (P := fun q : Pc T => chunk ∈ q.running) hexists fun hc => hrunning ▸ hc
  awaited chunk hlt hnot :=
    exists_update (P := fun q : Pc T => chunk ∈ q.awaited) (h.awaited chunk hlt hnot)
      fun hc => hawaited chunk hc hnot

omit [DecidableEq ι] in
/-- A queued chunk has not been taken, and its promise has no value. -/
theorem Inv.queued_promise (h : Inv part input s) {chunk : Nat} {chunk_data : List T}
    (hc : (chunk, chunk_data) ∈ s.chunks) : s.promises chunk = none := by
  by_contra hne
  obtain ⟨value, hvalue⟩ := Option.ne_none_iff_exists'.mp hne
  exact (h.queued chunk chunk_data hc).2 (h.promises chunk value hvalue).1

omit [DecidableEq ι] in
/-- A chunk in the stack has not been touched since it was pushed. -/
theorem Inv.queued_value (h : Inv part input s) {chunk : Nat} {chunk_data : List T}
    (hc : (chunk, chunk_data) ∈ s.chunks) :
    quick_sort part chunk_data = lower_value part s.pushed chunk := by
  rw [lower_value, List.getD_eq_getElem?_getD, (h.queued chunk chunk_data hc).1]
  rfl

/-- A thread takes a chunk. -/
theorem Inv.take (h : Inv part input s) {chunk : Nat} {chunk_data : List T}
    {rest : List (Nat × List T)} (hchunks : s.chunks = (chunk, chunk_data) :: rest)
    (hemployed : p.Employed i) (hordered : p.Ordered s.pushed.length)
    (hfits : p.Fits part input s.pushed) (hrunning : p.running = chunk :: (s.pc i).running)
    (hawaited : ∀ c ∈ (s.pc i).awaited, c ∈ p.awaited) :
    Inv part input { s.goto i p with chunks := rest, taken := s.taken ++ [(chunk, i)] } := by
  have hmem : (chunk, chunk_data) ∈ s.chunks := by
    rw [hchunks]
    exact List.mem_cons_self
  obtain ⟨hpushed, hnot⟩ := h.queued chunk chunk_data hmem
  have hnodup := h.queued_nodup
  rw [hchunks, List.map_cons, List.nodup_cons] at hnodup
  have htaken : (s.taken ++ [(chunk, i)]).map Prod.fst = s.taken.map Prod.fst ++ [chunk] :=
    List.map_append
  refine ⟨forall_update_at (P := Pc.Employed) hemployed fun j _ => h.employed j,
    forall_update hordered fun j _ => h.ordered j, forall_update hfits fun j _ => h.fits j,
    forall_update_at
      (P := fun j (q : Pc T) => ∀ c ∈ q.running, s.promises c = none ∧
        (c, j) ∈ s.taken ++ [(chunk, i)]) ?_ ?_,
    forall_update (P := fun q : Pc T => q.running.Nodup) ?_ fun j _ => h.running_nodup j,
    ?_, ?_, ?_, hnodup.2, ?_, ?_, ?_⟩
  -- what the thread runs: the chunk, and what it ran before
  · rw [hrunning]
    intro c hc
    rcases List.mem_cons.mp hc with rfl | hc
    · exact ⟨h.queued_promise hmem, List.mem_append_right _ List.mem_cons_self⟩
    · exact ⟨(h.running i c hc).1, List.mem_append_left _ (h.running i c hc).2⟩
  · intro j _ c hc
    exact ⟨(h.running j c hc).1, List.mem_append_left _ (h.running j c hc).2⟩
  · rw [hrunning]
    refine List.nodup_cons.mpr ⟨fun hc => hnot ?_, h.running_nodup i⟩
    exact List.mem_map_of_mem (h.running i chunk hc).2
  · rw [htaken]
    refine List.nodup_append.mpr ⟨h.taken_nodup, List.nodup_singleton chunk, ?_⟩
    rintro a ha b hb rfl
    exact hnot (List.mem_singleton.mp hb ▸ ha)
  · rw [htaken]
    intro c hc
    rcases List.mem_append.mp hc with hc | hc
    · exact h.taken_lt c hc
    · rw [List.mem_singleton.mp hc]
      exact (List.getElem?_eq_some_iff.mp hpushed).1
  -- the chunks that are still queued were not taken
  · intro c data hc
    have hc : (c, data) ∈ rest := hc
    have hc' : (c, data) ∈ s.chunks := by
      rw [hchunks]
      exact List.mem_cons_of_mem _ hc
    refine ⟨(h.queued c data hc').1, ?_⟩
    rw [htaken]
    intro hmem
    rcases List.mem_append.mp hmem with hmem | hmem
    · exact (h.queued c data hc').2 hmem
    · exact hnodup.1 (List.mem_map.mpr ⟨(c, data), hc, List.mem_singleton.mp hmem⟩)
  -- a promise that has its value was taken before
  · intro c value hvalue
    obtain ⟨hc, heq⟩ := h.promises c value hvalue
    refine ⟨?_, heq⟩
    rw [htaken]
    exact List.mem_append_left _ hc
  -- the chunk goes from the stack to this thread, and is nowhere lost
  · intro c hlt hc
    have hold : c = chunk ∨ c ∈ rest.map Prod.fst ∨ ∃ j, c ∈ (s.pc j).running := by
      rcases h.known c hlt hc with hqueued | hrun
      · rw [hchunks, List.map_cons] at hqueued
        exact (List.mem_cons.mp hqueued).imp_right Or.inl
      · exact Or.inr (Or.inr hrun)
    rcases hold with rfl | hrest | hrun
    · refine Or.inr ⟨i, ?_⟩
      show c ∈ (Function.update s.pc i p i).running
      rw [Function.update_self, hrunning]
      exact List.mem_cons_self
    · exact Or.inl hrest
    · exact Or.inr (exists_update (P := fun q : Pc T => c ∈ q.running) hrun
        fun hc => hrunning ▸ List.mem_cons_of_mem _ hc)
  · intro c hlt hc
    exact exists_update (P := fun q : Pc T => c ∈ q.awaited) (h.awaited c hlt hc) (hawaited c)

/-- A thread fulfils the promise of its chunk. -/
theorem Inv.set_value (h : Inv part input s) {chunk : Nat} {value : List T}
    (hstep : s.set_value i chunk value p = some t)
    (hvalue : value = lower_value part s.pushed chunk)
    (hemployed : p.Employed i) (hordered : p.Ordered s.pushed.length)
    (hfits : p.Fits part input s.pushed) (hrunning : (s.pc i).running = chunk :: p.running)
    (hawaited : ∀ c ∈ (s.pc i).awaited, c ∈ p.awaited) : Inv part input t := by
  have hmem : chunk ∈ (s.pc i).running := by
    rw [hrunning]
    exact List.mem_cons_self
  obtain ⟨hnone, htaken⟩ := h.running i chunk hmem
  simp only [Sys.set_value, hnone, Option.some.injEq] at hstep
  subst hstep
  have hnodup := h.running_nodup i
  rw [hrunning, List.nodup_cons] at hnodup
  -- a chunk that has no value still is another one
  have hne : ∀ c, Function.update s.promises chunk (some value) c = none →
      c ≠ chunk ∧ s.promises c = none := by
    intro c hc
    have hne : c ≠ chunk := by
      rintro rfl
      rw [Function.update_self] at hc
      cases hc
    rw [Function.update_of_ne hne] at hc
    exact ⟨hne, hc⟩
  refine ⟨forall_update_at (P := Pc.Employed) hemployed fun j _ => h.employed j,
    forall_update hordered fun j _ => h.ordered j, forall_update hfits fun j _ => h.fits j,
    forall_update_at
      (P := fun j (q : Pc T) => ∀ c ∈ q.running,
        Function.update s.promises chunk (some value) c = none ∧ (c, j) ∈ s.taken) ?_ ?_,
    forall_update (P := fun q : Pc T => q.running.Nodup) hnodup.2 fun j _ => h.running_nodup j,
    h.taken_nodup, h.taken_lt, h.queued, h.queued_nodup, ?_, ?_, ?_⟩
  · intro c hc
    have hne : c ≠ chunk := fun heq => hnodup.1 (heq ▸ hc)
    rw [Function.update_of_ne hne]
    exact h.running i c (hrunning ▸ List.mem_cons_of_mem _ hc)
  · intro j hj c hc
    have hne : c ≠ chunk := by
      rintro rfl
      exact hj (Prod.ext_iff.mp
        (List.inj_on_of_nodup_map h.taken_nodup (h.running j c hc).2 htaken rfl)).2
    rw [Function.update_of_ne hne]
    exact h.running j c hc
  · intro c v hv
    change Function.update s.promises chunk (some value) c = some v at hv
    by_cases hc : c = chunk
    · rw [hc, Function.update_self] at hv
      cases hv
      rw [hc]
      exact ⟨List.mem_map_of_mem htaken, hvalue⟩
    · rw [Function.update_of_ne hc] at hv
      exact h.promises c v hv
  · intro c hlt hc
    obtain ⟨hcne, hc⟩ := hne c hc
    refine (h.known c hlt hc).imp_right fun hrun => ?_
    refine exists_update (P := fun q : Pc T => c ∈ q.running) hrun fun hmem => ?_
    rw [hrunning] at hmem
    exact (List.mem_cons.mp hmem).resolve_left hcne
  · intro c hlt hc
    exact exists_update (P := fun q : Pc T => c ∈ q.awaited) (h.awaited c hlt (hne c hc).2)
      (hawaited c)

/-- A call pushes its lower chunk and goes on with the higher one. -/
theorem Inv.push (h : Inv part input s) {job : Option Nat} {x : T} {xs : List T}
    {calls : List (Call T)} (hpc : s.pc i = .do_sort job (x :: xs) calls) :
    Inv part input { s.goto i (.do_sort job (part.higher_chunk x xs)
          (.higher [x] s.pushed.length :: calls)) with
        chunks := (s.pushed.length, part.lower_chunk x xs) :: s.chunks
        pushed := s.pushed ++ [part.lower_chunk x xs] } := by
  have hemployed := h.employed i
  have hordered := h.ordered i
  have hfits := h.fits i
  have hrunning := h.running i
  rw [hpc] at hemployed hordered hfits hrunning
  have hlt : ∀ c ∈ HelpingSorter.running job calls, c < s.pushed.length :=
    fun c hc => h.taken_lt c (List.mem_map_of_mem (hrunning c hc).2)
  have hlength : (s.pushed ++ [part.lower_chunk x xs]).length = s.pushed.length + 1 :=
    List.length_append
  have hle : s.pushed.length ≤ (s.pushed ++ [part.lower_chunk x xs]).length := by omega
  have hlower : lower_value part (s.pushed ++ [part.lower_chunk x xs]) s.pushed.length =
      quick_sort part (part.lower_chunk x xs) := by
    rw [lower_value, List.getD_eq_getElem?_getD, List.getElem?_concat_length]
    rfl
  refine ⟨forall_update_at (P := Pc.Employed) hemployed fun j _ => h.employed j,
    forall_update ?_ fun j _ => (h.ordered j).mono hle,
    forall_update ?_ fun j _ => (h.fits j).push _ (h.ordered j) fun c hc => h.running_lt hc,
    forall_update_at
      (P := fun j (q : Pc T) => ∀ c ∈ q.running, s.promises c = none ∧ (c, j) ∈ s.taken)
      hrunning fun j _ => h.running j,
    forall_update (P := fun q : Pc T => q.running.Nodup) ?_ fun j _ => h.running_nodup j,
    h.taken_nodup, fun c hc => Nat.lt_of_lt_of_le (h.taken_lt c hc) hle, ?_, ?_, ?_, ?_, ?_⟩
  · exact ⟨Nat.lt_of_lt_of_eq (Nat.lt_succ_self _) hlength.symm, hlt,
      HelpingSorter.Ordered.mono hordered hle⟩
  · show HelpingSorter.Fits part input _ job calls (lower_value part _ s.pushed.length ++ _)
    rw [hlower, List.singleton_append, ← quick_sort_cons]
    exact HelpingSorter.Fits.push _ hfits hordered hlt
  · have hnodup := h.running_nodup i
    rw [hpc] at hnodup
    exact hnodup
  · intro c data hc
    rcases List.mem_cons.mp hc with heq | hc
    · cases heq
      refine ⟨List.getElem?_concat_length, fun hc => ?_⟩
      exact Nat.lt_irrefl _ (h.taken_lt _ hc)
    · obtain ⟨hpushed, hnot⟩ := h.queued c data hc
      refine ⟨?_, hnot⟩
      rw [List.getElem?_append_left (List.getElem?_eq_some_iff.mp hpushed).1]
      exact hpushed
  · refine List.nodup_cons.mpr ⟨fun hc => ?_, h.queued_nodup⟩
    obtain ⟨⟨c, data⟩, hmem, heq⟩ := List.mem_map.mp hc
    have hc_lt := (List.getElem?_eq_some_iff.mp (h.queued c data hmem).1).1
    exact Nat.ne_of_lt hc_lt heq
  · intro c value hvalue
    obtain ⟨hc, heq⟩ := h.promises c value hvalue
    refine ⟨hc, heq.trans ?_⟩
    show _ = lower_value part (s.pushed ++ [part.lower_chunk x xs]) c
    rw [lower_value, lower_value, getD_append _ (h.taken_lt c hc)]
  · intro c hc_lt hc
    rcases Nat.lt_succ_iff_lt_or_eq.mp (hlength ▸ hc_lt) with hc_lt | rfl
    · rcases h.known c hc_lt hc with hqueued | hrun
      · exact Or.inl (List.mem_cons_of_mem _ hqueued)
      · refine Or.inr (exists_update (P := fun q : Pc T => c ∈ q.running) hrun fun hmem => ?_)
        rw [hpc] at hmem
        exact hmem
    · exact Or.inl List.mem_cons_self
  · intro c hc_lt hc
    rcases Nat.lt_succ_iff_lt_or_eq.mp (hlength ▸ hc_lt) with hc_lt | rfl
    · have hsome := h.awaited c hc_lt hc
      refine exists_update (P := fun q : Pc T => c ∈ q.awaited) hsome fun hmem => ?_
      rw [hpc] at hmem
      exact List.mem_cons_of_mem _ hmem
    · refine ⟨i, ?_⟩
      show s.pushed.length ∈ (Function.update s.pc i _ i).awaited
      rw [Function.update_self]
      exact List.mem_cons_self

/-- A step of a thread keeps the invariant. -/
theorem inv_run (h : Inv part input s) (hstep : s.run part i = some t) : Inv part input t := by
  have hemployed := h.employed i
  have hordered := h.ordered i
  have hfits := h.fits i
  unfold Sys.run at hstep
  cases hpc : s.pc i with
  | off => simp only [hpc, reduceCtorEq] at hstep
  | sort_thread =>
      -- the loop of a helper: without a chunk it only yields
      rw [hpc] at hemployed
      cases hchunks : s.chunks with
      | nil =>
          simp only [hpc, hchunks, Option.some.injEq] at hstep
          subst hstep
          exact h.goto hemployed trivial trivial (by rw [hpc]) (by rw [hpc]; exact fun _ hc _ => hc)
      | cons first rest =>
          obtain ⟨chunk, chunk_data⟩ := first
          simp only [hpc, hchunks, Option.some.injEq] at hstep
          subst hstep
          exact h.take hchunks hemployed trivial (h.queued_value (hchunks ▸ List.mem_cons_self))
            (by rw [hpc]; rfl) (by rw [hpc]; exact fun _ => id)
  | do_sort job chunk_data calls =>
      -- the empty chunk is returned; of another one the lower part goes to the stack
      rw [hpc] at hemployed hordered hfits
      cases chunk_data with
      | nil =>
          simp only [hpc, Option.some.injEq] at hstep
          subst hstep
          refine h.goto hemployed hordered ?_ (by rw [hpc]; rfl)
            (by rw [hpc]; exact fun _ hc _ => hc)
          show HelpingSorter.Fits part input s.pushed job calls []
          rw [← quick_sort_nil part]
          exact hfits
      | cons x xs =>
          simp only [hpc, Option.some.injEq] at hstep
          subst hstep
          exact h.push hpc
  | wait_for job result new_lower calls =>
      -- the future is tested, and spliced before `result` when it is ready
      rw [hpc] at hemployed hordered hfits
      cases hready : s.promises new_lower with
      | none =>
          simp only [hpc, hready, Option.some.injEq] at hstep
          subst hstep
          exact h.goto hemployed hordered hfits (by rw [hpc]; rfl)
            (by rw [hpc]; exact fun _ hc _ => hc)
      | some lower =>
          simp only [hpc, hready, Option.some.injEq] at hstep
          subst hstep
          refine h.goto hemployed hordered.2.2 ?_ (by rw [hpc]; rfl) ?_
          · show HelpingSorter.Fits part input s.pushed job calls (lower ++ result)
            rw [(h.promises new_lower lower hready).2]
            exact hfits
          · rw [hpc]
            intro c hc hnone
            refine (List.mem_cons.mp hc).resolve_left ?_
            rintro rfl
            rw [hready] at hnone
            cases hnone
  | try_sort_chunk job result new_lower calls =>
      -- not ready: the thread helps with any chunk it finds, on top of the calls it is in
      rw [hpc] at hemployed hordered hfits
      cases hchunks : s.chunks with
      | nil =>
          simp only [hpc, hchunks, Option.some.injEq] at hstep
          subst hstep
          exact h.goto hemployed hordered hfits (by rw [hpc]; rfl)
            (by rw [hpc]; exact fun _ hc _ => hc)
      | cons first rest =>
          obtain ⟨chunk, chunk_data⟩ := first
          simp only [hpc, hchunks, Option.some.injEq] at hstep
          subst hstep
          have hvalue := h.queued_value (hchunks ▸ List.mem_cons_self)
          exact h.take hchunks hemployed hordered ⟨hvalue, hfits⟩ (by rw [hpc]; rfl)
            (by rw [hpc]; exact fun _ => id)
  | ret job value calls =>
      -- the value goes to the promise of the chunk, or to the call that made it
      rw [hpc] at hemployed hordered hfits
      cases calls with
      | nil =>
          cases job with
          | none => simp only [hpc, reduceCtorEq] at hstep
          | some chunk =>
              simp only [hpc] at hstep
              exact h.set_value hstep hfits hemployed trivial trivial (by rw [hpc]; rfl)
                (by rw [hpc]; exact fun _ => id)
      | cons call calls =>
          cases call with
          | higher result new_lower =>
              simp only [hpc, Option.some.injEq] at hstep
              subst hstep
              exact h.goto hemployed hordered hfits (by rw [hpc]; rfl)
                (by rw [hpc]; exact fun _ hc _ => hc)
          | waiting result new_lower chunk =>
              simp only [hpc] at hstep
              exact h.set_value hstep hfits.1 hemployed hordered hfits.2 (by rw [hpc]; rfl)
                (by rw [hpc]; exact fun _ => id)

/-- Every step keeps track of what each call has to deliver. -/
theorem inv_step {a : Action ι} (h : Inv part input s)
    (hstep : (system part ι input).step s a = some t) : Inv part input t := by
  change Sys.step part s a = some t at hstep
  cases a with
  | start i =>
      cases hpc : s.pc (some i) <;>
        simp only [Sys.step, hpc, reduceCtorEq, Option.some.injEq] at hstep
      subst hstep
      exact h.goto rfl trivial trivial (by rw [hpc]; rfl) (by rw [hpc]; exact fun _ hc _ => hc)
  | run i => exact inv_run h hstep

/-- The first call has the whole list. -/
theorem inv_init (part : Partition T) (input : List T) :
    Inv part input (system part ι input).init where
  employed := by
    rintro (_ | i) <;> rfl
  ordered := by
    rintro (_ | i) <;> trivial
  fits := by
    rintro (_ | i)
    · exact rfl
    · trivial
  running := by
    rintro (_ | i) chunk hc <;> cases hc
  running_nodup := by
    rintro (_ | i) <;> exact List.nodup_nil
  taken_nodup := List.nodup_nil
  taken_lt _ hc := absurd hc List.not_mem_nil
  queued _ _ hc := absurd hc List.not_mem_nil
  queued_nodup := List.nodup_nil
  promises := by rintro _ _ ⟨⟩
  known _ hlt := absurd hlt (Nat.not_lt_zero _)
  awaited _ hlt := absurd hlt (Nat.not_lt_zero _)

end Results

/-! ## How long it takes

A push pays for the sort of its chunk, and for each thread that may come to look for a chunk
because there is one. A call pays for its wait when its value is there. To look at the stack
costs a waiting thread something only where there is a chunk. -/

/-- The steps that a thread has before it, as far as it is up to it alone. `cost` is what an
element costs. -/
def Pc.rank (cost : Nat) (promises : Nat → Option (List T)) : Pc T → Nat
  | .off => 1
  | .sort_thread => 0
  | .do_sort job chunk_data calls =>
      cost * chunk_data.length + 1 + (4 * calls.length + job.isSome.toNat)
  | .wait_for job _ new_lower calls =>
      (if (promises new_lower).isSome then 1 else 2) + (4 * calls.length + job.isSome.toNat)
  | .try_sort_chunk job _ _ calls => 2 + (4 * calls.length + job.isSome.toNat)
  | .ret job _ calls => 4 * calls.length + job.isSome.toNat

/-- The thread is going to look whether there is a chunk. -/
def Pc.looks : Pc T → Nat
  | .wait_for _ _ _ _ => 1
  | .off | .sort_thread | .do_sort _ _ _ | .try_sort_chunk _ _ _ _ | .ret _ _ _ => 0

/-- The steps for the chunks on the stack. -/
def queued (cost : Nat) : List (Nat × List T) → Nat
  | [] => 0
  | (_, chunk_data) :: rest => cost * chunk_data.length + 4 + queued cost rest

section Rank

variable [Fintype ι]

omit [DecidableEq ι] in
def Sys.looking (s : Sys T ι) : Nat :=
  if s.chunks = [] then 0 else ∑ i, (s.pc i).looks

/-- What an element costs: its call, its chunk, and every thread. -/
def element_cost (ι : Type*) [Fintype ι] : Nat := Fintype.card ι + 10

def Sys.rank (s : Sys T ι) : Nat :=
  queued (element_cost ι) s.chunks +
    ∑ i, (s.pc i).rank (element_cost ι) s.promises + s.looking

variable {s t : Sys T ι} {i : Option ι} {p : Pc T}

omit [DecidableEq ι] in
theorem Pc.looks_le (p : Pc T) : p.looks ≤ 1 := by
  cases p <;> first | exact Nat.le_refl 1 | exact Nat.zero_le 1

omit [DecidableEq ι] in
/-- Each thread looks at the stack once at a time. -/
theorem sum_looks_le (pc : Option ι → Pc T) : ∑ i, (pc i).looks ≤ Fintype.card ι + 1 := by
  refine (Finset.sum_le_sum fun i _ => (pc i).looks_le).trans_eq ?_
  rw [Finset.sum_const, Finset.card_univ, Fintype.card_option, Nat.nsmul_eq_mul, Nat.mul_one]

omit [DecidableEq ι] [Fintype ι] in
/-- A value that comes makes no thread wait longer. -/
theorem Pc.rank_mono {cost : Nat} {promises promises' : Nat → Option (List T)}
    (h : ∀ chunk, (promises chunk).isSome = true → (promises' chunk).isSome = true) (p : Pc T) :
    p.rank cost promises' ≤ p.rank cost promises := by
  cases p with
  | wait_for job result new_lower calls =>
      unfold Pc.rank
      refine Nat.add_le_add_right ?_ _
      by_cases hready : (promises new_lower).isSome = true
      · rw [if_pos hready, if_pos (h new_lower hready)]
      · rw [if_neg hready]
        split
        · exact Nat.le_succ 1
        · exact Nat.le_refl 2
  | _ => exact Nat.le_refl _

/-- What the measure says after thread `i` has gone to `p`: only its own part changes, and what
the stack says. `looks` is how many threads are going to look at the stack. -/
theorem rank_spec (hpc : t.pc = Function.update s.pc i p)
    (hpromises : ∀ chunk, (s.promises chunk).isSome = true → (t.promises chunk).isSome = true) :
    ∃ rest looks looks',
      s.rank = queued (element_cost ι) s.chunks +
        (rest + (s.pc i).rank (element_cost ι) s.promises) + (if s.chunks = [] then 0 else looks) ∧
      t.rank ≤ queued (element_cost ι) t.chunks +
        (rest + p.rank (element_cost ι) t.promises) + (if t.chunks = [] then 0 else looks') ∧
      looks' + (s.pc i).looks = looks + p.looks ∧ looks' ≤ Fintype.card ι + 1 := by
  refine ⟨∑ j ∈ Finset.univ.erase i, (s.pc j).rank (element_cost ι) s.promises,
    ∑ j, (s.pc j).looks, ∑ j, (t.pc j).looks, ?_, ?_, ?_, sum_looks_le t.pc⟩
  · rw [Finset.sum_erase_add _ _ (Finset.mem_univ i)]
    rfl
  · unfold Sys.rank Sys.looking
    refine Nat.add_le_add_right (Nat.add_le_add_left ?_ _) _
    rw [← Finset.sum_erase_add _ _ (Finset.mem_univ i), hpc, Function.update_self]
    refine Nat.add_le_add_right (Finset.sum_le_sum fun j hj => ?_) _
    rw [Function.update_of_ne (Finset.ne_of_mem_erase hj)]
    exact Pc.rank_mono hpromises _
  · rw [hpc]
    exact sum_update Pc.looks s.pc p (Finset.mem_univ i)

/-- What the rank of one thread's step is, with the others' part set aside. -/
theorem rank_spec_goto (s : Sys T ι) (i : Option ι) (p : Pc T) :
    ∃ rest looks looks',
      s.rank = queued (element_cost ι) s.chunks +
        (rest + (s.pc i).rank (element_cost ι) s.promises) + (if s.chunks = [] then 0 else looks) ∧
      (s.goto i p).rank ≤ queued (element_cost ι) s.chunks +
        (rest + p.rank (element_cost ι) s.promises) + (if s.chunks = [] then 0 else looks') ∧
      looks' + (s.pc i).looks = looks + p.looks ∧ looks' ≤ Fintype.card ι + 1 :=
  rank_spec (t := s.goto i p) rfl fun _ => id

variable [LT T] {part : Partition T}

omit [LT T] in
/-- A step that takes thread `i` to `p` with the stack as it is. -/
theorem rank_goto (hless : p.rank (element_cost ι) s.promises + p.looks <
      (s.pc i).rank (element_cost ι) s.promises) : (s.goto i p).rank < s.rank := by
  obtain ⟨rest, looks, looks', hs, ht, hlooks, -⟩ := rank_spec_goto s i p
  split at ht <;> split at hs <;> first | contradiction | omega

omit [LT T] in
/-- A step that takes the first chunk: it goes from the stack to the thread. -/
theorem rank_take {chunk : Nat} {chunk_data : List T} {rest : List (Nat × List T)}
    {taken : List (Nat × Option ι)} (hchunks : s.chunks = (chunk, chunk_data) :: rest)
    (hlooks : p.looks = 0)
    (hless : p.rank (element_cost ι) s.promises < element_cost ι * chunk_data.length + 4 +
      (s.pc i).rank (element_cost ι) s.promises) :
    ({ s.goto i p with chunks := rest, taken := taken } : Sys T ι).rank < s.rank := by
  obtain ⟨others, looks, looks', hs, ht, hsum, -⟩ :=
    rank_spec (s := s) (i := i) (p := p)
      (t := { s.goto i p with chunks := rest, taken := taken }) rfl fun _ => id
  change _ ≤ queued (element_cost ι) rest +
    (others + p.rank (element_cost ι) s.promises) + (if rest = [] then 0 else looks') at ht
  rw [hchunks, queued, if_neg (List.cons_ne_nil _ _)] at hs
  split at ht <;> omega

omit [LT T] in
/-- A value that is there makes nothing longer. -/
theorem rank_set_value {chunk : Nat} {value : List T}
    (hstep : s.set_value i chunk value p = some t)
    (hless : ∀ promises, p.rank (element_cost ι) promises + p.looks <
      (s.pc i).rank (element_cost ι) s.promises) : t.rank < s.rank := by
  unfold Sys.set_value at hstep
  split at hstep
  · next hnone =>
    obtain rfl := Option.some.inj hstep
    obtain ⟨rest, looks, looks', hs, ht, hsum, -⟩ :=
      rank_spec (s := s) (i := i) (p := p)
        (t := { s.goto i p with promises := Function.update s.promises chunk (some value) }) rfl
        fun c hc => by
          dsimp only
          by_cases h : c = chunk
          · rw [h, Function.update_self]
            rfl
          · rw [Function.update_of_ne h]
            exact hc
    have hp := hless (Function.update s.promises chunk (some value))
    change _ ≤ queued (element_cost ι) s.chunks +
      (rest + p.rank (element_cost ι) (Function.update s.promises chunk (some value))) +
        (if s.chunks = [] then 0 else looks') at ht
    split at ht <;> split at hs <;> first | contradiction | omega
  · cases hstep

/-- A push. The rest of the call and its chunk are one element shorter, which pays for the chunk
and for every thread that now has a chunk to look for. -/
theorem rank_push {job : Option Nat} {x : T} {xs : List T} {calls : List (Call T)}
    (hpc : s.pc i = .do_sort job (x :: xs) calls) {pushed : List (List T)} {chunk : Nat} :
    ({ s.goto i (.do_sort job (part.higher_chunk x xs) (.higher [x] chunk :: calls)) with
        chunks := (chunk, part.lower_chunk x xs) :: s.chunks, pushed := pushed } : Sys T ι).rank <
      s.rank := by
  obtain ⟨rest, looks, looks', hs, ht, hsum, hle⟩ :=
    rank_spec (s := s) (i := i)
      (p := .do_sort job (part.higher_chunk x xs) (.higher [x] chunk :: calls))
      (t := { s.goto i (.do_sort job (part.higher_chunk x xs) (.higher [x] chunk :: calls)) with
        chunks := (chunk, part.lower_chunk x xs) :: s.chunks, pushed := pushed }) rfl fun _ => id
  have hlength := part.length_add x xs
  have hcost : element_cost ι * (xs.length + 1) =
      element_cost ι * (part.lower_chunk x xs).length +
        element_cost ι * (part.higher_chunk x xs).length + element_cost ι := by
    rw [← hlength, Nat.mul_add, Nat.mul_add, Nat.mul_one]
  have hcard : element_cost ι = Fintype.card ι + 10 := rfl
  refine Nat.lt_of_le_of_lt ht ?_
  rw [hs]
  simp only [hpc, Pc.rank, List.length_cons, queued, hcost, if_neg (List.cons_ne_nil _ _)]
  omega

/-- **The measure.** No step increases it, and one that is not idle decreases it. -/
theorem rank_run (hstep : s.run part i = some t) :
    t.rank ≤ s.rank ∧ (¬ s.Idles i → t.rank < s.rank) := by
  have hless : t.rank < s.rank → t.rank ≤ s.rank ∧ (¬ s.Idles i → t.rank < s.rank) :=
    fun h => ⟨h.le, fun _ => h⟩
  unfold Sys.run at hstep
  cases hpc : s.pc i with
  | off => simp only [hpc, reduceCtorEq] at hstep
  | sort_thread =>
      cases hchunks : s.chunks with
      | nil =>
          simp only [hpc, hchunks, Option.some.injEq] at hstep
          have hsame : t = s := by
            rw [← hstep, Sys.goto, ← hpc, Function.update_eq_self]
          refine ⟨by rw [hsame], fun hbusy => absurd ⟨hchunks, ?_⟩ hbusy⟩
          rw [hpc]
          trivial
      | cons first rest =>
          obtain ⟨chunk, chunk_data⟩ := first
          simp only [hpc, hchunks, Option.some.injEq] at hstep
          subst hstep
          refine hless (rank_take hchunks rfl ?_)
          rw [hpc]
          show _ * _ + 1 + (4 * 0 + 1) < _ * _ + 4 + 0
          omega
  | do_sort job chunk_data calls =>
      cases chunk_data with
      | nil =>
          simp only [hpc, Option.some.injEq] at hstep
          subst hstep
          refine hless (rank_goto ?_)
          rw [hpc]
          simp only [Pc.rank, Pc.looks, List.length_nil, Nat.mul_zero]
          omega
      | cons x xs =>
          simp only [hpc, Option.some.injEq] at hstep
          subst hstep
          exact hless (rank_push hpc)
  | wait_for job result new_lower calls =>
      cases hready : s.promises new_lower with
      | none =>
          simp only [hpc, hready, Option.some.injEq] at hstep
          subst hstep
          -- to look at the stack costs something only where there is a chunk
          obtain ⟨rest, looks, looks', hs, ht, hsum, -⟩ :=
            rank_spec_goto s i (.try_sort_chunk job result new_lower calls)
          simp only [hpc, Pc.rank, hready, Pc.looks, Option.isSome_none, Bool.false_eq_true,
            if_false] at hs ht hsum
          unfold Sys.Idles
          rw [hpc]
          by_cases hchunks : s.chunks = []
          · rw [if_pos hchunks] at hs ht
            exact ⟨ht.trans hs.ge, fun hbusy => absurd ⟨hchunks, hready⟩ hbusy⟩
          · rw [if_neg hchunks] at hs ht
            exact ⟨by omega, fun _ => by omega⟩
      | some lower =>
          simp only [hpc, hready, Option.some.injEq] at hstep
          subst hstep
          refine hless (rank_goto ?_)
          simp only [hpc, Pc.rank, hready, Pc.looks, Option.isSome_some, if_true]
          omega
  | try_sort_chunk job result new_lower calls =>
      cases hchunks : s.chunks with
      | nil =>
          simp only [hpc, hchunks, Option.some.injEq] at hstep
          subst hstep
          obtain ⟨rest, looks, looks', hs, ht, hsum, -⟩ :=
            rank_spec_goto s i (.wait_for job result new_lower calls)
          simp only [hpc, Pc.rank, if_pos hchunks] at hs ht
          unfold Sys.Idles
          rw [hpc]
          cases hready : s.promises new_lower with
          | none =>
              rw [hready, Option.isSome_none, if_neg Bool.false_ne_true] at ht
              exact ⟨by omega, fun hbusy => absurd ⟨hchunks, hready⟩ hbusy⟩
          | some lower =>
              rw [hready, Option.isSome_some, if_pos rfl] at ht
              exact ⟨by omega, fun _ => by omega⟩
      | cons first rest =>
          obtain ⟨chunk, chunk_data⟩ := first
          simp only [hpc, hchunks, Option.some.injEq] at hstep
          subst hstep
          refine hless (rank_take hchunks rfl ?_)
          simp only [hpc, Pc.rank, List.length_cons]
          omega
  | ret job value calls =>
      cases calls with
      | nil =>
          cases job with
          | none => simp only [hpc, reduceCtorEq] at hstep
          | some chunk =>
              simp only [hpc] at hstep
              refine hless (rank_set_value hstep fun promises => ?_)
              rw [hpc]
              exact Nat.zero_lt_one
      | cons call calls =>
          have hwait : ∀ promises result new_lower,
              (Pc.wait_for job result new_lower calls).rank (element_cost ι) promises + 1 <
                (Pc.ret job value (call :: calls)).rank (element_cost ι) s.promises := by
            intro promises result new_lower
            simp only [Pc.rank, List.length_cons]
            split <;> omega
          cases call with
          | higher result new_lower =>
              simp only [hpc, Option.some.injEq] at hstep
              subst hstep
              exact hless (rank_goto (hpc ▸ hwait _ _ _))
          | waiting result new_lower chunk =>
              simp only [hpc] at hstep
              exact hless (rank_set_value hstep fun promises => hpc ▸ hwait promises _ _)

/-- No step makes the rank larger, and one that is not idle makes it smaller. -/
theorem rank_step {input : List T} {a : Action ι}
    (hstep : (system part ι input).step s a = some t) :
    t.rank ≤ s.rank ∧ (a.Busy s → t.rank < s.rank) := by
  change Sys.step part s a = some t at hstep
  cases a with
  | start i =>
      cases hpc : s.pc (some i) <;>
        simp only [Sys.step, hpc, reduceCtorEq, Option.some.injEq] at hstep
      subst hstep
      have hless : (s.goto (some i) .sort_thread).rank < s.rank :=
        rank_goto (by rw [hpc]; exact Nat.zero_lt_one)
      exact ⟨hless.le, fun _ => hless⟩
  | run i => exact rank_run hstep

/-- The measure at the start. -/
theorem rank_init (part : Partition T) (input : List T) :
    (system part ι input).init.rank =
      element_cost ι * input.length + 1 + Fintype.card ι := by
  have hrest : ∑ i : ι, ((system part ι input).init.pc (some i)).rank (element_cost ι)
      (fun _ => none) = Fintype.card ι :=
    Finset.card_eq_sum_ones Finset.univ |>.symm
  unfold Sys.rank Sys.looking
  rw [Fintype.sum_option]
  show 0 + (element_cost ι * input.length + 1 + (4 * 0 + 0) + _) + 0 = _
  rw [show (system part ι input).init.promises = fun _ => none from rfl, hrest]
  omega

/-- As long as the first call has not returned the sort can go on to where it has. -/
theorem Inv.returns {input : List T} (h : Inv part input s) :
    ∃ bs u value, (system part ι input).exec s bs = some u ∧ u.Returned value := by
  induction hn : s.rank using Nat.strong_induction_on generalizing s with
  | _ n ih =>
      by_cases hend : ∃ value, s.Returned value
      · obtain ⟨value, hend⟩ := hend
        exact ⟨[], s, value, rfl, hend⟩
      · obtain ⟨i, t, hstep, hbusy⟩ := h.progress fun value hr => hend ⟨value, hr⟩
        have hrun : (system part ι input).step s (.run i) = some t := hstep
        have hless := (rank_step hrun).2 hbusy
        obtain ⟨bs, u, value, hbs, hu⟩ := ih t.rank (hn ▸ hless) (inv_step h hrun) rfl
        exact ⟨.run i :: bs, u, value,
          (system part ι input).exec_cons_some.mpr ⟨t, hrun, hbs⟩, hu⟩

end Rank

omit [DecidableEq ι] in
/-- A promise that is set has its own chunk sorted, by the one thread that took it. -/
theorem Inv.sorted_chunk [Preorder T] {part : Partition T} {input : List T} {s : Sys T ι}
    (h : Inv part input s) {chunk : Nat} {value : List T}
    (hvalue : s.promises chunk = some value) :
    (∃ i, (chunk, i) ∈ s.taken) ∧ ∃ chunk_data, s.pushed[chunk]? = some chunk_data ∧
      Sorted value ∧ value.Perm chunk_data := by
  obtain ⟨htaken, rfl⟩ := h.promises chunk value hvalue
  obtain ⟨⟨c, i⟩, hmem, rfl⟩ := List.mem_map.mp htaken
  have hget := List.getElem?_eq_getElem (h.taken_lt c htaken)
  refine ⟨⟨i, hmem⟩, _, hget, quick_sort_sorted part _, ?_⟩
  rw [lower_value, List.getD_eq_getElem?_getD, hget]
  exact quick_sort_perm part _

/-- The invariant has what the sort promises. -/
theorem Inv.sorts [Preorder T] {part : Partition T} {input : List T} {s : Sys T ι}
    (h : Inv part input s) : Sorts part input s where
  progress := h.progress
  taken_once := h.taken_nodup
  sorted_chunk _ _ := h.sorted_chunk
  all_sorted _ hend := h.all_sorted hend
  result := by
    intro value hend
    have hfits := h.fits none
    rw [hend] at hfits
    obtain rfl : value = quick_sort part input := hfits
    exact ⟨quick_sort_sorted part input, quick_sort_perm part input⟩

/-- **The sort.** With any helpers, started at any time, and after any run: some thread can do
something as long as the first call has not returned, each chunk is sorted by one thread,
and what is returned is the input sorted.

It is returned, too: there are only so many steps that are not idle, some thread can take such a
step until the first call has returned, and from wherever a run has got to another one leads to
where it has. -/
theorem helping_sort [Preorder T] (part : Partition T) (input : List T) (as : List (Action ι)) :
    (system part ι input).Along (Sorts part input) (system part ι input).init as ∧
      ∀ [Fintype ι],
        (system part ι input).count (fun s a => a.Busy s) (system part ι input).init as ≤
            element_cost ι * input.length + 1 + Fintype.card ι ∧
          ∀ s, (system part ι input).exec (system part ι input).init as = some s →
            ∃ bs u value, (system part ι input).exec s bs = some u ∧ u.Returned value := by
  have hkeeps : ∀ (s : Sys T ι) a t, Inv part input s →
      (system part ι input).step s a = some t → Inv part input t :=
    fun _ _ _ h hstep => inv_step h hstep
  refine ⟨(system part ι input).along_of_inv (fun _ => Inv.sorts) hkeeps (inv_init part input),
    ⟨?_, fun s hrun => ?_⟩⟩
  · rw [← rank_init part input]
    exact (system part ι input).count_le Sys.rank (fun _ _ _ hstep => (rank_step hstep).1)
      (fun _ _ _ hbusy hstep => (rank_step hstep).2 hbusy) _ as
  · exact ((system part ι input).exec_inv hkeeps (inv_init part input) hrun).returns

end BoostNet.HelpingSorter
