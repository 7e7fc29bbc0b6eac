/-
When `pool_thread_quick_sort` deadlocks (Concurrent/day22-ThreadPool): exactly when its
recursion commits at least as many nonempty chunks as the pool has workers.

The scheduling that leads there keeps `tasks_` empty. While a worker is free, some thread
commits its next lower chunk, and the free worker takes it: an empty chunk it sorts at
once, a nonempty one it holds and does nothing more (`Held`). When all workers hold a
chunk, every thread is let go on, commits the rest of its chunks and waits, and nobody is
left to take them (`drain_all`).

* `deadlock_reachable`: with as many nonempty chunks as workers, a deadlock is reachable.
* `returns_iff`: the call returns the sorted list under every scheduling if and only if it
  commits fewer nonempty chunks than there are workers.
* `sort_deadlocks`: two workers and the list 3, 2, 1.
-/
import BoostNet.PoolQuickSort

set_option autoImplicit false

namespace BoostNet.PoolQuickSort

open QuickSort

variable {T : Type*} [LT T] {n : Nat} {part : Partition T} {input : List T} {s t : Sys T n}
  {i : Option (Fin n)}

/-! ## Holding the workers -/

/-- The future is to be set by a task that was committed. -/
def Sys.Unset (s : Sys T n) (f : Nat) : Prop := f < s.committed ∧ s.futures f = none

/-- The thread has still to commit a chunk, or waits first for one that is not sorted. -/
def Waiting (s : Sys T n) (input : List T) (frames : List (Frame T)) : Prop :=
  input ≠ [] ∨ ∃ frame rest, frames = frame :: rest ∧ s.Unset frame.new_lower

/-- A worker is free, and a thread that is not splits its list up and is going to wait. -/
def HeldPc (s : Sys T n) (i : Option (Fin n)) : Pc T → Prop
  | .free => i ≠ none
  | .call job input frames => (job = none ↔ i = none) ∧ Waiting s input frames
  | .get _ _ _ _ | .ret _ _ _ => False

structure Held (s : Sys T n) : Prop where
  tasks : s.tasks_ = []
  threads : ∀ i, HeldPc s i (s.pc i)
  unset : ∀ f, s.committed ≤ f → s.futures f = none

omit [LT T] in
theorem Waiting.mono {frames : List (Frame T)} (h : Waiting s input frames)
    (hunset : ∀ f, s.Unset f → t.Unset f) : Waiting t input frames :=
  h.imp_right fun ⟨frame, rest, heq, hf⟩ => ⟨frame, rest, heq, hunset _ hf⟩

omit [LT T] in
theorem HeldPc.mono {p : Pc T} (h : HeldPc s i p) (hunset : ∀ f, s.Unset f → t.Unset f) :
    HeldPc t i p := by
  cases p with
  | free => exact h
  | call job input frames => exact ⟨h.1, h.2.mono hunset⟩
  | get job result new_lower frames | ret job value frames => exact h

theorem held_init (hne : input ≠ []) : Held (system part n input).init where
  tasks := rfl
  threads i := by
    cases i with
    | none => exact ⟨iff_of_true rfl rfl, Or.inl hne⟩
    | some w => exact Option.some_ne_none w
  unset _ _ := rfl

/-! ### One round -/

/-- The state after thread `i` has committed its next chunk. -/
def Sys.afterCommit (part : Partition T) (s : Sys T n) (i : Option (Fin n)) (job : Option Nat)
    (p : T) (xs : List T) (frames : List (Frame T)) : Sys T n :=
  { s.goto i (.call job (part.higher_chunk p xs)
      ({ result := [p], new_lower := s.committed } :: frames)) with
    tasks_ := s.tasks_ ++ [(s.committed, part.lower_chunk p xs)]
    committed := s.committed + 1 }

/-- The state after worker `w` has then taken it. -/
def Sys.afterTake (part : Partition T) (s : Sys T n) (i : Option (Fin n)) (job : Option Nat)
    (p : T) (xs : List T) (frames : List (Frame T)) (w : Fin n) : Sys T n :=
  { (s.afterCommit part i job p xs frames).goto (some w)
      (.call (some s.committed) (part.lower_chunk p xs) []) with tasks_ := [] }

/-- The state after the worker has sorted it, if it is empty. -/
def Sys.afterEmpty (part : Partition T) (s : Sys T n) (i : Option (Fin n)) (job : Option Nat)
    (p : T) (xs : List T) (frames : List (Frame T)) : Sys T n :=
  { s.afterCommit part i job p xs frames with
    tasks_ := []
    futures := Function.update s.futures s.committed (some []) }

section Round

variable {w : Fin n} {job : Option Nat} {p : T} {xs : List T} {frames : List (Frame T)}

theorem step_commit (hpc : s.pc i = .call job (p :: xs) frames) :
    s.step part i = some (s.afterCommit part i job p xs frames) := by
  simp only [Sys.step, hpc]
  rfl

/-- The worker is still free after the commit. -/
theorem afterCommit_free (hpc : s.pc i = .call job (p :: xs) frames)
    (hw : s.pc (some w) = .free) :
    (s.afterCommit part i job p xs frames).pc (some w) = .free := by
  refine (Function.update_of_ne ?_ _ _).trans hw
  rintro rfl
  rw [hw] at hpc
  cases hpc

theorem step_take (htasks : s.tasks_ = []) (hpc : s.pc i = .call job (p :: xs) frames)
    (hw : s.pc (some w) = .free) :
    (s.afterCommit part i job p xs frames).step part (some w) =
      some (s.afterTake part i job p xs frames w) := by
  have hqueue : (s.afterCommit part i job p xs frames).tasks_ =
      [(s.committed, part.lower_chunk p xs)] := by
    show s.tasks_ ++ [(s.committed, part.lower_chunk p xs)] = _
    rw [htasks]
    rfl
  simp only [Sys.step, afterCommit_free hpc hw, hqueue]
  rfl

variable (part input) in
theorem exec_take (htasks : s.tasks_ = []) (hpc : s.pc i = .call job (p :: xs) frames)
    (hw : s.pc (some w) = .free) :
    (system part n input).exec s [i, some w] = some (s.afterTake part i job p xs frames w) :=
  Lts.exec_cons_some _ |>.mpr ⟨_, step_commit hpc,
    Lts.exec_cons_some _ |>.mpr ⟨_, step_take htasks hpc hw, rfl⟩⟩

variable (input) in
theorem exec_empty (htasks : s.tasks_ = []) (hpc : s.pc i = .call job (p :: xs) frames)
    (hw : s.pc (some w) = .free) (hempty : part.lower_chunk p xs = []) :
    (system part n input).exec s [i, some w, some w, some w] =
      some (s.afterEmpty part i job p xs frames) := by
  show (system part n input).exec s ([i, some w] ++ [some w, some w]) = _
  rw [(system part n input).exec_append (exec_take part input htasks hpc hw)]
  have hcall : (s.afterTake part i job p xs frames w).pc (some w) =
      .call (some s.committed) [] [] := by
    rw [← hempty]
    exact Function.update_self _ _ _
  have hret : (s.afterTake part i job p xs frames w).step part (some w) =
      some ((s.afterTake part i job p xs frames w).goto (some w)
        (.ret (some s.committed) [] [])) := by
    simp only [Sys.step, hcall]
  refine (Lts.exec_cons_some _).mpr ⟨_, hret, (Lts.exec_cons_some _).mpr ⟨_, ?_, rfl⟩⟩
  have hret' : ((s.afterTake part i job p xs frames w).goto (some w)
      (.ret (some s.committed) [] [])).pc (some w) = .ret (some s.committed) [] [] :=
    Function.update_self _ _ _
  show Sys.step part _ (some w) = _
  -- the worker is free again
  have hfree : (s.afterCommit part i job p xs frames).pc (some w) = .free :=
    afterCommit_free hpc hw
  have hpcs : Function.update (Function.update (Function.update
      (s.afterCommit part i job p xs frames).pc (some w)
        (.call (some s.committed) (part.lower_chunk p xs) [])) (some w)
        (.ret (some s.committed) [] [])) (some w) .free =
      (s.afterCommit part i job p xs frames).pc := by
    rw [Function.update_idem, Function.update_idem, Function.update_eq_self_iff, hfree]
  simp only [Sys.step, hret']
  simp only [Sys.goto, Sys.afterTake, Sys.afterEmpty, hpcs]
  rfl

/-- Taking the chunk keeps the threads held, and all chunks to come. -/
theorem held_take (h : Held s) (hpc : s.pc i = .call job (p :: xs) frames)
    (hne : part.lower_chunk p xs ≠ []) :
    Held (s.afterTake part i job p xs frames w) := by
  have hunset : ∀ f, s.Unset f → (s.afterTake part i job p xs frames w).Unset f :=
    fun f hf => ⟨Nat.lt_succ_of_lt hf.1, hf.2⟩
  have hi := h.threads i
  rw [hpc] at hi
  refine ⟨rfl, fun j => ?_, fun f hf => h.unset f (Nat.le_of_succ_le hf)⟩
  show HeldPc _ j (Function.update (Function.update s.pc i _) (some w) _ j)
  by_cases hjw : j = some w
  · rw [hjw, Function.update_self]
    exact ⟨by simp, Or.inl hne⟩
  · rw [Function.update_of_ne hjw]
    by_cases hji : j = i
    · -- the thread that commits is going to wait for the new future
      rw [hji, Function.update_self]
      exact ⟨hi.1, Or.inr ⟨_, _, rfl, Nat.lt_succ_self _, h.unset _ (Nat.le_refl _)⟩⟩
    · rw [Function.update_of_ne hji]
      exact (h.threads j).mono hunset

variable (part) in
theorem load_take (htasks : s.tasks_ = []) (hpc : s.pc i = .call job (p :: xs) frames)
    (hw : s.pc (some w) = .free) :
    (s.afterTake part i job p xs frames w).load part = s.load part := by
  -- the chunk goes from the call into the queue, and from the queue to the worker
  have hcommit := load_update part (t := s.afterCommit part i job p xs frames) rfl
  have htake := load_update part (s := s.afterCommit part i job p xs frames)
    (t := s.afterTake part i job p xs frames w) rfl
  have hqueue : ((s.afterCommit part i job p xs frames).tasks_.map (taskLoad part)).sum =
      taskLoad part (s.committed, part.lower_chunk p xs) := by
    show ((s.tasks_ ++ [(s.committed, part.lower_chunk p xs)]).map (taskLoad part)).sum = _
    rw [htasks]
    rfl
  have hlocal := load_commit part job p xs frames
    { result := [p], new_lower := s.committed } s.committed
  have hfree : (Pc.free : Pc T).load part = 0 := rfl
  have hempty : ((s.afterTake part i job p xs frames w).tasks_.map (taskLoad part)).sum = 0 := rfl
  rw [hpc, htasks, hqueue, List.map_nil, List.sum_nil] at hcommit
  rw [afterCommit_free hpc hw, hqueue, load_start] at htake
  omega

/-- An empty chunk that is sorted keeps the threads held, and all chunks to come. -/
theorem held_empty (h : Held s) (hpc : s.pc i = .call job (p :: xs) frames)
    (hne : part.higher_chunk p xs ≠ []) : Held (s.afterEmpty part i job p xs frames) := by
  have hunset : ∀ f, s.Unset f → (s.afterEmpty part i job p xs frames).Unset f := by
    intro f hf
    refine ⟨Nat.lt_succ_of_lt hf.1, ?_⟩
    exact (Function.update_of_ne (Nat.ne_of_lt hf.1) _ _).trans hf.2
  have hi := h.threads i
  rw [hpc] at hi
  refine ⟨rfl, fun j => ?_, fun f hf => ?_⟩
  · show HeldPc _ j (Function.update s.pc i _ j)
    by_cases hji : j = i
    · rw [hji, Function.update_self]
      exact ⟨hi.1, Or.inl hne⟩
    · rw [Function.update_of_ne hji]
      exact (h.threads j).mono hunset
  · have hlt : s.committed < f := hf
    exact (Function.update_of_ne (Nat.ne_of_gt hlt) _ _).trans (h.unset f (Nat.le_of_lt hlt))

theorem load_empty (htasks : s.tasks_ = []) (hpc : s.pc i = .call job (p :: xs) frames)
    (hempty : part.lower_chunk p xs = []) :
    (s.afterEmpty part i job p xs frames).load part = s.load part := by
  have hload := load_update part (t := s.afterEmpty part i job p xs frames) rfl
  have hlocal := load_commit part job p xs frames
    { result := [p], new_lower := s.committed } s.committed
  have hzero : taskLoad part (s.committed, part.lower_chunk p xs) = 0 := by
    rw [hempty, taskLoad, nonempty_chunks_nil]
    rfl
  have hnil : ((s.afterEmpty part i job p xs frames).tasks_.map (taskLoad part)).sum = 0 := rfl
  rw [hpc, htasks, List.map_nil, List.sum_nil] at hload
  omega

end Round

/-! ### Until no worker is free -/

/-- While a worker is free and there are as many nonempty chunks as workers, a thread has
one to commit. -/
theorem exists_rest (h : Held s) (hload : n ≤ s.load part) {w : Fin n}
    (hw : s.pc (some w) = .free) : ∃ i, 0 < (s.pc i).rest part := by
  by_contra hnone
  -- otherwise the load is that of the workers that are busy, and one of them is free
  have hrest : ∀ i, (s.pc i).rest part = 0 := by
    intro i
    by_contra hne
    exact hnone ⟨i, Nat.pos_of_ne_zero hne⟩
  have hcaller : (s.pc none).load part = 0 := by
    have hi := h.threads none
    have hzero := hrest none
    cases hpc : s.pc none with
    | call job input frames =>
        rw [hpc] at hi hzero
        obtain rfl := hi.1.mpr rfl
        show 0 + (Pc.call none input frames).rest part = 0
        rw [hzero]
    | free => rfl
    | get job result new_lower frames | ret job value frames =>
        rw [hpc] at hi
        exact absurd hi id
  have hworker : ∀ v : Fin n, (s.pc (some v)).load part ≤ 1 := by
    intro v
    rw [Pc.load, hrest]
    exact busy_le _
  have hlt : ∑ v : Fin n, (s.pc (some v)).load part < ∑ _v : Fin n, 1 := by
    refine Finset.sum_lt_sum (fun v _ => hworker v) ⟨w, Finset.mem_univ w, ?_⟩
    rw [hw]
    exact Nat.one_pos
  have hcard : ∑ _v : Fin n, 1 = n := by simp
  rw [Sys.load, Fintype.sum_option, hcaller, h.tasks, List.map_nil, List.sum_nil] at hload
  omega

/-- A thread with chunks to commit is at a call whose list is not empty. -/
theorem Pc.call_of_rest {p : Pc T} (h : 0 < p.rest part) :
    ∃ job x xs frames, p = .call job (x :: xs) frames := by
  cases p with
  | call job input frames =>
      cases input with
      | nil =>
          rw [Pc.rest, nonempty_chunks_nil] at h
          exact absurd h (Nat.lt_irrefl 0)
      | cons x xs => exact ⟨job, x, xs, frames, rfl⟩
  | _ => exact absurd h (Nat.lt_irrefl 0)

variable (input) in
/-- **One round**: a thread commits its next chunk, and a free worker takes it. -/
theorem held_round (h : Held s) (hload : n ≤ s.load part) {w : Fin n} (hw : s.pc (some w) = .free) :
    ∃ as t, (system part n input).exec s as = some t ∧ 0 < as.length ∧ Held t ∧
      t.load part = s.load part ∧
      ((∃ w, t.pc (some w) = .free) ∨
        ∃ i job p xs frames, t.pc i = .call job (p :: xs) frames) := by
  obtain ⟨i, hi⟩ := exists_rest h hload hw
  obtain ⟨job, p, xs, frames, hpc⟩ := Pc.call_of_rest hi
  rw [hpc, Pc.rest, nonempty_chunks_cons] at hi
  by_cases hempty : part.lower_chunk p xs = []
  · -- the worker sorts the empty chunk, and the thread has more to commit
    have hne : part.higher_chunk p xs ≠ [] := by
      intro heq
      rw [hempty, heq, nonempty_chunks_nil] at hi
      simp at hi
    exact ⟨_, _, exec_empty input h.tasks hpc hw hempty, Nat.succ_pos _, held_empty h hpc hne,
      load_empty h.tasks hpc hempty, Or.inl ⟨w, afterCommit_free hpc hw⟩⟩
  · -- the worker holds the chunk
    obtain ⟨p', xs', hchunk⟩ := List.exists_cons_of_ne_nil hempty
    refine ⟨_, _, exec_take part input h.tasks hpc hw, Nat.succ_pos _, held_take h hpc hempty,
      load_take part h.tasks hpc hw, Or.inr ⟨some w, some s.committed, p', xs', [], ?_⟩⟩
    rw [← hchunk]
    exact Function.update_self _ _ _

variable (input) in
/-- **All workers can be made to hold a chunk**, if there are as many nonempty chunks. -/
theorem reaches_held (h : Held s) (hload : n ≤ s.load part) {w : Fin n}
    (hw : s.pc (some w) = .free) :
    ∃ t, (system part n input).Reaches s t ∧ Held t ∧ (∀ w, t.pc (some w) ≠ .free) ∧
      ∃ i job p xs frames, t.pc i = .call job (p :: xs) frames := by
  induction hk : s.work using Nat.strongRecOn generalizing s w with
  | ind k ih =>
      obtain ⟨as, u, hrun, hpos, hheld, hsame, hnext⟩ := held_round input h hload hw
      have hwork := (system part n input).length_le_of_measure (μ := Sys.work)
        (fun s i t hstep => work_step hstep) hrun
      by_cases hfree : ∃ w', u.pc (some w') = .free
      · obtain ⟨w', hw'⟩ := hfree
        obtain ⟨t, hreach, ht⟩ := ih u.work (by omega) hheld (by omega) hw' rfl
        exact ⟨t, Lts.Reaches.trans ⟨as, hrun⟩ hreach, ht⟩
      · exact ⟨u, ⟨as, hrun⟩, hheld, fun w' hw' => hfree ⟨w', hw'⟩, hnext.resolve_left hfree⟩

/-! ## Waiting for ever -/

variable (part input) in
/-- A thread that is let go on commits the rest of its chunks, and waits. -/
theorem drain {job : Option Nat} {xs : List T} {frames : List (Frame T)}
    (hpc : s.pc i = .call job xs frames) (hwait : Waiting s xs frames)
    (hunset : ∀ f, s.committed ≤ f → s.futures f = none) :
    ∃ t, (system part n input).Reaches s t ∧ t.Blocked i ∧ (∀ j, j ≠ i → t.pc j = s.pc j) ∧
      t.futures = s.futures ∧ s.committed ≤ t.committed ∧
      (s.tasks_ ≠ [] ∨ xs ≠ [] → t.tasks_ ≠ []) := by
  induction hk : xs.length using Nat.strongRecOn generalizing s xs frames with
  | ind k ih =>
      cases xs with
      | nil =>
          -- the innermost call returns, and the one around it waits
          obtain ⟨frame, rest, rfl, hf⟩ := hwait.resolve_left (fun hne => hne rfl)
          have hret : s.step part i = some (s.goto i (.ret job [] (frame :: rest))) := by
            simp only [Sys.step, hpc]
          have hpc' : (s.goto i (.ret job [] (frame :: rest))).pc i = .ret job [] (frame :: rest) :=
            Function.update_self _ _ _
          have hget : (s.goto i (.ret job [] (frame :: rest))).step part i =
              some ((s.goto i (.ret job [] (frame :: rest))).goto i
                (.get job (frame.result ++ []) frame.new_lower rest)) := by
            simp only [Sys.step, hpc']
          refine ⟨_, (Lts.Reaches.of_step hret).trans (Lts.Reaches.of_step hget), ?_, ?_, rfl,
            Nat.le_refl _, ?_⟩
          · exact ⟨_, _, _, _, Function.update_self _ _ _, hf.2⟩
          · intro j hj
            show Function.update (Function.update s.pc i _) i _ j = s.pc j
            rw [Function.update_of_ne hj, Function.update_of_ne hj]
          · exact fun h => h.resolve_right (fun hne => hne rfl)
      | cons p xs =>
          -- a commit, and the higher chunk is shorter
          have hlen := part.length_add p xs
          obtain ⟨t, hreach, hblocked, hother, hfutures, hcommitted, htasks⟩ :=
            ih (part.higher_chunk p xs).length (by rw [← hk, List.length_cons]; omega)
              (s := s.afterCommit part i job p xs frames) (Function.update_self _ _ _)
              (Or.inr ⟨_, _, rfl, Nat.lt_succ_self _, hunset _ (Nat.le_refl _)⟩)
              (fun f hf => hunset f (Nat.le_of_succ_le hf)) rfl
          refine ⟨t, (Lts.Reaches.of_step (step_commit hpc)).trans hreach, hblocked, ?_, hfutures,
            Nat.le_of_succ_le hcommitted, ?_⟩
          · intro j hj
            exact (hother j hj).trans (Function.update_of_ne hj _ _)
          · intro _
            exact htasks (Or.inl (List.append_ne_nil_of_right_ne_nil _ (List.cons_ne_nil _ _)))

variable (part input) in
/-- All threads are let go on, one after the other. -/
theorem drain_all {l : List (Option (Fin n))} (hl : l.Nodup)
    (hcall : ∀ i ∈ l, ∃ job xs frames, s.pc i = .call job xs frames ∧ Waiting s xs frames)
    (hblocked : ∀ i, i ∉ l → s.Blocked i)
    (hunset : ∀ f, s.committed ≤ f → s.futures f = none)
    (hmore : s.tasks_ ≠ [] ∨ ∃ i ∈ l, ∃ job p xs frames, s.pc i = .call job (p :: xs) frames) :
    ∃ t, (system part n input).Reaches s t ∧ t.Deadlock := by
  induction l generalizing s with
  | nil =>
      refine ⟨s, Lts.Reaches.refl _ s, fun i => hblocked i List.not_mem_nil, ?_⟩
      rcases hmore with htasks | ⟨i, hi, -⟩
      · exact htasks
      · cases hi
  | cons i l ih =>
      obtain ⟨hil, hl⟩ := List.nodup_cons.mp hl
      obtain ⟨job, xs, frames, hpc, hwait⟩ := hcall i List.mem_cons_self
      obtain ⟨t, hreach, hi, hother, hfutures, hcommitted, htasks⟩ :=
        drain part input hpc hwait hunset
      have hunset' : ∀ f, s.Unset f → t.Unset f :=
        fun f hf => ⟨Nat.lt_of_lt_of_le hf.1 hcommitted, by rw [hfutures]; exact hf.2⟩
      have hne : ∀ j ∈ l, j ≠ i := fun j hj heq => hil (heq ▸ hj)
      have hcall' : ∀ j ∈ l, ∃ job xs frames,
          t.pc j = .call job xs frames ∧ Waiting t xs frames := by
        intro j hj
        obtain ⟨job', xs', frames', hpc', hwait'⟩ := hcall j (List.mem_cons_of_mem _ hj)
        exact ⟨job', xs', frames', (hother j (hne j hj)).trans hpc', hwait'.mono hunset'⟩
      have hblocked' : ∀ j, j ∉ l → t.Blocked j := by
        intro j hj
        by_cases hji : j = i
        · rw [hji]
          exact hi
        · -- it waited already, and for the same future
          obtain ⟨job', result, f, frames', hpc', hf⟩ :=
            hblocked j (fun hmem => (List.mem_cons.mp hmem).elim hji hj)
          exact ⟨job', result, f, frames', (hother j hji).trans hpc', by rw [hfutures]; exact hf⟩
      have hmore' : t.tasks_ ≠ [] ∨
          ∃ j ∈ l, ∃ job p xs frames, t.pc j = .call job (p :: xs) frames := by
        rcases hmore with hqueued | ⟨j, hj, job', p, xs', frames', hpc'⟩
        · exact Or.inl (htasks (Or.inl hqueued))
        · rcases List.mem_cons.mp hj with heq | hj
          · left
            rw [heq, hpc] at hpc'
            obtain ⟨-, rfl, -⟩ := Pc.call.inj hpc'
            exact htasks (Or.inr (List.cons_ne_nil _ _))
          · exact Or.inr ⟨j, hj, job', p, xs', frames', (hother j (hne j hj)).trans hpc'⟩
      have hunset'' : ∀ f, t.committed ≤ f → t.futures f = none := by
        intro f hf
        rw [hfutures]
        exact hunset f (Nat.le_trans hcommitted hf)
      obtain ⟨u, hreach', hu⟩ := ih hl hcall' hblocked' hunset'' hmore'
      exact ⟨u, hreach.trans hreach', hu⟩

/-- **A deadlock is reachable** with as many nonempty chunks as workers. -/
theorem deadlock_reachable (hn : 0 < n) (hle : n ≤ nonempty_chunks part input) :
    ∃ s, (system part n input).Reaches (system part n input).init s ∧ s.Deadlock := by
  have hne : input ≠ [] := by
    rintro rfl
    rw [nonempty_chunks_nil] at hle
    omega
  have hload : n ≤ (system part n input).init.load part := by
    rw [load_init]
    exact hle
  obtain ⟨s, hreach, hheld, hbusy, i, job, p, xs, frames, hpc⟩ :=
    reaches_held input (held_init hne) hload (w := ⟨0, hn⟩) rfl
  have hcall : ∀ j, ∃ job xs frames, s.pc j = .call job xs frames ∧ Waiting s xs frames := by
    intro j
    have hj := hheld.threads j
    cases hpcj : s.pc j with
    | call job xs frames =>
        rw [hpcj] at hj
        exact ⟨job, xs, frames, rfl, hj.2⟩
    | free =>
        rw [hpcj] at hj
        obtain ⟨w, rfl⟩ := Option.ne_none_iff_exists'.mp hj
        exact absurd hpcj (hbusy w)
    | get job result new_lower frames | ret job value frames =>
        rw [hpcj] at hj
        exact absurd hj id
  obtain ⟨t, hreach', hdead⟩ := drain_all part input
    (Finset.nodup_toList Finset.univ) (fun j _ => hcall j)
    (fun j hj => absurd (Finset.mem_toList.mpr (Finset.mem_univ j)) hj) hheld.unset
    (Or.inr ⟨i, Finset.mem_toList.mpr (Finset.mem_univ i), job, p, xs, frames, hpc⟩)
  exact ⟨t, hreach.trans hreach', hdead⟩

/-! ## When the call returns -/

/-- **The call returns the sorted list under every scheduling if and only if** it commits fewer
nonempty chunks than there are workers. A worker waits for a future of a task that is behind it in
the same queue. With as many waiting tasks as workers nobody is left to run it. -/
theorem returns_iff {T : Type*} [Preorder T] (part : Partition T) (n : Nat) (hn : 0 < n)
    (input : List T) : Returns part n input ↔ nonempty_chunks part input < n := by
  constructor
  · intro h
    by_contra hnot
    obtain ⟨s, hreach, hdead⟩ := deadlock_reachable hn (Nat.le_of_not_lt hnot)
    exact h.no_deadlock s hreach hdead
  · intro hlt
    refine ⟨fun s hreach => no_deadlock hlt hreach, ⟨_, fun as s => steps_le input as⟩, ?_⟩
    intro s hreach hstuck
    exact ⟨quick_sort part input, returned_of_stuck hreach hstuck (no_deadlock hlt hreach),
      quick_sort_sorted part input, quick_sort_perm part input⟩

/-- Two workers, and a list with one chunk that is not empty. -/
theorem returns_iff_pair : Returns (Partition.stable (T := Nat)) 2 [2, 1] := by
  apply (returns_iff Partition.stable 2 (by decide) [2, 1]).mpr
  have hpair : Partition.stable.lower_chunk 2 [1] = [1] ∧
      Partition.stable.higher_chunk 2 [1] = [] := ⟨by decide, by decide⟩
  have hone : Partition.stable.lower_chunk 1 [] = [] ∧
      Partition.stable.higher_chunk 1 [] = [] := ⟨by decide, by decide⟩
  rw [nonempty_chunks_cons, hpair.1, hpair.2, nonempty_chunks_cons, hone.1, hone.2]
  simp

/-- **Two workers deadlock on 3, 2, 1.** The workers take the chunks 2, 1 and 1, and the
chunk that the second one commits stays in the queue. -/
theorem sort_deadlocks :
    ∃ s, (system (Partition.stable (T := Nat)) 2 [3, 2, 1]).exec
        (system Partition.stable 2 [3, 2, 1]).init
        [none, some 0, some 0, some 1, some 1, none, none, some 0, some 0, some 1, some 1] =
      some s ∧ s.Deadlock := by
  refine ⟨_, rfl, ?_, List.cons_ne_nil _ _⟩
  refine Option.forall.mpr ⟨?_, Fin.forall_fin_two.mpr ⟨?_, ?_⟩⟩
  · exact ⟨none, [3], 0, [], rfl, rfl⟩
  · exact ⟨some 0, [2], 1, [], rfl, rfl⟩
  · exact ⟨some 1, [1], 2, [], rfl, rfl⟩

end BoostNet.PoolQuickSort
