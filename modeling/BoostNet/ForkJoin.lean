/-
Threads that apply a function to the elements of an array, start other threads and wait for
them. A library: no component is named here.

A program `Prog` is what a thread has left to do: loops over ranges, other threads to start, and
waits for threads that it has started, which it numbers in the order of their starts. A run
interleaves the threads in any order, one element a step.

`Prog.Ok` says that every thread that is started is also waited for. `Inv` is what holds in a
run of such a program: what has been done and what the threads have left is together, in some
order, what the program had to do (`count`), and an element has been given to the function as
often as it has been done (`mem`).

* `returned_all`: when the first thread has come to its end, so have all.
* `returned_log`: and every element of the program has then been done as often as it is in it.
* `exec_length`, `exists_step`: a run comes to its end, and does not stop before.
-/
import BoostNet.Lts
import Mathlib.Algebra.GroupWithZero.Nat
import Mathlib.Data.List.Perm.Basic
import Mathlib.Data.List.Nodup
import Mathlib.Data.List.Range
import Mathlib.Data.Nat.Find

set_option autoImplicit false

namespace BoostNet.ForkJoin

/-! ## Programs -/

/-- What a thread has left to do. -/
inductive Prog
  | ret
  /-- The loop from `b` to `e`. -/
  | each (b e : Nat) (rest : Prog)
  /-- A new thread runs `body`. -/
  | spawn (body rest : Prog)
  /-- Wait for the `k`-th thread that this one has started. -/
  | wait (k : Nat) (rest : Prog)

namespace Prog

def isRet : Prog → Bool
  | ret => true
  | _ => false

/-- The loops, in the order of the program. -/
def blocks : Prog → List (Nat × Nat)
  | ret => []
  | each b e rest => (b, e) :: blocks rest
  | spawn body rest => blocks body ++ blocks rest
  | wait _ rest => blocks rest

/-- The elements of a loop. -/
def span (r : Nat × Nat) : List Nat := List.range' r.1 (r.2 - r.1)

/-- The elements that are left, with those of the threads that are still to be started. -/
def pending (p : Prog) : List Nat := p.blocks.flatMap span

/-- Steps to the end of `p`, those of the threads it starts included. -/
def size : Prog → Nat
  | ret => 0
  | each b e rest => (e - b) + 1 + size rest
  | spawn body rest => 1 + size body + size rest
  | wait _ rest => 1 + size rest

/-- `p` waits for the thread `k`. -/
def Waits (k : Nat) : Prog → Prop
  | ret => False
  | each _ _ rest => Waits k rest
  | spawn _ rest => Waits k rest
  | wait j rest => k = j ∨ Waits k rest

/-- A thread that has started `k` others may go on with `p`: the loops are of ranges, and a
thread that `p` starts is waited for. -/
def Ok (k : Nat) : Prog → Prop
  | ret => True
  | each b e rest => b ≤ e ∧ Ok k rest
  | spawn body rest => Ok 0 body ∧ Waits k rest ∧ Ok (k + 1) rest
  | wait j rest => j < k ∧ Ok k rest

@[simp] theorem pending_ret : pending ret = [] := rfl

/-- A loop still has its calls from `b` on before it. -/
@[simp] theorem pending_each (b e : Nat) (rest : Prog) :
    pending (each b e rest) = List.range' b (e - b) ++ pending rest := rfl

/-- What a thread that is started does is done once, like what the starter does itself. -/
@[simp] theorem pending_spawn (body rest : Prog) :
    pending (spawn body rest) = pending body ++ pending rest := List.flatMap_append

/-- Waiting calls nothing. -/
@[simp] theorem pending_wait (k : Nat) (rest : Prog) : pending (wait k rest) = pending rest := rfl

theorem isRet_iff {p : Prog} : p.isRet = true ↔ p = ret := by
  cases p <;> simp [isRet]

end Prog

/-! ## Runs -/

/-- `children` are the threads it has started. -/
structure Thread where
  code : Prog
  children : List Nat

/-- The array, the threads in the order of their starts, and in `log` the elements that have
been given to the function, in that order. -/
structure Machine (T : Type*) where
  mem : Nat → T
  threads : List Thread
  log : List Nat

namespace Machine

variable {T : Type*}

def Done (s : Machine T) (i : Nat) : Prop := ∀ t : Thread, s.threads[i]? = some t → t.code = .ret

/-- The thread `i` goes on as `t`. -/
def goto (s : Machine T) (i : Nat) (t : Thread) : Machine T :=
  { s with threads := s.threads.set i t }

def run_thread (f : T → T) (s : Machine T) (i : Nat) (t : Thread) : Option (Machine T) :=
  match t.code with
  | .ret => none
  | .each b e rest =>
      if b = e then some (s.goto i { t with code := rest })
      else some { s.goto i { t with code := .each (b + 1) e rest } with
        mem := Function.update s.mem b (f (s.mem b))
        log := s.log ++ [b] }
  | .spawn body rest =>
      some { s with
        threads := s.threads.set i ⟨rest, t.children ++ [s.threads.length]⟩ ++ [⟨body, []⟩] }
  | .wait k rest =>
      t.children[k]?.bind fun c => s.threads[c]?.bind fun d =>
        if d.code.isRet then some (s.goto i { t with code := rest }) else none

/-- The next step of the thread `i`. -/
def step (f : T → T) (s : Machine T) (i : Nat) : Option (Machine T) :=
  s.threads[i]?.bind (s.run_thread f i)

def init (mem : Nat → T) (p : Prog) : Machine T where
  mem := mem
  threads := [⟨p, []⟩]
  log := []

def lts (f : T → T) (mem : Nat → T) (p : Prog) : Lts (Machine T) Nat where
  init := init mem p
  step := step f

/-- What the threads have left to do. -/
def left (s : Machine T) : List Nat := s.threads.flatMap fun (t : Thread) => t.code.pending

/-- Steps to the end. -/
def steps (s : Machine T) : Nat := (s.threads.map fun t => t.code.size).sum

/-! ## The invariant -/

/-- `c`, started by a thread with the number `i`, is over or is still to be waited for. -/
structure Child (s : Machine T) (i k c : Nat) (code : Prog) : Prop where
  later : i < c
  started : c < s.threads.length
  awaited : s.Done c ∨ code.Waits k

structure Inv (f : T → T) (mem : Nat → T) (p : Prog) (s : Machine T) : Prop where
  ok : ∀ (i : Nat) (t : Thread), s.threads[i]? = some t → t.code.Ok t.children.length
  child : ∀ (i : Nat) (t : Thread), s.threads[i]? = some t → ∀ k c, t.children[k]? = some c →
    s.Child i k c t.code
  parent : ∀ c, 0 < c → c < s.threads.length →
    ∃ (i : Nat) (t : Thread), s.threads[i]? = some t ∧ c ∈ t.children
  first : 0 < s.threads.length
  count : (s.log ++ s.left).Perm p.pending
  mem : ∀ x, s.mem x = f^[s.log.count x] (mem x)

variable {f : T → T} {mem : Nat → T} {p : Prog} {s s' : Machine T} {i : Nat} {t : Thread}

/-! ## What a step does -/

/-- A step ends a loop or a wait, or does an element, or starts a thread. -/
theorem step_cases (hstep : step f s i = some s') :
    ∃ t : Thread, s.threads[i]? = some t ∧
      ((∃ b rest, t.code = .each b b rest ∧ s' = s.goto i { t with code := rest }) ∨
       (∃ b e rest, t.code = .each b e rest ∧ b ≠ e ∧
          s' = { s.goto i { t with code := .each (b + 1) e rest } with
                 mem := Function.update s.mem b (f (s.mem b))
                 log := s.log ++ [b] }) ∨
       (∃ body rest, t.code = .spawn body rest ∧
          s' = { s with
            threads := s.threads.set i ⟨rest, t.children ++ [s.threads.length]⟩ ++
              [⟨body, []⟩] }) ∨
       (∃ k rest c, t.code = .wait k rest ∧ t.children[k]? = some c ∧ s.Done c ∧
          s' = s.goto i { t with code := rest })) := by
  obtain ⟨t, ht, hrun⟩ := Option.bind_eq_some_iff.mp hstep
  refine ⟨t, ht, ?_⟩
  unfold run_thread at hrun
  split at hrun
  case h_1 => cases hrun
  case h_2 b e rest hcode =>
    by_cases hbe : b = e
    · rw [if_pos hbe] at hrun
      subst hbe
      exact Or.inl ⟨b, rest, hcode, (Option.some.inj hrun).symm⟩
    · rw [if_neg hbe] at hrun
      exact Or.inr (Or.inl ⟨b, e, rest, hcode, hbe, (Option.some.inj hrun).symm⟩)
  case h_3 body rest hcode =>
    exact Or.inr (Or.inr (Or.inl ⟨body, rest, hcode, (Option.some.inj hrun).symm⟩))
  case h_4 k rest hcode =>
    obtain ⟨c, hc, hrun⟩ := Option.bind_eq_some_iff.mp hrun
    obtain ⟨d, hd, hrun⟩ := Option.bind_eq_some_iff.mp hrun
    split at hrun
    case isFalse => cases hrun
    case isTrue hret =>
      refine Or.inr (Or.inr (Or.inr ⟨k, rest, c, hcode, hc, ?_, (Option.some.inj hrun).symm⟩))
      intro u hu
      obtain rfl : d = u := Option.some.inj (hd.symm.trans hu)
      exact Prog.isRet_iff.mp hret

/-- The threads apart from the thread `i`. -/
theorem threads_split (ht : s.threads[i]? = some t) :
    ∃ l₁ l₂, s.threads = l₁ ++ t :: l₂ ∧ ∀ u, s.threads.set i u = l₁ ++ u :: l₂ := by
  obtain ⟨hi, rfl⟩ := List.getElem?_eq_some_iff.mp ht
  refine ⟨s.threads.take i, s.threads.drop (i + 1), ?_, fun u => ?_⟩
  · rw [List.getElem_cons_drop, List.take_append_drop]
  · rw [List.set_eq_take_append_cons_drop, if_pos hi]

/-- What is left, with the thread `i` in front. -/
theorem left_perm (ht : s.threads[i]? = some t) :
    ∃ others : List Nat, s.left.Perm (t.code.pending ++ others) ∧
      ∀ u : Thread, ((s.threads.set i u).flatMap fun v => v.code.pending).Perm
        (u.code.pending ++ others) := by
  obtain ⟨l₁, l₂, hthreads, hset⟩ := threads_split ht
  have hperm : ∀ u : Thread, ((l₁ ++ u :: l₂).flatMap fun v => v.code.pending).Perm
      (u.code.pending ++ (l₁ ++ l₂).flatMap fun v => v.code.pending) := by
    intro u
    exact List.Perm.flatMap_right _ List.perm_middle
  refine ⟨(l₁ ++ l₂).flatMap fun v => v.code.pending, ?_, fun u => ?_⟩
  · rw [left, hthreads]
    exact hperm t
  · rw [hset u]
    exact hperm u

/-- What has been done, and what is left, with the thread `i` in front. -/
theorem count_set {log others : List Nat} {u : Thread}
    (hothers : s.left.Perm (t.code.pending ++ others))
    (hset : ((s.threads.set i u).flatMap fun v => v.code.pending).Perm (u.code.pending ++ others))
    (hcount : (log ++ u.code.pending).Perm (s.log ++ t.code.pending)) :
    (log ++ (s.threads.set i u).flatMap fun v => v.code.pending).Perm (s.log ++ s.left) := by
  refine (hset.append_left log).trans ?_
  rw [← List.append_assoc]
  refine (hcount.append_right others).trans ?_
  rw [List.append_assoc]
  exact (hothers.append_left s.log).symm

/-- A thread that is over stays so. -/
theorem Done.set {c : Nat} {u : Thread} (hc : s.Done c) (ht : s.threads[i]? = some t)
    (hcode : t.code ≠ .ret) :
    ∀ v : Thread, (s.threads.set i u)[c]? = some v → v.code = .ret := by
  intro v hv
  have hne : i ≠ c := by
    rintro rfl
    exact hcode (hc t ht)
  rw [List.getElem?_set_ne hne] at hv
  exact hc v hv

/-- A step that starts no thread: `code` is what `i` has left. -/
theorem Inv.goto (h : Inv f mem p s) (ht : s.threads[i]? = some t) (hcode : t.code ≠ .ret)
    {code : Prog} (hthreads : s'.threads = s.threads.set i { t with code := code })
    (hok : code.Ok t.children.length)
    (hwaits : ∀ k, t.code.Waits k → code.Waits k ∨
      ∀ c, t.children[k]? = some c → s.Done c)
    (hcount : (s'.log ++ code.pending).Perm (s.log ++ t.code.pending))
    (hmem : ∀ x, s'.mem x = f^[s'.log.count x] (mem x)) : Inv f mem p s' := by
  obtain ⟨hi, -⟩ := List.getElem?_eq_some_iff.mp ht
  -- the thread that steps, or another one
  have hlook : ∀ j u, s'.threads[j]? = some u →
      (j = i ∧ u = { t with code := code }) ∨ (j ≠ i ∧ s.threads[j]? = some u) := by
    intro j u hu
    rw [hthreads] at hu
    by_cases hj : j = i
    · subst hj
      rw [List.getElem?_set_self hi] at hu
      exact Or.inl ⟨rfl, (Option.some.inj hu).symm⟩
    · rw [List.getElem?_set_ne (Ne.symm hj)] at hu
      exact Or.inr ⟨hj, hu⟩
  have hlen : s'.threads.length = s.threads.length := by rw [hthreads, List.length_set]
  have hdone : ∀ c, s.Done c → s'.Done c := by
    intro c hc
    rw [Done, hthreads]
    exact hc.set ht hcode
  refine ⟨?_, ?_, ?_, hlen ▸ h.first, ?_, hmem⟩
  · intro j u hu
    rcases hlook j u hu with ⟨rfl, rfl⟩ | ⟨-, hu⟩
    · exact hok
    · exact h.ok j u hu
  · intro j u hu k c hc
    rcases hlook j u hu with ⟨rfl, rfl⟩ | ⟨-, hu⟩
    · -- what it no longer waits for is over
      obtain ⟨hlater, hstarted, hawaited⟩ := h.child j t ht k c hc
      refine ⟨hlater, hlen ▸ hstarted, ?_⟩
      rcases hawaited with hd | hw
      · exact Or.inl (hdone c hd)
      · rcases hwaits k hw with hw | hd
        · exact Or.inr hw
        · exact Or.inl (hdone c (hd c hc))
    · obtain ⟨hlater, hstarted, hawaited⟩ := h.child j u hu k c hc
      exact ⟨hlater, hlen ▸ hstarted, hawaited.imp_left (hdone c)⟩
  · intro c hpos hc
    rw [hlen] at hc
    obtain ⟨j, u, hu, hmem⟩ := h.parent c hpos hc
    by_cases hj : j = i
    · subst hj
      obtain rfl : t = u := Option.some.inj (ht.symm.trans hu)
      refine ⟨j, { t with code := code }, ?_, hmem⟩
      rw [hthreads, List.getElem?_set_self hi]
    · refine ⟨j, u, ?_, hmem⟩
      rw [hthreads, List.getElem?_set_ne (Ne.symm hj), hu]
  · obtain ⟨others, hothers, hset⟩ := left_perm ht
    rw [left, hthreads]
    exact (count_set hothers (hset _) hcount).trans h.count

/-- A thread that starts. -/
theorem Inv.spawn (h : Inv f mem p s) (ht : s.threads[i]? = some t) {body rest : Prog}
    (hcode : t.code = .spawn body rest) :
    Inv f mem p { s with
      threads := s.threads.set i ⟨rest, t.children ++ [s.threads.length]⟩ ++ [⟨body, []⟩] } := by
  obtain ⟨hi, -⟩ := List.getElem?_eq_some_iff.mp ht
  have hne : t.code ≠ .ret := by simp [hcode]
  have hbodyok := h.ok i t ht
  rw [hcode] at hbodyok
  obtain ⟨hbody, hwaits, hrest⟩ := hbodyok
  -- the thread that steps, another one, or the new one
  have hlook : ∀ j u,
      (s.threads.set i ⟨rest, t.children ++ [s.threads.length]⟩ ++ [⟨body, []⟩])[j]? = some u →
      (j = i ∧ u = ⟨rest, t.children ++ [s.threads.length]⟩) ∨
      (j ≠ i ∧ s.threads[j]? = some u) ∨ (j = s.threads.length ∧ u = ⟨body, []⟩) := by
    intro j u hu
    by_cases hj : j < s.threads.length
    · rw [List.getElem?_append_left (by rwa [List.length_set])] at hu
      by_cases hji : j = i
      · subst hji
        rw [List.getElem?_set_self hi] at hu
        exact Or.inl ⟨rfl, (Option.some.inj hu).symm⟩
      · rw [List.getElem?_set_ne (Ne.symm hji)] at hu
        exact Or.inr (Or.inl ⟨hji, hu⟩)
    · rw [List.getElem?_append_right (by rw [List.length_set]; omega), List.length_set,
        List.getElem?_singleton] at hu
      split at hu
      case isFalse => cases hu
      case isTrue heq => exact Or.inr (Or.inr ⟨by omega, (Option.some.inj hu).symm⟩)
  have hdone : ∀ c, c < s.threads.length → s.Done c → ∀ v,
      (s.threads.set i ⟨rest, t.children ++ [s.threads.length]⟩ ++ [⟨body, []⟩])[c]? = some v →
      v.code = .ret := by
    intro c hc hd v hv
    rw [List.getElem?_append_left (by rwa [List.length_set])] at hv
    exact hd.set ht hne v hv
  have hlen : (s.threads.set i ⟨rest, t.children ++ [s.threads.length]⟩ ++
      [(⟨body, []⟩ : Thread)]).length = s.threads.length + 1 := by
    rw [List.length_append, List.length_set, List.length_singleton]
  refine ⟨?_, ?_, ?_, ?_, ?_, h.mem⟩
  · intro j u hu
    rcases hlook j u hu with ⟨-, rfl⟩ | ⟨-, hu⟩ | ⟨-, rfl⟩
    · rw [List.length_append, List.length_singleton]
      exact hrest
    · exact h.ok j u hu
    · exact hbody
  · intro j u hu k c hc
    rcases hlook j u hu with ⟨rfl, rfl⟩ | ⟨-, hu⟩ | ⟨-, rfl⟩
    · rcases Nat.lt_or_ge k t.children.length with hk | hk
      · rw [List.getElem?_append_left hk] at hc
        obtain ⟨hlater, hstarted, hawaited⟩ := h.child j t ht k c hc
        refine ⟨hlater, hlen ▸ Nat.lt_succ_of_lt hstarted, ?_⟩
        rcases hawaited with hd | hw
        · exact Or.inl (hdone c hstarted hd)
        · rw [hcode] at hw
          exact Or.inr hw
      · -- the new thread
        rw [List.getElem?_append_right hk, List.getElem?_singleton] at hc
        split at hc
        case isFalse => cases hc
        case isTrue heq =>
          obtain rfl : s.threads.length = c := Option.some.inj hc
          obtain rfl : k = t.children.length := by omega
          exact ⟨hi, hlen ▸ Nat.lt_succ_self _, Or.inr hwaits⟩
    · obtain ⟨hlater, hstarted, hawaited⟩ := h.child j u hu k c hc
      exact ⟨hlater, hlen ▸ Nat.lt_succ_of_lt hstarted, hawaited.imp_left (hdone c hstarted)⟩
    · simp at hc
  · intro c hpos hc
    replace hc : c < s.threads.length + 1 := hlen ▸ hc
    have hself : (s.threads.set i ⟨rest, t.children ++ [s.threads.length]⟩ ++
        [⟨body, []⟩])[i]? = some ⟨rest, t.children ++ [s.threads.length]⟩ := by
      rw [List.getElem?_append_left (by rwa [List.length_set]), List.getElem?_set_self hi]
    rcases Nat.lt_succ_iff_lt_or_eq.mp hc with hc | rfl
    · obtain ⟨j, u, hu, hmem⟩ := h.parent c hpos hc
      by_cases hji : j = i
      · subst hji
        obtain rfl : t = u := Option.some.inj (ht.symm.trans hu)
        exact ⟨j, _, hself, List.mem_append_left _ hmem⟩
      · refine ⟨j, u, ?_, hmem⟩
        obtain ⟨hj, -⟩ := List.getElem?_eq_some_iff.mp hu
        rw [List.getElem?_append_left (by rwa [List.length_set]),
          List.getElem?_set_ne (Ne.symm hji), hu]
    · exact ⟨i, _, hself, List.mem_append_right _ (List.mem_singleton_self _)⟩
  · exact hlen ▸ Nat.succ_pos _
  · obtain ⟨others, hothers, hset⟩ := left_perm ht
    refine List.Perm.trans ?_ h.count
    change (s.log ++ List.flatMap _ _).Perm _
    rw [List.flatMap_append, List.flatMap_singleton]
    refine (List.Perm.append_left _ ((hset _).append_right _)).trans ?_
    refine List.Perm.append_left _ (List.Perm.trans ?_ hothers.symm)
    rw [hcode, Prog.pending_spawn, List.append_assoc body.pending]
    exact List.perm_append_comm

/-- Whatever a thread does, calls done and calls pending are those of the program. -/
theorem Inv.step (h : Inv f mem p s) (hstep : step f s i = some s') : Inv f mem p s' := by
  obtain ⟨t, ht, ⟨b, rest, hcode, rfl⟩ | ⟨b, e, rest, hcode, hbe, rfl⟩ |
    ⟨body, rest, hcode, rfl⟩ | ⟨k, rest, c, hcode, hc, hd, rfl⟩⟩ := step_cases hstep
  · -- the end of a loop
    have hok := h.ok i t ht
    rw [hcode] at hok
    refine h.goto ht (by simp [hcode]) rfl hok.2 (fun k hk => Or.inl ?_) ?_ h.mem
    · rwa [hcode] at hk
    · rw [hcode, Prog.pending_each, Nat.sub_self]
      exact List.Perm.refl _
  · -- the element `b`
    have hok := h.ok i t ht
    rw [hcode] at hok
    have hlt : b < e := lt_of_le_of_ne hok.1 hbe
    refine h.goto ht (by simp [hcode]) rfl ⟨hlt, hok.2⟩ (fun k hk => Or.inl ?_) ?_ ?_
    · rwa [hcode] at hk
    · have hspan : List.range' b (e - b) = b :: List.range' (b + 1) (e - (b + 1)) := by
        rw [show e - b = e - (b + 1) + 1 by omega, List.range'_succ]
      rw [hcode, Prog.pending_each, Prog.pending_each, hspan]
      change (s.log ++ [b] ++ _).Perm _
      rw [List.append_assoc]
      exact List.Perm.refl _
    · intro x
      change Function.update s.mem b (f (s.mem b)) x = f^[(s.log ++ [b]).count x] (mem x)
      by_cases hx : x = b
      · subst hx
        rw [Function.update_self, List.count_append, List.count_singleton_self,
          Function.iterate_succ_apply', ← h.mem]
      · rw [Function.update_of_ne hx, List.count_append,
          List.count_eq_zero_of_not_mem (a := x) (l := [b]) (by simpa using hx), Nat.add_zero]
        exact h.mem x
  · exact h.spawn ht hcode
  · -- the thread that is waited for is over
    have hok := h.ok i t ht
    rw [hcode] at hok
    refine h.goto ht (by simp [hcode]) rfl hok.2 (fun j hj => ?_) ?_ h.mem
    · rw [hcode] at hj
      rcases hj with rfl | hj
      · refine Or.inr fun c' hc' => ?_
        obtain rfl : c = c' := Option.some.inj (hc.symm.trans hc')
        exact hd
      · exact Or.inl hj
    · rw [hcode, Prog.pending_wait]
      exact List.Perm.refl _

/-- At the start all calls are pending. -/
theorem inv_init (hok : p.Ok 0) : Inv f mem p (init mem p) where
  ok := by
    intro i t ht
    rw [init, List.getElem?_singleton] at ht
    split at ht
    case isFalse => cases ht
    case isTrue =>
      obtain rfl := Option.some.inj ht
      exact hok
  child := by
    intro i t ht k c hc
    rw [init, List.getElem?_singleton] at ht
    split at ht
    case isFalse => cases ht
    case isTrue =>
      obtain rfl := Option.some.inj ht
      simp at hc
  parent := by
    intro c hpos hc
    simp only [init, List.length_singleton] at hc
    omega
  first := Nat.one_pos
  count := by
    simp only [init, left, List.flatMap_singleton, List.nil_append]
    exact List.Perm.refl _
  mem := fun _ => rfl

/-- By induction along the run. -/
theorem inv_run (hok : p.Ok 0) {as : List Nat}
    (hrun : (lts f mem p).exec (init mem p) as = some s) : Inv f mem p s :=
  (lts f mem p).exec_inv (fun _ _ _ h hstep => h.step hstep) (inv_init hok) hrun

/-! ## The end of a run -/

/-- **When the first thread is over, all threads are.** -/
theorem Inv.returned_all (h : Inv f mem p s) (h0 : s.Done 0) (c : Nat) : s.Done c := by
  induction c using Nat.strong_induction_on with
  | _ c ih =>
      rcases Nat.eq_zero_or_pos c with rfl | hpos
      · exact h0
      · intro u hu
        obtain ⟨hc, -⟩ := List.getElem?_eq_some_iff.mp hu
        obtain ⟨i, t, ht, hmem⟩ := h.parent c hpos hc
        obtain ⟨k, hk⟩ := List.mem_iff_getElem?.mp hmem
        have hchild := h.child i t ht k c hk
        -- the thread that started it is over, so it waits for nothing
        have hret : t.code = .ret := ih i hchild.later t ht
        rcases hchild.awaited with hd | hw
        · exact hd u hu
        · rw [hret] at hw
          exact hw.elim

/-- When the first thread is done it has waited for all the others. -/
theorem Inv.left_nil (h : Inv f mem p s) (h0 : s.Done 0) : s.left = [] := by
  rw [left, List.flatMap_eq_nil_iff]
  intro t ht
  obtain ⟨c, hc⟩ := List.mem_iff_getElem?.mp ht
  rw [h.returned_all h0 c t hc, Prog.pending_ret]

/-- **And what was to be done has been done.** -/
theorem Inv.returned_log (h : Inv f mem p s) (h0 : s.Done 0) : s.log.Perm p.pending := by
  have hcount := h.count
  rwa [h.left_nil h0, List.append_nil] at hcount

/-- So each index was visited as often as the program says. -/
theorem Inv.returned_mem (h : Inv f mem p s) (h0 : s.Done 0) (x : Nat) :
    s.mem x = f^[p.pending.count x] (mem x) := by
  rw [h.mem, (h.returned_log h0).count_eq]

/-- The steps that are left are those of one thread and of all the others. -/
theorem steps_split (ht : s.threads[i]? = some t) :
    ∃ others : Nat, s.steps = t.code.size + others ∧
      ∀ u : Thread, ((s.threads.set i u).map fun v => v.code.size).sum = u.code.size + others := by
  obtain ⟨l₁, l₂, hthreads, hset⟩ := threads_split ht
  have hsum : ∀ u : Thread, ((l₁ ++ u :: l₂).map fun v => v.code.size).sum =
      u.code.size + ((l₁ ++ l₂).map fun v => v.code.size).sum := by
    intro u
    rw [List.map_append, List.map_append, List.map_cons, List.sum_append, List.sum_append,
      List.sum_cons]
    omega
  refine ⟨((l₁ ++ l₂).map fun v => v.code.size).sum, ?_, fun u => ?_⟩
  · rw [steps, hthreads]
    exact hsum t
  · rw [hset u]
    exact hsum u

/-- One step less is left. -/
theorem Inv.steps_step (h : Inv f mem p s) (hstep : Machine.step f s i = some s') :
    s'.steps + 1 = s.steps := by
  obtain ⟨t, ht, hcases⟩ := step_cases hstep
  obtain ⟨others, hsteps, hset⟩ := steps_split ht
  have hok := h.ok i t ht
  rcases hcases with ⟨b, rest, hcode, rfl⟩ | ⟨b, e, rest, hcode, hbe, rfl⟩ |
    ⟨body, rest, hcode, rfl⟩ | ⟨k, rest, c, hcode, hc, hd, rfl⟩
  · have hnew := hset { t with code := rest }
    simp only [steps, Machine.goto, hcode, Prog.size] at hsteps hnew ⊢
    omega
  · rw [hcode] at hok
    have hlt : b < e := lt_of_le_of_ne hok.1 hbe
    have hnew := hset { t with code := .each (b + 1) e rest }
    simp only [steps, Machine.goto, hcode, Prog.size] at hsteps hnew ⊢
    omega
  · have hnew := hset ⟨rest, t.children ++ [s.threads.length]⟩
    simp only [steps, hcode, Prog.size, List.map_append, List.sum_append, List.map_cons,
      List.map_nil, List.sum_cons, List.sum_nil] at hsteps hnew ⊢
    omega
  · have hnew := hset { t with code := rest }
    simp only [steps, Machine.goto, hcode, Prog.size] at hsteps hnew ⊢
    omega

/-- **A run is as long as the program.** -/
theorem exec_length (hok : p.Ok 0) {as : List Nat}
    (hrun : (lts f mem p).exec (init mem p) as = some s) : as.length + s.steps = p.size := by
  have hall : ∀ (bs : List Nat) (u : Machine T), Inv f mem p u →
      (lts f mem p).exec u bs = some s → bs.length + s.steps = u.steps := by
    intro bs
    induction bs with
    | nil =>
        intro u _ hbs
        obtain rfl : u = s := Option.some.inj hbs
        rw [List.length_nil, Nat.zero_add]
    | cons j bs ih =>
        intro u hu hbs
        obtain ⟨v, hstep, hbs⟩ := (lts f mem p).exec_cons_some.mp hbs
        have hv := ih v (hu.step hstep) hbs
        have hone := hu.steps_step hstep
        rw [List.length_cons]
        omega
  have hlen := hall as (init mem p) (inv_init hok) hrun
  rw [hlen]
  simp [steps, init]

/-- **A run does not stop before the first thread is over.** -/
theorem Inv.exists_step (h : Inv f mem p s) (h0 : ¬ s.Done 0) :
    ∃ i s', Machine.step f s i = some s' := by
  classical
  -- the last thread that is not over waits for none
  obtain ⟨i, ⟨hlen, hi⟩, hlast⟩ : ∃ i, (i < s.threads.length ∧ ¬ s.Done i) ∧
      ∀ c, i < c → c < s.threads.length → s.Done c := by
    let P : Nat → Prop := fun i => i < s.threads.length ∧ ¬ s.Done i
    have hex : ∃ i ≤ s.threads.length, P i := ⟨0, Nat.zero_le _, h.first, h0⟩
    obtain ⟨i, -, hi⟩ := hex
    refine ⟨Nat.findGreatest P s.threads.length, Nat.findGreatest_spec (hi.1.le) hi, ?_⟩
    intro c hlt hc
    by_contra hd
    exact Nat.findGreatest_is_greatest hlt hc.le ⟨hc, hd⟩
  obtain ⟨t, ht, hcode⟩ : ∃ t : Thread, s.threads[i]? = some t ∧ t.code ≠ .ret := by
    by_contra hnone
    refine hi fun t ht => ?_
    by_contra hne
    exact hnone ⟨t, ht, hne⟩
  have hok := h.ok i t ht
  refine ⟨i, ?_⟩
  rw [Machine.step, ht, Option.bind_some, run_thread]
  cases heq : t.code with
  | ret => exact absurd heq hcode
  | each b e rest =>
      by_cases hbe : b = e
      · exact ⟨_, if_pos hbe⟩
      · exact ⟨_, if_neg hbe⟩
  | spawn body rest => exact ⟨_, rfl⟩
  | wait k rest =>
      rw [heq] at hok
      have hk : k < t.children.length := hok.1
      have hc : t.children[k]? = some t.children[k] := List.getElem?_eq_getElem hk
      have hchild := h.child i t ht k _ hc
      have hd := List.getElem?_eq_getElem hchild.started
      have hret := hlast _ hchild.later hchild.started _ hd
      refine ⟨s.goto i { t with code := rest }, ?_⟩
      simp only [hc, Option.bind_some, hd]
      exact if_pos (Prog.isRet_iff.mpr hret)

end Machine

end BoostNet.ForkJoin
