/-
`ResonableImplemention` in Concurrent/day05-ConditionVariable/day05-ConditionVariable.cpp: two
threads that take turns.

`t1` waits on `cvA` until `num` is 1, adds 1 and notifies `cvB`; `t2` waits on `cvB` until `num`
is 2, takes 1 away and notifies `cvA`. Both do this for ever, with `mtx_num` held. That is a
monitor with two condition variables; a turn is a call, and each thread calls its own turn only.

* `takes_turns`: they print 1, 2, 1, 2, and never both wait.
-/
import BoostNet.Monitor

set_option autoImplicit false

namespace BoostNet.ResonableImplemention

inductive Thread where
  | t1
  | t2
  deriving DecidableEq

instance : Fintype Thread where
  elems := {.t1, .t2}
  complete t := by cases t <;> decide

inductive Cv where
  | cvA
  | cvB
  deriving DecidableEq

/-- The value is `num`, and what a turn prints is its result. -/
def monitor : Monitor Int Thread Unit Int Cv PEmpty where
  init := 1
  waits
    | .t1 => some .cvA
    | .t2 => some .cvB
  predicate
    | .t1, num => num == 1
    | .t2, num => num == 2
  body
    | .t1, _, num => some ⟨num + 1, 1, some (.one .cvB)⟩
    | .t2, _, num => some ⟨num - 1, 2, some (.one .cvA)⟩
  unlocks_first _ := false
  outer e := e.elim
  predicate_outer _ e := e.elim

abbrev State := Monitor.Sys Thread Int Thread Int Cv PEmpty

abbrev Act := Monitor.Action Thread Thread Unit Cv PEmpty

/-- The loop of a thread calls its own turn. -/
def program : Lts State Act where
  init := { value := 1 }
  step s
    | .call i op => if op = i then monitor.step s (.call i op) else none
    | a => monitor.step s a

/-- What has been printed. -/
def printed (log : List (Monitor.Entry Thread Thread Int PEmpty)) : List Int :=
  log.map fun
    | .call _ _ result => result
    | .outer e => e.elim

/-- `n` numbers, from 1: 1, 2, 1, 2. -/
def turns (n : Nat) : List Int := (List.range n).map fun k => if k % 2 = 0 then 1 else 2

structure TakesTurns (s : State) : Prop where
  printed : printed s.log = turns s.log.length
  num : s.value = if s.log.length % 2 = 0 then 1 else 2
  /-- When nothing moves any more one of them is about to start the next turn. -/
  live : monitor.Quiet s → ∃ i, s.pc i = .idle

/-! ## Turns -/

theorem turns_succ (n : Nat) : turns (n + 1) = turns n ++ [if n % 2 = 0 then 1 else 2] := by
  rw [turns, List.range_succ, List.map_append, List.map_singleton]
  rfl

variable {s t : State} {log : List (Monitor.Entry Thread Thread Int PEmpty)} {num : Int}

theorem replays_turns (h : monitor.Replays log num) :
    printed log = turns log.length ∧ num = if log.length % 2 = 0 then 1 else 2 := by
  induction h with
  | start => exact ⟨rfl, rfl⟩
  | @call log s i op x r _ hpasses hbody ih =>
      obtain ⟨hprinted, hnum⟩ := ih
      rw [List.length_append, List.length_singleton, turns_succ, ← hprinted, printed,
        List.map_append, List.map_singleton]
      cases op with
      | t1 =>
          obtain rfl := Option.some.inj hbody
          have heven : log.length % 2 = 0 := by
            by_contra hodd
            rw [hnum, if_neg hodd] at hpasses
            cases hpasses
          rw [hnum, if_pos heven, if_neg (by omega)]
          exact ⟨rfl, rfl⟩
      | t2 =>
          obtain rfl := Option.some.inj hbody
          have hodd : ¬ log.length % 2 = 0 := by
            intro heven
            rw [hnum, if_pos heven] at hpasses
            cases hpasses
          rw [hnum, if_neg hodd, if_pos (by omega)]
          exact ⟨rfl, rfl⟩
  | outer e => exact e.elim

/-- Who waits on a condition variable could go on. -/
def ready : Cv → Int → Nat
  | .cvA, num => if num = 1 then 1 else 0
  | .cvB, num => if num = 2 then 1 else 0

theorem balanced : Monitor.Balanced monitor ready (fun _ => True) (fun _ _ => True)
    fun _ => True where
  init := trivial
  predicate_iff := by
    intro op cv num _ hwaits
    cases op <;> obtain rfl := Option.some.inj hwaits <;> simp only [monitor, ready] <;> split <;>
      simp_all
  valid_body := fun _ _ _ _ _ _ _ => trivial
  ready_body := by
    intro op x num r cv _ _ hpasses hbody
    -- a turn takes away what it waited for, and gives the other one its turn
    cases op with
    | t1 =>
        obtain rfl := Option.some.inj hbody
        obtain rfl : num = 1 := by simpa [monitor, Monitor.passes] using hpasses
        cases cv <;> simp [ready, monitor]
    | t2 =>
        obtain rfl := Option.some.inj hbody
        obtain rfl : num = 2 := by simpa [monitor, Monitor.passes] using hpasses
        cases cv <;> simp [ready, monitor]
  valid_outer := fun e => e.elim
  ready_outer := fun e => e.elim

structure Inv (s : State) : Prop where
  mon : monitor.Inv s
  books : Monitor.Books monitor ready (fun _ => True) s
  own : ∀ i, (s.pc i).Of i

theorem Inv.step (h : Inv s) (a : Act) (hstep : program.step s a = some t) : Inv t := by
  have hkeeps : Monitor.Keeps (fun _ _ => True) (fun _ => True) s a :=
    Monitor.keeps_of_forall (fun _ _ => trivial) fun _ _ => trivial
  have hmon : monitor.step s a = some t ∧ ∀ i op, a = .call i op → op = i := by
    cases a with
    | call i op =>
        obtain ⟨hop, hcall⟩ := Option.ite_none_right_eq_some.mp hstep
        refine ⟨hcall, fun i' op' heq => ?_⟩
        cases heq
        exact hop
    | run i | body i x | notify_one i target | spurious i | outer e | notify cv target =>
        exact ⟨hstep, by intro i' op' heq; cases heq⟩
  exact ⟨h.mon.step a hmon.1, h.books.step balanced h.mon hkeeps hmon.1,
    Monitor.step_of id h.own hmon.2 hmon.1⟩

theorem Inv.live (h : Inv s) (hquiet : monitor.Quiet s) : ∃ i, s.pc i = .idle := by
  by_contra hnone
  push Not at hnone
  have hsettled := hquiet.settled balanced h.mon h.books fun op _ => ⟨(), by cases op <;> rfl⟩
  have hblocked : ∀ i, monitor.passes i s.value = false := by
    intro i
    obtain ⟨op, hop, hpasses⟩ := (hsettled.threads i).resolve_left (hnone i)
    have hown := h.own i
    rw [hop] at hown
    exact hown ▸ hpasses
  have hnum := (replays_turns h.mon.replays).2
  have h1 := hblocked .t1
  have h2 := hblocked .t2
  rw [hnum] at h1 h2
  split at h1
  · cases h1
  next hodd =>
    rw [if_neg hodd] at h2
    cases h2

/-- **The two threads take turns**, in every run. Each predicate is false where the other is true,
and the number is changed under the mutex by the thread whose turn it is. -/
theorem takes_turns (as : List Act) : program.Along TakesTurns program.init as := by
  apply program.along_of_inv (I := Inv)
  · intro s h
    obtain ⟨hprinted, hnum⟩ := replays_turns h.mon.replays
    exact ⟨hprinted, hnum, h.live⟩
  · exact fun s a t h ht => h.step a ht
  · exact ⟨.init, .init balanced, fun _ => trivial⟩

end BoostNet.ResonableImplemention
