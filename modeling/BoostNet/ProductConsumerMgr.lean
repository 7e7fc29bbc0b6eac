/-
`ProductConsumerMgr` in Concurrent/day24-TroubleShoot/deadlock.h, as `TestProducerConsumer` of
deadlock.cpp runs it.

A producer pushes 1, 2, 3 and so on into a queue, up to the largest `int`, and a consumer pops,
under one mutex with a condition variable each. Both release the mutex before they notify the
other. The predicates of the two waits also read the atomic `b_stop`, which `CtrlHandler` sets
without the mutex. `main` polls `b_stop`; then `~ProductConsumerMgr` notifies one waiter on each
condition variable, and joins the threads.

* `consumed_in_order`: the consumer gets 1, 2, 3 and so on, and there are never more than 101
  in the queue.
* `ends`: nothing gets stuck before the producer has counted to the end. As long as `b_stop` is not
  set the two threads go on, and once it is set the joins return, provided that neither thread is
  between its predicate and its sleep when it is notified.
* `may_hang`: where one is, the join may never return.
-/
import BoostNet.Monitor

set_option autoImplicit false

namespace BoostNet.ProductConsumerMgr

inductive Thread where
  | consumer
  | producer
  deriving DecidableEq

instance : Fintype Thread where
  elems := {.consumer, .producer}
  complete t := by cases t <;> decide

inductive Cv where
  | consume_cv
  | producer_cv
  deriving DecidableEq

def INT_MAX : Int := 2 ^ 31 - 1

structure Shared where
  data_que : List Int := []
  /-- The local variable of the producer, an `int`. -/
  data : Int := 0
  b_stop : Bool := false

inductive Result where
  | popped (data : Int)
  | pushed (data : Int)
  | returned

/-- A round of each loop. `++data` is undefined where `data` is `INT_MAX`. The other code is
`CtrlHandler`. -/
def monitor : Monitor Shared Thread Unit Result Cv Unit where
  init := {}
  waits
    | .consumer => some .consume_cv
    | .producer => some .producer_cv
  predicate
    | .consumer, s => s.b_stop || !s.data_que.isEmpty
    | .producer, s => s.b_stop || !decide (s.data_que.length > 100)
  body
    | .consumer, _, s =>
        if s.b_stop then some ⟨s, .returned, none⟩
        else
          match s.data_que with
          | [] => none
          | data :: rest =>
              some ⟨{ s with data_que := rest }, .popped data, some (.one .producer_cv)⟩
    | .producer, _, s =>
        if s.b_stop then some ⟨s, .returned, none⟩
        else if s.data = INT_MAX then none
        else
          some ⟨{ s with data_que := s.data_que ++ [s.data + 1], data := s.data + 1 },
            .pushed (s.data + 1), some (.one .consume_cv)⟩
  unlocks_first _ := true
  outer _ s := { s with b_stop := true }
  predicate_outer op _ s _ := by cases op <;> rfl

/-- Where `main` is. -/
inductive Main where
  /-- `while (!b_stop)`. -/
  | polling
  | notify_consume_cv
  | notify_producer_cv
  | join_producer
  | join_consumer
  | done
  deriving DecidableEq

structure State where
  mgr : Monitor.Sys Thread Shared Thread Result Cv Unit := { value := {} }
  finished : Thread → Bool := fun _ => false
  main : Main := .polling

inductive Act where
  /-- `while (!b_stop)` of a thread. -/
  | loop (i : Thread)
  | run (i : Thread)
  | body (i : Thread)
  | notify_one (i : Thread) (target : Option Thread)
  | spurious (i : Thread)
  | ctrl_handler
  /-- A step of `main`, but for its notifications. -/
  | main
  | main_notify (target : Option Thread)

def State.monitor_step (s : State) (a : Monitor.Action Thread Thread Unit Cv Unit) :
    Option State :=
  (monitor.step s.mgr a).map fun mgr => { s with mgr := mgr }

def State.step (s : State) : Act → Option State
  | .loop i =>
      match s.mgr.pc i with
      | .idle =>
          if s.finished i then none
          else if s.mgr.value.b_stop then
            some { s with finished := Function.update s.finished i true }
          else s.monitor_step (.call i i)
      | _ => none
  | .run i => s.monitor_step (.run i)
  | .body i => s.monitor_step (.body i ())
  | .notify_one i target => s.monitor_step (.notify_one i target)
  | .spurious i => s.monitor_step (.spurious i)
  | .ctrl_handler => s.monitor_step (.outer ())
  | .main =>
      match s.main with
      | .polling => if s.mgr.value.b_stop then some { s with main := .notify_consume_cv } else none
      | .join_producer =>
          if s.finished .producer then some { s with main := .join_consumer } else none
      | .join_consumer => if s.finished .consumer then some { s with main := .done } else none
      | .notify_consume_cv | .notify_producer_cv | .done => none
  | .main_notify target =>
      match s.main with
      | .notify_consume_cv =>
          (s.monitor_step (.notify .consume_cv target)).map fun t =>
            { t with main := .notify_producer_cv }
      | .notify_producer_cv =>
          (s.monitor_step (.notify .producer_cv target)).map fun t =>
            { t with main := .join_producer }
      | .polling | .join_producer | .join_consumer | .done => none

def program : Lts State Act where
  init := {}
  step := State.step

/-! ## What should hold -/

abbrev Log := List (Monitor.Entry Thread Thread Result Unit)

/-- The numbers pushed, in this order. -/
def pushed (log : Log) : List Int :=
  log.filterMap fun
    | .call _ _ (.pushed data) => some data
    | _ => none

/-- The numbers popped, in this order. -/
def popped (log : Log) : List Int :=
  log.filterMap fun
    | .call _ _ (.popped data) => some data
    | _ => none

/-- The numbers 1, 2, 3 and so on, `n` of them. -/
def counted (n : Nat) : List Int := (List.range n).map fun i : Nat => (i : Int) + 1

structure Fifo (s : State) : Prop where
  numbers : pushed s.mgr.log = counted (pushed s.mgr.log).length
  fits : ∀ data ∈ pushed s.mgr.log, data ≤ INT_MAX
  order : popped s.mgr.log ++ s.mgr.value.data_que = pushed s.mgr.log
  bounded : s.mgr.value.data_que.length ≤ 101

/-- Nothing but a spurious wakeup, or `CtrlHandler`, can happen. -/
def Quiet (s : State) : Prop :=
  ∀ a, program.step s a ≠ none → a = .ctrl_handler ∨ ∃ i, a = .spurious i

/-- The thread that `main` notifies next. -/
def Main.notifies : Main → Option Thread
  | .notify_consume_cv => some .consumer
  | .notify_producer_cv => some .producer
  | .polling | .join_producer | .join_consumer | .done => none

/-- The thread `main` is about to notify has evaluated its predicate, and has not yet gone to
sleep. -/
def Caught (s : State) : Prop := ∃ i, s.main.notifies = some i ∧ s.mgr.pc i = .block i

/-- `main` does not notify a thread that it catches there. -/
def Clear (s : State) : Act → Prop
  | .main_notify _ => ¬ Caught s
  | .loop _ | .run _ | .body _ | .notify_one _ _ | .spurious _ | .ctrl_handler | .main => True

/-! ## The queue -/

variable {s t : State} {log : Log} {v : Shared} {op : Thread} {r : Effect Shared Result Cv}

/-- A round ends at once when `b_stop` is set, and otherwise pops or pushes. -/
theorem body_cases (h : monitor.body op () v = some r) :
    (v.b_stop = true ∧ r = ⟨v, .returned, none⟩) ∨ v.b_stop = false ∧
      ((∃ data rest, op = .consumer ∧ v.data_que = data :: rest ∧
          r = ⟨{ v with data_que := rest }, .popped data, some (.one .producer_cv)⟩) ∨
        (op = .producer ∧ v.data ≠ INT_MAX ∧
          r = ⟨{ v with data_que := v.data_que ++ [v.data + 1], data := v.data + 1 },
            .pushed (v.data + 1), some (.one .consume_cv)⟩)) := by
  cases hstop : v.b_stop with
  | true =>
      left
      refine ⟨rfl, ?_⟩
      cases op with
      | consumer | producer =>
          simp only [monitor, hstop, if_true, Option.some.injEq] at h
          exact h.symm
  | false =>
      right
      refine ⟨rfl, ?_⟩
      cases op with
      | consumer =>
          simp only [monitor, hstop, Bool.false_eq_true, if_false] at h
          cases hque : v.data_que with
          | nil =>
              rw [hque] at h
              cases h
          | cons data rest =>
              rw [hque] at h
              exact Or.inl ⟨data, rest, rfl, rfl, (Option.some.inj h).symm⟩
      | producer =>
          simp only [monitor, hstop, Bool.false_eq_true, if_false] at h
          obtain ⟨hdata, h⟩ := Option.ite_none_left_eq_some.mp h
          exact Or.inr ⟨rfl, hdata, (Option.some.inj h).symm⟩

/-- As long as `b_stop` is not set the producer passes where there is room. -/
theorem producer_passes (hstop : v.b_stop = false) :
    monitor.passes .producer v = true ↔ v.data_que.length ≤ 100 := by
  simp [Monitor.passes, monitor, hstop]

/-- And the consumer where there is something to pop. -/
theorem consumer_passes (hstop : v.b_stop = false) :
    monitor.passes .consumer v = true ↔ v.data_que ≠ [] := by
  simp [Monitor.passes, monitor, hstop]

/-- Once it is set nobody goes to sleep any more. -/
theorem passes_of_stop (hstop : v.b_stop = true) : monitor.passes op v = true := by
  cases op <;> simp [Monitor.passes, monitor, hstop]

theorem pushed_append (log : Log) (e : Monitor.Entry Thread Thread Result Unit) :
    pushed (log ++ [e]) = pushed log ++ pushed [e] := List.filterMap_append ..

theorem popped_append (log : Log) (e : Monitor.Entry Thread Thread Result Unit) :
    popped (log ++ [e]) = popped log ++ popped [e] := List.filterMap_append ..

theorem pushed_of_nil {e : Monitor.Entry Thread Thread Result Unit} (he : pushed [e] = []) :
    pushed (log ++ [e]) = pushed log := by
  rw [pushed_append, he, List.append_nil]

theorem popped_of_nil {e : Monitor.Entry Thread Thread Result Unit} (he : popped [e] = []) :
    popped (log ++ [e]) = popped log := by
  rw [popped_append, he, List.append_nil]

theorem counted_succ (n : Nat) : counted (n + 1) = counted n ++ [(n : Int) + 1] := by
  rw [counted, List.range_succ, List.map_append]
  rfl

/-- The producer's `data` is how often it has pushed, and it does not overflow. -/
theorem replays_data (h : monitor.Replays log v) :
    v.data = (pushed log).length ∧ v.data ≤ INT_MAX := by
  induction h with
  | start => exact ⟨rfl, by decide⟩
  | @call log v i op x r _ hpasses hbody ih =>
      obtain ⟨-, rfl⟩ | ⟨-, ⟨data, rest, rfl, -, rfl⟩ | ⟨rfl, hmax, rfl⟩⟩ := body_cases hbody
      · rw [pushed_of_nil rfl]
        exact ih
      · rw [pushed_of_nil rfl]
        exact ih
      · obtain ⟨hdata, hle⟩ := ih
        rw [pushed_append, List.length_append, Int.natCast_add, ← hdata]
        exact ⟨rfl, Int.add_one_le_of_lt (lt_of_le_of_ne hle hmax)⟩
  | outer e _ ih =>
      rw [pushed_of_nil rfl]
      exact ih

/-- What the rounds in the log leave, one after another: the numbers pushed are 1, 2, 3 and so on,
and those popped are the first of them. -/
theorem replays_fifo (h : monitor.Replays log v) :
    pushed log = counted (pushed log).length ∧ popped log ++ v.data_que = pushed log ∧
      v.data_que.length ≤ 101 := by
  induction h with
  | start => exact ⟨rfl, rfl, Nat.zero_le _⟩
  | @call log v i op x r hreplays hpasses hbody ih =>
      obtain ⟨hnumbers, horder, hbounded⟩ := ih
      obtain ⟨-, rfl⟩ | ⟨hstop, ⟨data, rest, rfl, hque, rfl⟩ | ⟨rfl, -, rfl⟩⟩ := body_cases hbody
      · rw [pushed_of_nil rfl, popped_of_nil rfl]
        exact ⟨hnumbers, horder, hbounded⟩
      · rw [pushed_of_nil rfl, popped_append]
        rw [hque] at horder hbounded
        refine ⟨hnumbers, ?_, ?_⟩
        · rw [List.append_assoc]
          exact horder
        · exact (Nat.le_succ _).trans hbounded
      · rw [popped_of_nil rfl]
        have hlast : pushed (log ++ [Monitor.Entry.call i Thread.producer (.pushed (v.data + 1))]) =
            pushed log ++ [((pushed log).length : Int) + 1] := by
          rw [pushed_append, ← (replays_data hreplays).1]
          rfl
        refine ⟨?_, ?_, ?_⟩
        · rw [hlast, List.length_append, List.length_singleton, counted_succ, ← hnumbers]
        · rw [pushed_append, ← horder, List.append_assoc]
          rfl
        · have hle := (producer_passes hstop).mp hpasses
          rw [List.length_append]
          exact Nat.succ_le_succ hle
  | outer e _ ih =>
      rw [pushed_of_nil rfl, popped_of_nil rfl]
      exact ih

/-- So no number is too large for an `int`. -/
theorem replays_fits (h : monitor.Replays log v) : ∀ data ∈ pushed log, data ≤ INT_MAX := by
  intro data hmem
  obtain ⟨hdata, hle⟩ := replays_data h
  rw [(replays_fifo h).1, counted] at hmem
  obtain ⟨n, hn, rfl⟩ := List.mem_map.mp hmem
  have hlt := List.mem_range.mp hn
  omega

/-! ## The threads -/

/-- Who waits on a condition variable could go on, as long as `b_stop` is not set. -/
def ready : Cv → Shared → Nat
  | .consume_cv, v => v.data_que.length
  | .producer_cv, v => 101 - v.data_que.length

/-- A round that pops makes room for one push, and a round that pushes makes one pop ready, and each
announces it. So no wakeup is lost before `b_stop` is set; `CtrlHandler` itself is not in these
books. -/
theorem balanced : Monitor.Balanced monitor ready (fun v => v.b_stop = false) (fun _ _ => True)
    fun _ => False where
  init := rfl
  predicate_iff := by
    intro op cv v hstop hwaits
    cases op with
    | consumer =>
        obtain rfl := Option.some.inj hwaits
        simp [monitor, hstop, ready, List.length_pos_iff]
    | producer =>
        obtain rfl := Option.some.inj hwaits
        simp only [monitor, hstop, ready, Bool.false_or, Bool.not_eq_true', decide_eq_false_iff_not]
        omega
  valid_body := by
    intro op x v r hstop _ hbody
    obtain ⟨hset, rfl⟩ | ⟨hstop, ⟨data, rest, rfl, hque, rfl⟩ | ⟨rfl, -, rfl⟩⟩ := body_cases hbody
    · exact hstop
    · exact hstop
    · exact hstop
  ready_body := by
    intro op x v r cv hstop _ hpasses hbody
    right; right
    obtain ⟨hset, -⟩ | ⟨-, ⟨data, rest, rfl, hque, rfl⟩ | ⟨rfl, -, rfl⟩⟩ := body_cases hbody
    · rw [hstop] at hset
      cases hset
    · cases cv with
      | consume_cv => simp [ready, monitor, hque]
      | producer_cv =>
          simp [ready, monitor, hque]
          omega
    · have hle := (producer_passes hstop).mp hpasses
      cases cv with
      | consume_cv => simp [ready, monitor]
      | producer_cv =>
          simp [ready, monitor]
          omega
  valid_outer := fun _ _ _ he => he.elim
  ready_outer := fun _ _ _ _ he => he.elim

/-- The condition variable a thread waits on. -/
def Thread.cv : Thread → Cv
  | .consumer => .consume_cv
  | .producer => .producer_cv

theorem waits_eq (i : Thread) : monitor.waits i = some i.cv := by cases i <;> rfl

theorem waits_inj {i j : Thread} (h : monitor.waits i = some j.cv) : i = j := by
  cases i <;> cases j <;> first | rfl | cases h

/-- The thread has been notified by `main`. -/
def Main.notified : Main → Thread → Bool
  | .polling, _ | .notify_consume_cv, _ => false
  | .notify_producer_cv, i => i = .consumer
  | .join_producer, _ | .join_consumer, _ | .done, _ => true

/-- The kinds of steps. -/
inductive Kind (s t : State) (a : Act) : Prop
  /-- A thread leaves its loop. -/
  | finish (i : Thread) (stop : s.mgr.value.b_stop = true)
      (after : t = { s with finished := Function.update s.finished i true })
  | monitor (b : Monitor.Action Thread Thread Unit Cv Unit)
      (step : ProductConsumerMgr.monitor.step s.mgr b = some t.mgr)
      (own : ∀ i op, b = .call i op → op = i) (finished : t.finished = s.finished)
      (main : t.main = s.main)
  | notify (i : Thread) (target : Option Thread) (act : a = .main_notify target)
      (step : ProductConsumerMgr.monitor.step s.mgr (.notify i.cv target) = some t.mgr)
      (finished : t.finished = s.finished) (before : s.main.notifies = some i)
      (after : ∀ j, t.main.notified j = true → j = i ∨ s.main.notified j = true)
  | main (mgr : t.mgr = s.mgr) (finished : t.finished = s.finished)
      (after : t.main.notified = s.main.notified)
      (stop : s.mgr.value.b_stop = true ∨ s.main ≠ .polling)

theorem State.monitor_step_kind {a : Act} {b : Monitor.Action Thread Thread Unit Cv Unit}
    (h : s.monitor_step b = some t) (own : ∀ i op, b = .call i op → op = i) : Kind s t a := by
  obtain ⟨mgr, hmgr, rfl⟩ := Option.map_eq_some_iff.mp h
  exact .monitor b hmgr own rfl rfl

/-- Each step is of one of these kinds. -/
theorem step_kind {a : Act} (h : s.step a = some t) : Kind s t a := by
  cases a with
  | loop i =>
      rw [State.step] at h
      split at h
      case h_1 =>
        split at h
        · cases h
        · split at h
          next hstop => exact .finish i hstop (Option.some.inj h).symm
          next =>
            apply State.monitor_step_kind h
            intro i' op heq
            cases heq
            rfl
      case h_2 => cases h
  | run i => exact State.monitor_step_kind h (by intro i' op heq; cases heq)
  | body i => exact State.monitor_step_kind h (by intro i' op heq; cases heq)
  | notify_one i target => exact State.monitor_step_kind h (by intro i' op heq; cases heq)
  | spurious i => exact State.monitor_step_kind h (by intro i' op heq; cases heq)
  | ctrl_handler => exact State.monitor_step_kind h (by intro i' op heq; cases heq)
  | main =>
      rw [State.step] at h
      cases hmain : s.main <;> rw [hmain] at h
      case polling =>
        obtain ⟨hstop, h⟩ := Option.ite_none_right_eq_some.mp h
        obtain rfl := Option.some.inj h
        exact .main rfl rfl (hmain ▸ rfl) (Or.inl hstop)
      case join_producer | join_consumer =>
        obtain ⟨-, h⟩ := Option.ite_none_right_eq_some.mp h
        obtain rfl := Option.some.inj h
        exact .main rfl rfl (hmain ▸ rfl) (Or.inr (by rw [hmain]; exact Main.noConfusion))
      all_goals cases h
  | main_notify target =>
      rw [State.step] at h
      cases hmain : s.main <;> rw [hmain] at h
      case notify_consume_cv =>
        obtain ⟨u, hu, rfl⟩ := Option.map_eq_some_iff.mp h
        obtain ⟨mgr, hmgr, rfl⟩ := Option.map_eq_some_iff.mp hu
        exact .notify .consumer target rfl hmgr rfl (hmain ▸ rfl)
          fun j hj => Or.inl (of_decide_eq_true hj)
      case notify_producer_cv =>
        obtain ⟨u, hu, rfl⟩ := Option.map_eq_some_iff.mp h
        obtain ⟨mgr, hmgr, rfl⟩ := Option.map_eq_some_iff.mp hu
        refine .notify .producer target rfl hmgr rfl (hmain ▸ rfl) fun j _ => ?_
        rw [hmain]
        cases j with
        | consumer => exact Or.inr rfl
        | producer => exact Or.inl rfl
      all_goals cases h

/-! ## The invariant -/

structure Inv (s : State) : Prop where
  mgr : monitor.Inv s.mgr
  own : ∀ i, (s.mgr.pc i).Of i
  books : s.mgr.value.b_stop = false →
    Monitor.Books monitor ready (fun v => v.b_stop = false) s.mgr
  stopped : s.main ≠ .polling → s.mgr.value.b_stop = true
  finished : ∀ i, s.finished i = true → s.mgr.value.b_stop = true

/-- Who has been notified by `main` is not asleep, and does not fall asleep again. -/
def Woken (s : State) : Prop :=
  ∀ i, s.main.notified i = true → (s.mgr.pc i).late monitor i.cv = false

/-- `b_stop` is set by `CtrlHandler` only, and stays set. -/
theorem b_stop_of_step {u v : Monitor.Sys Thread Shared Thread Result Cv Unit}
    {b : Monitor.Action Thread Thread Unit Cv Unit} (h : monitor.step u b = some v) :
    (u.value.b_stop = true → v.value.b_stop = true) ∧
      (v.value.b_stop = false → u.value.b_stop = false ∧ ∀ e, b ≠ .outer e) := by
  obtain ⟨e, -, hvalue⟩ | ⟨hother, hvalue⟩ := Monitor.step_value h
  · rw [hvalue]
    exact ⟨fun _ => rfl, Bool.noConfusion⟩
  · have hkeep : v.value.b_stop = u.value.b_stop := by
      rcases hvalue with hsame | ⟨op, x, r, hr, hvalue⟩
      · rw [hsame]
      · rw [hvalue]
        obtain ⟨-, rfl⟩ | ⟨-, ⟨data, rest, -, -, rfl⟩ | ⟨-, -, rfl⟩⟩ := body_cases hr <;> rfl
    rw [hkeep]
    exact ⟨id, fun hstop => ⟨hstop, hother⟩⟩

/-- A step of the monitor. As long as `b_stop` is not set, the books are kept. -/
theorem Inv.monitor_step (h : Inv s) {b : Monitor.Action Thread Thread Unit Cv Unit}
    (hb : monitor.step s.mgr b = some t.mgr) (hown : ∀ i op, b = .call i op → op = i)
    (hfinished : t.finished = s.finished)
    (hstopped : t.main ≠ .polling → s.mgr.value.b_stop = true) : Inv t where
  mgr := h.mgr.step b hb
  own := Monitor.step_of id h.own hown hb
  books := by
    intro hstop
    obtain ⟨hbefore, hother⟩ := (b_stop_of_step hb).2 hstop
    apply (h.books hbefore).step balanced h.mgr _ hb
    exact Monitor.keeps_of_forall (fun _ _ => trivial) fun e he => absurd he (hother e)
  stopped := fun hmain => (b_stop_of_step hb).1 (hstopped hmain)
  finished := fun i hi => (b_stop_of_step hb).1 (h.finished i (hfinished ▸ hi))

/-- Any step. `main` leaves its loop, and a thread its own, only where `b_stop` is set. -/
theorem Inv.step (h : Inv s) {a : Act} (hstep : s.step a = some t) : Inv t := by
  cases step_kind hstep with
  | finish i hstop hafter =>
      subst hafter
      exact ⟨h.mgr, h.own, h.books, h.stopped, fun _ _ => hstop⟩
  | monitor b hb hown hfinished hmain =>
      refine h.monitor_step hb hown hfinished fun hpolling => ?_
      exact h.stopped (hmain ▸ hpolling)
  | notify i target _ hb hfinished hbefore _ =>
      refine h.monitor_step hb (by intro i' op heq; cases heq) hfinished fun _ => ?_
      apply h.stopped
      intro hpolling
      rw [hpolling] at hbefore
      cases hbefore
  | main hmgr hfinished hafter hstop =>
      have hset : s.mgr.value.b_stop = true := hstop.elim id h.stopped
      exact ⟨hmgr ▸ h.mgr, hmgr ▸ h.own, hmgr ▸ h.books, fun _ => hmgr ▸ hset,
        fun _ _ => hmgr ▸ hset⟩

/-- A thread is notified by `main`, which does not catch it. -/
theorem Woken.step (h : Inv s) (hwoken : Woken s) {a : Act} (hclear : Clear s a)
    (hstep : s.step a = some t) : Woken t := by
  -- who has been notified finds `b_stop` set, and does not fall asleep
  have hstay : ∀ i b, ProductConsumerMgr.monitor.step s.mgr b = some t.mgr →
      s.main.notified i = true → (t.mgr.pc i).late monitor i.cv = false := by
    intro i b hb hi
    by_contra hlate
    rw [Bool.not_eq_false] at hlate
    rcases Monitor.step_late hb hlate with hbefore | ⟨op, -, -, hpasses⟩
    · rw [hwoken i hi] at hbefore
      cases hbefore
    · have hstop : s.mgr.value.b_stop = true := by
        apply h.stopped
        intro hpolling
        rw [hpolling] at hi
        cases hi
      rw [passes_of_stop hstop] at hpasses
      cases hpasses
  cases step_kind hstep with
  | finish i hstop hafter =>
      subst hafter
      exact hwoken
  | monitor b hb hown hfinished hmain =>
      intro i hi
      exact hstay i b hb (hmain ▸ hi)
  | notify i target hact hb hfinished hbefore hafter =>
      intro j hj
      rcases hafter j hj with rfl | hnotified
      · apply Monitor.late_notify hb
        · intro k op hk hwaits
          have hown := h.own k
          rw [hk] at hown
          exact hown ▸ waits_inj hwaits
        · intro op hblock
          have hown := h.own j
          rw [hblock] at hown
          subst hact hown
          exact hclear ⟨op, hbefore, hblock⟩
      · exact hstay j _ hb hnotified
  | main hmgr hfinished hafter hstop =>
      intro i hi
      rw [hmgr]
      exact hwoken i (hafter ▸ hi)

theorem Inv.init : Inv program.init := by
  refine ⟨.init, fun _ => trivial, fun _ => .init balanced, fun hpolling => absurd rfl hpolling, ?_⟩
  intro i hi
  cases hi

/-- **First in, first out**, in every run, also after `b_stop` is set. No run goes on after
`++data` has overflowed, so the numbers pushed are those from 1 to `INT_MAX` at most. -/
theorem consumed_in_order (as : List Act) : program.Along Fifo program.init as := by
  apply program.along_of_inv (I := Inv)
  · intro s h
    obtain ⟨hnumbers, horder, hbounded⟩ := replays_fifo h.mgr.replays
    exact ⟨hnumbers, replays_fits h.mgr.replays, horder, hbounded⟩
  · exact fun s a t h ht => h.step ht
  · exact Inv.init

/-! ## The end -/

/-- Where the program is quiet its monitor is. -/
theorem Quiet.mgr (hquiet : Quiet s) : monitor.Quiet s.mgr := by
  intro b hb
  have hnone : ∀ a, program.step s a = s.monitor_step b → a ≠ .ctrl_handler →
      (∀ i, a ≠ .spurious i) → ProductConsumerMgr.monitor.step s.mgr b = none := by
    intro a ha hctrl hspurious
    by_contra hne
    rcases hquiet a (by rw [ha]; exact fun hmap => hne (Option.map_eq_none_iff.mp hmap)) with
      h | ⟨i, h⟩
    · exact hctrl h
    · exact hspurious i h
  cases b with
  | run i => exact hnone (.run i) rfl Act.noConfusion fun _ => Act.noConfusion
  | body i x => exact hnone (.body i) rfl Act.noConfusion fun _ => Act.noConfusion
  | notify_one i target =>
      exact hnone (.notify_one i target) rfl Act.noConfusion fun _ => Act.noConfusion
  | call i op | spurious i | outer e | notify cv target => exact hb.elim

/-- A thread that is idle has finished. -/
theorem Quiet.finished (hquiet : Quiet s) {i : Thread} (hidle : s.mgr.pc i = .idle) :
    s.finished i = true := by
  by_contra hne
  have henabled : program.step s (.loop i) ≠ none := by
    simp only [program, State.step, hidle, if_neg hne]
    split
    · exact Option.some_ne_none _
    · simp [State.monitor_step, Monitor.step, hidle]
  rcases hquiet _ henabled with h | ⟨j, h⟩
  · cases h
  · cases h

/-- A round is undefined only where the producer has counted to the end. -/
theorem total (hdata : v.data < INT_MAX) (op : Thread) (h : monitor.passes op v = true) :
    ∃ x, (monitor.body op x v).isSome = true := by
  refine ⟨(), ?_⟩
  cases hstop : v.b_stop with
  | true => cases op <;> simp [monitor, hstop]
  | false =>
      cases op with
      | producer => simp [monitor, hstop, ne_of_lt hdata]
      | consumer =>
          obtain ⟨data, rest, hque⟩ :=
            List.exists_cons_of_ne_nil ((consumer_passes hstop).mp h)
          simp [monitor, hstop, hque]

/-- As long as `b_stop` is not set, one of the two can go on. -/
theorem Inv.not_quiet (h : Inv s) (hdata : s.mgr.value.data < INT_MAX)
    (hstop : s.mgr.value.b_stop = false) : ¬ Quiet s := by
  intro hquiet
  have hsettled := hquiet.mgr.settled balanced h.mgr (h.books hstop) (total hdata)
  have hrefused : ∀ i, monitor.passes i s.mgr.value = false := by
    intro i
    rcases hsettled.threads i with hidle | ⟨op, hblocked, hpasses⟩
    · have hset := h.finished i (hquiet.finished hidle)
      rw [hstop] at hset
      cases hset
    · have hown := h.own i
      rw [hblocked] at hown
      exact hown ▸ hpasses
  -- the queue would be empty and full
  have hempty := (not_congr (consumer_passes hstop)).mp (by simp [hrefused])
  have hfull := (not_congr (producer_passes hstop)).mp (by simp [hrefused])
  rw [not_not.mp hempty] at hfull
  exact hfull (Nat.zero_le _)

/-- Who has been notified finishes. -/
theorem Quiet.notified_finished (hquiet : Quiet s) (h : Inv s)
    (hdata : s.mgr.value.data < INT_MAX) (hwoken : Woken s) {i : Thread}
    (hi : s.main.notified i = true) : s.finished i = true := by
  rcases (hquiet.mgr.threads h.mgr (total hdata)).2 i with hidle | ⟨op, hblocked⟩
  · exact hquiet.finished hidle
  · have hlate := hwoken i hi
    have hown := h.own i
    rw [hblocked] at hlate hown
    obtain rfl : op = i := hown
    have hwaits : (Monitor.Pc.late monitor op.cv (.blocked op)) = true :=
      decide_eq_true (waits_eq op)
    rw [hlate] at hwaits
    cases hwaits

/-- **The program ends**, where `main` does not catch a thread between its predicate and its sleep,
and the producer has not counted to the end: when nothing can move any more, the threads have been
joined. The destructor notifies both threads once, without the mutex: that is enough for a thread
that is asleep, and for one that will test its predicate again. -/
theorem ends (as : List Act) (hclear : program.Always Clear program.init as)
    (h : program.exec program.init as = some s) (hdata : s.mgr.value.data < INT_MAX)
    (hquiet : Quiet s) : s.main = .done := by
  obtain ⟨hinv, hwoken⟩ := program.exec_inv_of_always (P := fun s => Inv s ∧ Woken s)
    (fun s a t hs ha ht => ⟨hs.1.step ht, hs.2.step hs.1 ha ht⟩)
    ⟨Inv.init, fun i hi => Bool.noConfusion hi⟩ hclear h
  have hstop : s.mgr.value.b_stop = true := by
    by_contra hne
    exact hinv.not_quiet hdata (by simpa using hne) hquiet
  have hmain : program.step s .main = none := by
    by_contra hne
    rcases hquiet .main hne with hctrl | ⟨i, hspurious⟩
    · cases hctrl
    · cases hspurious
  have hnotify : ∀ target, program.step s (.main_notify target) = none := by
    intro target
    by_contra hne
    rcases hquiet _ hne with hctrl | ⟨i, hspurious⟩
    · cases hctrl
    · cases hspurious
  cases hpc : s.main with
  | polling => simp [program, State.step, hpc, hstop] at hmain
  | notify_consume_cv =>
      obtain ⟨target, htarget⟩ := Monitor.exists_notifyOne (monitor.wake .consume_cv) s.mgr.pc
      have hnone := hnotify target
      simp [program, State.step, hpc, State.monitor_step, Monitor.step, htarget] at hnone
  | notify_producer_cv =>
      obtain ⟨target, htarget⟩ := Monitor.exists_notifyOne (monitor.wake .producer_cv) s.mgr.pc
      have hnone := hnotify target
      simp [program, State.step, hpc, State.monitor_step, Monitor.step, htarget] at hnone
  | join_producer =>
      have hfinished := hquiet.notified_finished hinv hdata hwoken (i := .producer)
        (by rw [hpc]; rfl)
      simp [program, State.step, hpc, hfinished] at hmain
  | join_consumer =>
      have hfinished := hquiet.notified_finished hinv hdata hwoken (i := .consumer)
        (by rw [hpc]; rfl)
      simp [program, State.step, hpc, hfinished] at hmain
  | done => rfl

/-- When the threads have been joined nothing is left to happen. -/
theorem quiet_of_done (hmain : s.main = .done) (hidle : ∀ i, s.mgr.pc i = .idle)
    (hfinished : ∀ i, s.finished i = true) : Quiet s := by
  intro a ha
  cases a with
  | ctrl_handler => exact Or.inl rfl
  | spurious i => exact Or.inr ⟨i, rfl⟩
  | main | main_notify target => simp [program, State.step, hmain] at ha
  | loop i => simp [program, State.step, hidle, hfinished] at ha
  | run i => simp [program, State.step, State.monitor_step, Monitor.step, Monitor.run, hidle] at ha
  | body i | notify_one i target =>
      simp [program, State.step, State.monitor_step, Monitor.step, hidle] at ha

/-- The consumer finds the queue empty and falls asleep. -/
def asleep : List Act := [.loop .consumer, .run .consumer, .run .consumer, .run .consumer]

/-- The destructor wakes it, and both threads return. -/
def awake : List Act := [.ctrl_handler, .main, .main_notify (some .consumer), .main_notify none,
  .run .consumer, .run .consumer, .body .consumer, .run .consumer, .loop .consumer,
  .loop .producer, .main, .main]

theorem ends_asleep :
    (program.exec program.init asleep).map (·.mgr.pc .consumer) = some (.blocked .consumer) ∧
      ∃ s, program.exec program.init (asleep ++ awake) = some s ∧ s.main = .done := by
  refine ⟨rfl, _, rfl, ends (asleep ++ awake) ?_ rfl (by decide)
    (quiet_of_done rfl (fun i => by cases i <;> rfl) (fun i => by cases i <;> rfl))⟩
  have hout : ∀ t : State, (∀ i, t.mgr.pc i ≠ .block i) → ¬ Caught t := by
    rintro t hout ⟨i, -, hblock⟩
    exact hout i hblock
  have hclear : ∀ (t : State) (bs : List Act), (∀ target, Act.main_notify target ∉ bs) →
      program.Always Clear t bs := by
    intro t bs hbs
    apply program.always_of_forall
    rintro (i | i | i | ⟨i, target⟩ | i | _ | _ | target) hmem u
    case main_notify => exact absurd hmem (hbs target)
    all_goals exact trivial
  -- the consumer is asleep when it is notified, and the producer has not begun a round
  refine ⟨trivial, fun t ht => ?_⟩
  obtain rfl := Option.some.inj ht
  refine ⟨trivial, fun t ht => ?_⟩
  obtain rfl := Option.some.inj ht
  refine ⟨trivial, fun t ht => ?_⟩
  obtain rfl := Option.some.inj ht
  refine ⟨trivial, fun t ht => ?_⟩
  obtain rfl := Option.some.inj ht
  refine ⟨trivial, fun t ht => ?_⟩
  obtain rfl := Option.some.inj ht
  refine ⟨trivial, fun t ht => ?_⟩
  obtain rfl := Option.some.inj ht
  refine ⟨hout _ (fun i h => by cases i <;> cases h), fun t ht => ?_⟩
  obtain rfl := Option.some.inj ht
  refine ⟨hout _ (fun i h => by cases i <;> cases h), fun t ht => ?_⟩
  exact hclear t _ fun target => by simp

/-- **The join may not return**, where `main` notifies the consumer after that has found the queue
empty and `b_stop` not set, and before it is asleep. -/
theorem may_hang : ∃ as s, program.exec program.init as = some s ∧ Quiet s ∧ s.main ≠ .done := by
  refine ⟨[.loop .consumer, .run .consumer, .run .consumer, .ctrl_handler, .main,
    .main_notify none, .main_notify none, .run .consumer, .loop .producer, .main], _, rfl, ?_, ?_⟩
  · intro a ha
    cases a with
    | ctrl_handler => exact Or.inl rfl
    | spurious i => exact Or.inr ⟨i, rfl⟩
    | main => exact absurd rfl ha
    | main_notify target => exact absurd rfl ha
    | loop i => cases i <;> exact absurd rfl ha
    | run i => cases i <;> exact absurd rfl ha
    | body i => cases i <;> exact absurd rfl ha
    | notify_one i target => cases i <;> exact absurd rfl ha
  · exact Main.noConfusion

end BoostNet.ProductConsumerMgr
