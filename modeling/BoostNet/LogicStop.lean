/-
The shutdown of `LogicSystem`, in Network/asyncServer and Network/coroutineServer:
`~LogicSystem` sets `_b_stop`, notifies `_consume` and joins the thread of `DealMsg`.

Any number of threads call `PostMsgToQue`, and the destructor runs once. `DealMsg` and
`PostMsgToQue` hold `_mutex`, the destructor does not: it may set the flag and notify
after the worker has read the flag as false and before the worker blocks. Then nobody
wakes the worker, and the destructor joins it.

The worker tests `_msg_que.empty()` and then `_b_stop`, one step each. Releasing `_mutex`
and blocking is one step; a wait may end spuriously. The worker alone waits, so a
notification wakes it or is lost. What a callback does is left out: `calls` remembers its
message. `LogicSystem` has the data of the messages.

* `destructor_no_hang`: the destructor does not join a blocked worker that nobody notifies, in any
  run in which each notification after the stop, if it is the last one in progress, finds
  the worker not about to block.
* `destructor_hang`: the destructor between the worker's test and its wait.
-/
import Mathlib.Data.Fintype.Basic
import BoostNet.Lts

set_option autoImplicit false

namespace BoostNet.LogicStop

/-- The two servers. `PostMsgToQue` releases `_mutex` before it notifies in asyncServer,
and after that in coroutineServer. -/
inductive Server where
  | asyncServer
  | coroutineServer
  deriving DecidableEq

/-! ## The threads -/

/-- Where `DealMsg` is. `drain` says that the queue is drained after a stop. -/
inductive Worker (M : Type*) where
  | lock
  | empty
  | load_stop
  | block
  | blocked
  | woken
  | b_stop
  | front (drain : Bool)
  | callback (drain : Bool) (msg : M)
  | pop (drain : Bool)
  | unlock
  | exit
  | exited
  deriving DecidableEq

/-- Where a call of `PostMsgToQue` is. -/
inductive Post (M : Type*) where
  | idle
  | lock (msg : M)
  | push (msg : M)
  | unlock_notify
  | notify
  | unlock
  deriving DecidableEq

/-- Where `~LogicSystem` is. -/
inductive Destructor where
  | alive
  | notify
  | join
  | joined
  deriving DecidableEq

variable {ι M : Type*}

/-- `notify_one` of `_consume`. -/
def Worker.notified : Worker M → Worker M
  | .blocked => .woken
  | p => p

/-! ## The system -/

/-- Who holds `_mutex`. -/
inductive Holder (ι : Type*) where
  | worker
  | post (i : ι)
  deriving DecidableEq

structure Sys (ι M : Type*) where
  msg_que : List M := []
  b_stop : Bool := false
  mutex : Option (Holder ι) := none
  worker : Worker M := .lock
  posts : ι → Post M := fun _ => .idle
  destructor : Destructor := .alive
  calls : List M := []

/-- A step of `DealMsg`. `registered` says that `_fun_callback` has the id of the
message. -/
def Sys.dealMsg (registered : M → Bool) (s : Sys ι M) : Option (Sys ι M) :=
  match s.worker with
  | .lock | .woken =>
      match s.mutex with
      | none => some { s with worker := .empty, mutex := some .worker }
      | some _ => none
  | .empty => some { s with worker := if s.msg_que.isEmpty then .load_stop else .b_stop }
  | .load_stop => some { s with worker := if s.b_stop then .b_stop else .block }
  | .block => some { s with worker := .blocked, mutex := none }
  | .blocked => none
  | .b_stop => some { s with worker := .front s.b_stop }
  | .front drain =>
      match s.msg_que with
      | [] => if drain then some { s with worker := .exit } else none
      | msg :: _ =>
          some { s with worker := if registered msg then .callback drain msg else .pop drain }
  | .callback drain msg => some { s with worker := .pop drain, calls := s.calls ++ [msg] }
  | .pop drain =>
      some { s with msg_que := s.msg_que.tail, worker := if drain then .front true else .unlock }
  | .unlock => some { s with worker := .lock, mutex := none }
  | .exit => some { s with worker := .exited, mutex := none }
  | .exited => none

variable [DecidableEq ι]

def Sys.goto (s : Sys ι M) (i : ι) (p : Post M) : Sys ι M :=
  { s with posts := Function.update s.posts i p }

/-- A step of `PostMsgToQue`. -/
def Sys.postMsgToQue (server : Server) (s : Sys ι M) (i : ι) : Option (Sys ι M) :=
  match s.posts i with
  | .idle => none
  | .lock msg =>
      match s.mutex with
      | none => some { s.goto i (.push msg) with mutex := some (.post i) }
      | some _ => none
  | .push msg =>
      some { s.goto i
          (if (s.msg_que ++ [msg]).length = 1 then
            match server with
            | .asyncServer => .unlock_notify
            | .coroutineServer => .notify
          else .unlock) with
        msg_que := s.msg_que ++ [msg] }
  | .unlock_notify => some { s.goto i .notify with mutex := none }
  | .notify =>
      some { s.goto i
          (match server with
          | .asyncServer => .idle
          | .coroutineServer => .unlock) with
        worker := s.worker.notified }
  | .unlock => some { s.goto i .idle with mutex := none }

omit [DecidableEq ι] in
/-- A step of `~LogicSystem`. -/
def Sys.destroy (s : Sys ι M) : Option (Sys ι M) :=
  match s.destructor with
  | .alive => some { s with b_stop := true, destructor := .notify }
  | .notify => some { s with worker := s.worker.notified, destructor := .join }
  | .join =>
      match s.worker with
      | .exited => some { s with destructor := .joined }
      | _ => none
  | .joined => none

inductive Action (ι M : Type*) where
  /-- A call of `PostMsgToQue`. -/
  | call (i : ι) (msg : M)
  | post (i : ι)
  | worker
  | destructor
  | spurious

def Sys.step (server : Server) (registered : M → Bool) (s : Sys ι M) :
    Action ι M → Option (Sys ι M)
  | .call i msg =>
      match s.posts i with
      | .idle => some (s.goto i (.lock msg))
      | _ => none
  | .post i => s.postMsgToQue server i
  | .worker => s.dealMsg registered
  | .destructor => s.destroy
  | .spurious =>
      match s.worker with
      | .blocked => some { s with worker := .woken }
      | _ => none

def system (server : Server) (registered : M → Bool) (ι : Type*) [DecidableEq ι] :
    Lts (Sys ι M) (Action ι M) where
  init := {}
  step := Sys.step server registered

/-! ## No hang, and the condition -/

/-- `PostMsgToQue` is going to notify. -/
def Post.notifying : Post M → Bool
  | .unlock_notify | .notify => true
  | _ => false

omit [DecidableEq ι] in
/-- The destructor does not wait for a worker that is blocked and is not going to be
notified. -/
def Sys.NoHang (s : Sys ι M) : Prop :=
  s.destructor = .join → s.worker = .blocked → ∃ i, (s.posts i).notifying = true

/-- The worker has read `_b_stop` as false and is about to block. -/
def Worker.blocking : Worker M → Bool
  | .block => true
  | _ => false

/-- The notification is next. -/
def Post.notifies : Post M → Bool
  | .notify => true
  | _ => false

/-- When the destructor notifies, or a `PostMsgToQue` after it, and no other notification
is to come, the worker is not about to block. -/
def InTime (s : Sys ι M) : Action ι M → Prop
  | .destructor =>
      s.destructor = .notify → (∀ j, (s.posts j).notifying = false) → s.worker.blocking = false
  | .post i =>
      s.destructor = .join → (s.posts i).notifies = true →
        (∀ j, j ≠ i → (s.posts j).notifying = false) → s.worker.blocking = false
  | .call _ _ | .worker | .spurious => True

instance [Fintype ι] (s : Sys ι M) : ∀ a : Action ι M, Decidable (InTime s a)
  | .destructor => by unfold InTime; infer_instance
  | .post i => by unfold InTime; infer_instance
  | .call _ _ | .worker | .spurious => isTrue trivial

/-! ## The invariant -/

/-- The worker does not read `_b_stop` again before it sleeps. -/
def Worker.late : Worker M → Bool
  | .block | .blocked => true
  | _ => false

structure Inv (s : Sys ι M) : Prop where
  stopped : s.b_stop = false → s.destructor = .alive
  covered : s.destructor = .join → s.worker.late = true → ∃ i, (s.posts i).notifying = true

variable {server : Server} {registered : M → Bool} {s t : Sys ι M} {i : ι} {p : Worker M}

omit [DecidableEq ι] in
/-- A step of the worker: it is late only if it was, or has read `_b_stop` as false. -/
theorem Inv.worker (h : Inv s) {mutex : Option (Holder ι)} {msg_que calls : List M}
    (hlate : p.late = true → s.worker.late = true ∨ s.b_stop = false) :
    Inv { s with worker := p, mutex := mutex, msg_que := msg_que, calls := calls } where
  stopped := h.stopped
  covered := by
    intro hjoin hl
    rcases hlate hl with hl | hstop
    · exact h.covered hjoin hl
    · rw [h.stopped hstop] at hjoin
      exact absurd hjoin nofun

/-- A step of a `PostMsgToQue` that does not notify. -/
theorem Inv.post (h : Inv s) {q : Post M} {mutex : Option (Holder ι)} {msg_que : List M}
    (hnotifying : (s.posts i).notifying = true → q.notifying = true) :
    Inv { s.goto i q with mutex := mutex, msg_que := msg_que } where
  stopped := h.stopped
  covered := by
    intro hjoin hl
    obtain ⟨j, hj⟩ := h.covered hjoin hl
    refine ⟨j, ?_⟩
    by_cases hji : j = i
    · subst hji
      simp only [Sys.goto, Function.update_self]
      exact hnotifying hj
    · simp only [Sys.goto, Function.update_of_ne hji]
      exact hj

/-- After a notification the worker is late only if it is about to block. -/
theorem blocking_of_late_notified (h : p.notified.late = true) : p.blocking = true := by
  cases p <;> simp_all [Worker.notified, Worker.late, Worker.blocking]

omit [DecidableEq ι] in
theorem inv_dealMsg (h : Inv s) (hstep : s.dealMsg registered = some t) : Inv t := by
  unfold Sys.dealMsg at hstep
  cases hpc : s.worker <;> simp only [hpc, reduceCtorEq, Option.some.injEq] at hstep
  case lock | woken =>
    cases hm : s.mutex <;> simp only [hm, reduceCtorEq, Option.some.injEq] at hstep
    subst hstep
    exact h.worker nofun
  case empty =>
    subst hstep
    apply h.worker
    split <;> exact nofun
  case load_stop =>
    subst hstep
    apply h.worker
    intro hl
    by_cases hstop : s.b_stop = true
    · rw [if_pos hstop] at hl
      exact absurd hl nofun
    · exact Or.inr (Bool.eq_false_iff.mpr hstop)
  case block =>
    subst hstep
    exact h.worker (fun _ => Or.inl (by rw [hpc]; rfl))
  case front drain =>
    cases hmsgs : s.msg_que <;> simp only [hmsgs] at hstep
    · obtain ⟨-, hstep⟩ := Option.ite_none_right_eq_some.mp hstep
      obtain rfl := Option.some.inj hstep
      exact h.worker nofun
    · rw [Option.some.injEq] at hstep
      subst hstep
      apply h.worker
      split <;> exact nofun
  case pop drain =>
    subst hstep
    apply h.worker
    split <;> exact nofun
  all_goals
    subst hstep
    exact h.worker nofun

theorem inv_postMsgToQue (h : Inv s) (hG : InTime s (.post i))
    (hstep : s.postMsgToQue server i = some t) : Inv t := by
  unfold Sys.postMsgToQue at hstep
  cases hpc : s.posts i <;> simp only [hpc, reduceCtorEq, Option.some.injEq] at hstep
  case lock msg =>
    cases hm : s.mutex <;> simp only [hm, reduceCtorEq, Option.some.injEq] at hstep
    subst hstep
    exact h.post (by simp [hpc, Post.notifying])
  case push msg | unlock =>
    subst hstep
    exact h.post (by simp [hpc, Post.notifying])
  case unlock_notify =>
    subst hstep
    exact h.post (fun _ => rfl)
  case notify =>
    subst hstep
    refine ⟨h.stopped, fun hjoin hl => ?_⟩
    have hblocking := blocking_of_late_notified hl
    -- The worker is about to block, so another notification is to come.
    by_contra hnone
    push Not at hnone
    have hothers : ∀ j, j ≠ i → (s.posts j).notifying = false := by
      intro j hji
      have hj := hnone j
      simp only [Sys.goto, Function.update_of_ne hji] at hj
      exact Bool.eq_false_iff.mpr hj
    rw [hG hjoin (by rw [hpc]; rfl) hothers] at hblocking
    exact absurd hblocking nofun

omit [DecidableEq ι] in
theorem inv_destroy (h : Inv s) (hG : InTime s .destructor) (hstep : s.destroy = some t) :
    Inv t := by
  unfold Sys.destroy at hstep
  cases hpc : s.destructor <;> simp only [hpc, reduceCtorEq, Option.some.injEq] at hstep
  case alive =>
    subst hstep
    exact ⟨nofun, nofun⟩
  case notify =>
    subst hstep
    refine ⟨fun hstop => absurd ((h.stopped hstop).symm.trans hpc) nofun, fun _ hl => ?_⟩
    have hblocking := blocking_of_late_notified hl
    by_contra hnone
    push Not at hnone
    rw [hG hpc (fun j => Bool.eq_false_iff.mpr (hnone j))] at hblocking
    exact absurd hblocking nofun
  case join =>
    cases hw : s.worker <;> simp only [hw, reduceCtorEq, Option.some.injEq] at hstep
    subst hstep
    exact ⟨fun hstop => absurd ((h.stopped hstop).symm.trans hpc) nofun, nofun⟩

/-- **The step lemma.** Every step that meets `InTime` keeps the invariant. -/
theorem inv_step (s : Sys ι M) (a : Action ι M) (t : Sys ι M) (h : Inv s) (hG : InTime s a)
    (hstep : (system server registered ι).step s a = some t) : Inv t := by
  change s.step server registered a = some t at hstep
  cases a with
  | call i msg =>
      unfold Sys.step at hstep
      cases hpc : s.posts i <;> simp only [hpc, reduceCtorEq, Option.some.injEq] at hstep
      subst hstep
      exact h.post (by simp [hpc, Post.notifying])
  | post i => exact inv_postMsgToQue h hG hstep
  | worker => exact inv_dealMsg h hstep
  | destructor => exact inv_destroy h hG hstep
  | spurious =>
      unfold Sys.step at hstep
      cases hw : s.worker <;> simp only [hw, reduceCtorEq, Option.some.injEq] at hstep
      subst hstep
      exact h.worker nofun

theorem inv_init : Inv (system server registered ι).init where
  stopped := fun _ => rfl
  covered := nofun

/-! ## No hang -/

/-- **`~LogicSystem` does not hang**, in every run in which each notification is in time. The
destructor sets `_b_stop` and notifies without the mutex, so it can fall between the worker's test
and its sleep; and it does so once only. -/
theorem destructor_no_hang (server : Server) (registered : M → Bool) (as : List (Action ι M))
    (hG : (system server registered ι).Always InTime (system server registered ι).init as) :
    (system server registered ι).Along Sys.NoHang (system server registered ι).init as :=
  (system server registered ι).along_of_always
    (fun _ h hjoin hblocked => h.covered hjoin (by rw [hblocked]; rfl)) inv_step inv_init hG

/-- A message is posted and dealt with; then the worker blocks and the destructor wakes
it. -/
theorem destructor_no_hang_inTime :
    (system .asyncServer (fun _ : Nat => true) Unit).Along Sys.NoHang
      (system .asyncServer (fun _ : Nat => true) Unit).init
      [.call () 1001, .post (), .post (), .post (), .post (), .worker, .worker, .worker,
        .worker, .worker, .worker, .worker, .worker, .worker, .worker, .worker, .destructor,
        .destructor, .worker, .worker, .worker, .worker, .worker, .worker, .destructor] :=
  destructor_no_hang .asyncServer _ _ (by decide)

/-- The worker finds the queue empty and `_b_stop` false, the destructor sets it and
notifies nobody, then the worker blocks. -/
theorem destructor_hang : ¬ (system .asyncServer (fun _ : Nat => true) Unit).Along Sys.NoHang
    (system .asyncServer (fun _ : Nat => true) Unit).init
    [.worker, .worker, .worker, .destructor, .destructor, .worker] := by
  intro h
  obtain ⟨i, hi⟩ := Lts.Along.last _ h rfl rfl rfl
  exact absurd hi nofun

end BoostNet.LogicStop
