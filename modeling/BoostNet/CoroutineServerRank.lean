/-
The server of `CoroutineServer` comes to rest: how many steps are left is a measure that every step
decreases, unless bytes arrive or a wakeup is spurious.

A byte that has not been read counts 50, as a message of one byte may have to be posted, wake the
worker, be called back, and be answered; a message in `_msg_que` counts 23, a node in `_send_que` 6
and an outstanding write 3. The other weights say where a thread is.

* `comes_to_rest`: a run is no longer than what arrives allows.
-/
import BoostNet.CoroutineServer
import Mathlib.Algebra.Order.BigOperators.Group.Finset

set_option autoImplicit false

namespace BoostNet.CoroutineServer

open LogicStop (Watched)
open SendPipeline (Message)
open SendRead (Built)
open SendRead.coroutineServer (Start Start_rest_lt)

/-! ## What is left to do -/

/-- How many steps a thread takes at most in `Send` or `HandleWrite`, with the handler of the write
that it starts. -/
def pcRank : SendPipeline.Pc → Nat
  | .send_lock _ => 15
  | .send_que_size _ => 14
  | .push _ => 13
  | .handle_lock => 2
  | .pop => 1
  | .front => 6
  | .unlock_write _ => 5
  | .async_write _ => 4
  | .unlock => 1
  | .idle => 0

def pipeRank (s : SendPipeline.Sys Thread) : Nat :=
  pcRank (s.pc .worker) + pcRank (s.pc .io) + 6 * s.send_que.length + 3 * s.writes.length

/-- How many steps a post has left, with those of the worker that it wakes. -/
def postRank {M : Type*} : LogicStop.Post M → Nat
  | .lock _ => 49
  | .push _ => 48
  | .unlock_notify => 24
  | .notify => 23
  | .unlock => 1
  | .idle => 0

/-- How many steps the worker takes until it sleeps, where nothing is queued. -/
def workerRank {M : Type*} (sending : Bool) : LogicStop.Worker M → Nat
  | .unlock => 22
  | .lock | .woken => 21
  | .empty => 20
  | .b_stop => 19
  | .front _ => 18
  | .callback _ _ => if sending then 1 else 17
  | .load_stop => 2
  | .block => 1
  | .pop _ | .blocked | .exit | .exited => 0

section Parts

variable {s t : SendPipeline.Sys Thread}

/-- A step of a thread. -/
theorem pipeRank_run {th : Thread} (hstep : s.run .coroutineServer th = some t)
    (hfails : s.fails .coroutineServer th = false) : pipeRank t < pipeRank s := by
  have hother : ∀ th', th' ≠ th → t.pc th' = s.pc th' :=
    fun th' hne => SendPipeline.run_pc_of_ne hstep hne
  have hself : pcRank (t.pc th) + 6 * t.send_que.length + 3 * t.writes.length <
      pcRank (s.pc th) + 6 * s.send_que.length + 3 * s.writes.length := by
    unfold SendPipeline.Sys.run at hstep
    unfold SendPipeline.Sys.fails at hfails
    cases hpc : s.pc th <;> simp only [hpc] at hstep hfails
    case idle => cases hstep
    case send_lock m | handle_lock =>
      split at hstep <;> cases hstep
      dsimp only
      rw [SendPipeline.goto_self, pcRank, pcRank]
      show _ + 6 * s.send_que.length + 3 * s.writes.length < _
      omega
    case send_que_size m =>
      cases hstep
      rw [SendPipeline.goto_self]
      show _ + 6 * s.send_que.length + 3 * s.writes.length < _
      split <;> simp only [pcRank] <;> omega
    case push m =>
      split at hstep
      next n hm =>
        cases hstep
        dsimp only
        rw [SendPipeline.goto_self, List.length_append]
        show _ + 6 * (s.send_que.length + 1) + 3 * s.writes.length < _
        split <;> simp only [pcRank] <;> omega
      next hm =>
        rw [hm] at hfails
        cases hfails
      next => cases hstep
    case pop =>
      split at hstep
      next => cases hstep
      next n rest hque =>
        cases hstep
        dsimp only
        rw [SendPipeline.goto_self, hque, List.length_cons]
        show _ + 6 * rest.length + 3 * s.writes.length < _
        split <;> simp only [pcRank] <;> omega
    case front =>
      split at hstep <;> cases hstep
      rw [SendPipeline.goto_self, pcRank, pcRank]
      show 5 + 6 * s.send_que.length + 3 * s.writes.length < _
      omega
    case async_write n =>
      cases hstep
      dsimp only
      rw [SendPipeline.goto_self, List.length_append, pcRank, pcRank]
      show 0 + 6 * s.send_que.length + 3 * (s.writes.length + 1) < _
      omega
    case unlock_write n | unlock =>
      cases hstep
      dsimp only
      rw [SendPipeline.goto_self, pcRank, pcRank]
      show _ + 6 * s.send_que.length + 3 * s.writes.length < _
      omega
  cases th with
  | worker =>
      rw [pipeRank, pipeRank, hother .io Thread.noConfusion]
      omega
  | io =>
      rw [pipeRank, pipeRank, hother .worker Thread.noConfusion]
      omega

/-- A message more costs at most the steps of its call and its write. -/
theorem pipeRank_call {m : Message} (hstep : s.step .coroutineServer (.call .worker m) = some t) :
    pipeRank t = pipeRank s + 15 := by
  obtain ⟨hidle, rfl⟩ := SendPipeline.call_spec hstep
  rw [pipeRank, pipeRank, SendPipeline.goto_self, SendPipeline.goto_of_ne Thread.noConfusion, hidle,
    pcRank, pcRank]
  show 15 + _ + 6 * s.send_que.length + 3 * s.writes.length = _
  omega

/-- A handler ends, or starts a write of the next message; both are cheaper than what they end. -/
theorem pipeRank_complete {n : Nat} {error : Bool}
    (hstep : s.step .coroutineServer (.complete .io n error) = some t) :
    pipeRank t < pipeRank s := by
  obtain ⟨hidle, -, hpc, hque, hwrites⟩ := SendPipeline.complete_spec hstep
  have hself : pcRank (t.pc .io) ≤ 2 := by
    rw [hpc, Function.update_self]
    cases error <;> simp only [pcRank, Bool.false_eq_true, if_false, if_true] <;> omega
  have hworker : t.pc .worker = s.pc .worker := by
    rw [hpc, Function.update_of_ne Thread.noConfusion]
  rw [pipeRank, pipeRank, hworker, hque]
  omega

end Parts

section Logic

variable {ι κ : Type*} [DecidableEq κ] {w u : Watched κ (LogicNode ι)}

/-- What is left for the worker. -/
def logicRank (sending : Bool) (s : LogicStop.Sys κ (LogicNode ι)) : Nat :=
  workerRank sending s.worker + 23 * s.msg_que.length

omit [DecidableEq κ] in
/-- A notification costs the worker one more look at the queue. -/
theorem workerRank_notified (sending : Bool) (p : LogicStop.Worker (LogicNode ι)) :
    workerRank sending p.notified ≤ workerRank sending p + 21 := by
  cases p <;> simp only [LogicStop.Worker.notified, workerRank] <;> omega

omit [DecidableEq κ] in
/-- A step of the worker, outside a callback or when the callback returns. -/
theorem logicRank_dealMsg {s t : LogicStop.Sys κ (LogicNode ι)} {sending : Bool}
    (hrunning : LogicStop.Running .coroutineServer s)
    (hcalling : s.worker.calling ≠ none → sending = true)
    (hdeal : s.dealMsg (fun n => n.recvNode.registered) = some t) :
    logicRank false t < logicRank sending s := by
  have hproceeds := hrunning.proceeds
  unfold LogicStop.Sys.dealMsg at hdeal
  rw [logicRank, logicRank]
  cases hpc : s.worker <;> simp only [hpc, reduceCtorEq] at hdeal <;>
    rw [hpc] at hproceeds hcalling
  case lock | woken =>
    split at hdeal <;> cases hdeal
    simp only [workerRank]
    omega
  case empty =>
    cases hdeal
    dsimp only
    split <;> simp only [workerRank] <;> omega
  case load_stop =>
    cases hdeal
    rw [if_neg (by rw [hrunning.b_stop]; exact Bool.false_ne_true)]
    simp only [workerRank]
    omega
  case front drain =>
    obtain ⟨-, hne⟩ := hproceeds
    obtain ⟨msg, rest, hcons⟩ := List.exists_cons_of_ne_nil hne
    rw [hcons] at hdeal
    cases hdeal
    dsimp only
    rw [hcons]
    split <;> simp only [workerRank, Bool.false_eq_true, if_false] <;> omega
  case callback drain msg =>
    rw [hcalling (Option.some_ne_none _)]
    cases hdeal
    simp only [workerRank, if_true]
    omega
  case pop drain =>
    obtain ⟨rfl, hne⟩ := hproceeds
    obtain ⟨msg, rest, hcons⟩ := List.exists_cons_of_ne_nil hne
    cases hdeal
    dsimp only
    rw [hcons, List.tail_cons, List.length_cons]
    simp only [workerRank, Bool.false_eq_true, if_false]
    omega
  case exit => exact hproceeds.elim
  all_goals
    cases hdeal
    simp only [workerRank]
    omega

/-- A step of a post. -/
theorem postRank_post {s t : LogicStop.Sys κ (LogicNode ι)} {k : κ} (sending : Bool)
    (hstep : s.postMsgToQue .coroutineServer k = some t) :
    postRank (t.posts k) + logicRank sending t < postRank (s.posts k) + logicRank sending s := by
  have hgoto : ∀ p, (s.goto k p).posts k = p := fun p => Function.update_self ..
  unfold LogicStop.Sys.postMsgToQue at hstep
  rw [logicRank, logicRank]
  cases hpc : s.posts k <;> simp only [hpc, reduceCtorEq] at hstep
  case lock msg =>
    split at hstep <;> cases hstep
    dsimp only
    rw [hgoto, postRank, postRank]
    exact Nat.lt_of_lt_of_eq (Nat.lt_succ_self _) (by simp only [LogicStop.Sys.goto]; omega)
  case push msg =>
    cases hstep
    dsimp only
    rw [hgoto, List.length_append]
    simp only [LogicStop.Sys.goto, List.length_singleton]
    split <;> simp only [postRank] <;> omega
  case notify =>
    cases hstep
    have hle := workerRank_notified sending s.worker
    dsimp only
    rw [hgoto]
    simp only [LogicStop.Sys.goto, postRank]
    omega
  case unlock_notify | unlock =>
    cases hstep
    dsimp only
    rw [hgoto]
    simp only [LogicStop.Sys.goto, postRank]
    omega

end Logic

section Rank

variable {ι κ : Type*} [Fintype ι] [Fintype κ]

/-- How many steps are left, where nothing arrives. -/
def Sys.rank (s : Sys ι κ) : Nat :=
  ∑ i, 50 * (s.unread i).length + ∑ i, (if s.ended i then 0 else 1) +
    ∑ i, pipeRank (s.session i) + ∑ k, postRank (s.logic.sys.posts k) +
    logicRank s.sending s.logic.sys + if s.gone then 0 else 1

/-- What arrives, and a spurious wakeup, is dealt with in so many steps. -/
def Action.cost : Action ι κ → Nat
  | .deliver _ bytes => 50 * bytes.length + 1
  | .spurious => 22
  | .hangup _ | .read _ | .complete _ _ _ | .io _ | .worker => 0

variable [DecidableEq ι] [DecidableEq κ] {json : List Byte → Option (List Byte × Int)}
  {home : ι → κ} {s t : Sys ι κ} {i : ι}

omit [Fintype κ] [DecidableEq κ] in
/-- A step of one session leaves the others' ranks as they are. -/
theorem sum_pipeRank (p : SendPipeline.Sys Thread) :
    ∑ j, pipeRank (Function.update s.session i p j) + pipeRank (s.session i) =
      ∑ j, pipeRank (s.session j) + pipeRank p :=
  sum_update pipeRank s.session p (Finset.mem_univ i)

omit [Fintype κ] [DecidableEq κ] in
/-- The same for the bytes that are to be read. -/
theorem sum_unread (bytes : List Byte) :
    ∑ j, 50 * (Function.update s.unread i bytes j).length + 50 * (s.unread i).length =
      ∑ j, 50 * (s.unread j).length + 50 * bytes.length :=
  sum_update (fun l : List Byte => 50 * l.length) s.unread bytes (Finset.mem_univ i)

omit [Fintype κ] [DecidableEq κ] in
/-- A session ends once. -/
theorem sum_ended (hended : s.ended i = false) :
    ∑ j, (if Function.update s.ended i true j then 0 else 1) + 1 =
      ∑ j, if s.ended j then 0 else 1 := by
  have hsum := sum_update (fun b : Bool => if b then 0 else 1) s.ended true (Finset.mem_univ i)
  rw [hended] at hsum
  exact hsum

omit [Fintype ι] [DecidableEq ι] in
/-- And for the threads that post. -/
theorem sum_postRank {w : Watched κ (LogicNode ι)} {k : κ}
    {posts : κ → LogicStop.Post (LogicNode ι)}
    (hother : ∀ j, j ≠ k → posts j = w.sys.posts j) :
    ∑ j, postRank (posts j) + postRank (w.sys.posts k) =
      ∑ j, postRank (w.sys.posts j) + postRank (posts k) := by
  have hposts : posts = Function.update w.sys.posts k (posts k) :=
    funext (forall_update_at (P := fun j p => posts j = p) rfl hother)
  have hsum := sum_update postRank w.sys.posts (posts k) (Finset.mem_univ k)
  rwa [← hposts] at hsum

/-- A coroutine that starts will not start again. -/
theorem rank_start (hgone : s.gone = false) (hstep : s.start home i = some t) :
    t.rank < s.rank := by
  unfold Sys.start at hstep
  split at hstep
  next hio hended =>
    cases hstart : Start (s.unread i) with
    | message msg_id body rest =>
        rw [hstart] at hstep
        obtain ⟨logic, hcall, rfl⟩ := Option.map_eq_some_iff.mp hstep
        obtain ⟨hidle, rfl⟩ := LogicStop.call_spec hcall
        have hshorter := Start_rest_lt hstart
        have hunread := sum_unread (s := s) (i := i) rest
        have hposts := sum_update postRank s.logic.sys.posts
          (.lock (⟨i, msg_id, body⟩ : LogicNode ι)) (Finset.mem_univ (home i))
        rw [hidle, postRank, postRank] at hposts
        simp only [Sys.rank, logicRank, LogicStop.Sys.goto]
        omega
    | error =>
        rw [hstart] at hstep
        cases hstep
    | invalid | closed | thrown =>
        rw [hstart] at hstep
        obtain rfl := Option.some.inj hstep
        have hsum := sum_ended hended
        simp only [Sys.rank]
        omega
    | undefined =>
        rw [hstart] at hstep
        obtain rfl := Option.some.inj hstep
        simp only [Sys.rank, hgone, Bool.false_eq_true, if_false, if_true]
        omega
  next => cases hstep

/-- A thread of the `io_context` works something off. -/
theorem rank_runIo (h : Inv json home s) {k : κ} (hstep : s.runIo k = some t) :
    t.rank < s.rank := by
  unfold Sys.runIo at hstep
  split at hstep
  next => cases hstep
  next hio =>
    obtain ⟨logic, hpost, rfl⟩ := Option.map_eq_some_iff.mp hstep
    obtain ⟨-, hother, -⟩ := LogicStop.post_spec hpost
    obtain ⟨sys, hsys, rfl⟩ := Option.map_eq_some_iff.mp hpost
    have hlt := postRank_post s.sending hsys
    have hsum := sum_postRank hother
    dsimp only at hsum
    simp only [Sys.rank]
    omega
  next i hio =>
    obtain ⟨p, hrun, rfl⟩ := Option.map_eq_some_iff.mp hstep
    have hlt := pipeRank_run hrun (not_fails (h.replies.io i))
    have hsum := sum_pipeRank (s := s) (i := i) p
    simp only [Sys.rank]
    omega

/-- So does the worker, as it pops a message or goes to sleep. -/
theorem rank_runWorker (h : Inv json home s) (hgone : s.gone = false)
    (hstep : s.runWorker json = some t) : t.rank < s.rank := by
  have hdie : Sys.rank { s with gone := true } < s.rank := by
    simp only [Sys.rank, hgone, Bool.false_eq_true, if_false, if_true]
    omega
  have hdeal : ∀ {logic : Watched κ (LogicNode ι)},
      (logicSystem ι κ).step s.logic .worker = some logic →
      (s.logic.sys.worker.calling ≠ none → s.sending = true) →
      Sys.rank { s with logic, sending := false } < s.rank := by
    intro logic hworker hsending
    obtain ⟨hdealt, -⟩ := LogicStop.worker_spec hworker
    obtain ⟨hposts, -, -⟩ := LogicStop.dealMsg_cases hdealt
    have hlt := logicRank_dealMsg h.running hsending hdealt
    simp only [Sys.rank, hposts]
    omega
  unfold Sys.runWorker at hstep
  split at hstep
  next hcalling =>
    obtain ⟨logic, hworker, rfl⟩ := Option.map_eq_some_iff.mp hstep
    have hsending : s.sending = false := by
      by_contra hnot
      exact h.replies.callback ((Bool.not_eq_false _).mp hnot) hcalling
    have hlt := hdeal hworker fun hne => absurd hcalling hne
    rwa [← hsending] at hlt
  next msg hcalling =>
    split at hstep
    next hsending =>
      split at hstep
      next =>
        obtain ⟨logic, hworker, rfl⟩ := Option.map_eq_some_iff.mp hstep
        exact hdeal hworker fun _ => hsending
      next =>
        unfold Sys.send at hstep
        split at hstep
        next =>
          obtain rfl := Option.some.inj hstep
          exact hdie
        next hfails =>
          obtain ⟨p, hrun, rfl⟩ := Option.map_eq_some_iff.mp hstep
          have hlt := pipeRank_run hrun (Bool.not_eq_true _ ▸ hfails)
          have hsum := sum_pipeRank (s := s) (i := msg.session) p
          simp only [Sys.rank]
          omega
    next hsending =>
      split at hstep
      next =>
        obtain rfl := Option.some.inj hstep
        exact hdie
      next m hm =>
        obtain ⟨p, hcall, rfl⟩ := Option.map_eq_some_iff.mp hstep
        have hrank := pipeRank_call hcall
        have hsum := sum_pipeRank (s := s) (i := msg.session) p
        have hcallback : logicRank true s.logic.sys + 16 = logicRank s.sending s.logic.sys := by
          rw [logicRank, logicRank, Bool.eq_false_of_not_eq_true hsending]
          cases hpc : s.logic.sys.worker <;> rw [hpc] at hcalling <;> cases hcalling
          simp only [workerRank, Bool.false_eq_true, if_false, if_true]
          omega
        simp only [Sys.rank]
        omega

/-- Only what comes from outside can add to the rank, by its cost. -/
theorem rank_step (h : Inv json home s) {a : Action ι κ}
    (hstep : (server json home).step s a = some t) : t.rank < s.rank + a.cost := by
  change (if s.gone then none else s.step json home a) = some t at hstep
  split at hstep
  next => cases hstep
  next hgone =>
    rw [Bool.not_eq_true] at hgone
    cases a with
    | deliver i bytes =>
        obtain rfl := Option.some.inj hstep
        have hsum := sum_unread (s := s) (i := i) (s.unread i ++ bytes)
        rw [List.length_append] at hsum
        simp only [Sys.rank, Action.cost]
        omega
    | hangup i =>
        dsimp only [Sys.step] at hstep
        split at hstep
        next hio hended =>
          obtain rfl := Option.some.inj hstep
          have hsum := sum_ended hended
          simp only [Sys.rank, Action.cost]
          omega
        next => cases hstep
    | read i => exact rank_start hgone hstep
    | complete i n error =>
        dsimp only [Sys.step] at hstep
        split at hstep
        next hio =>
          obtain ⟨p, hcomplete, rfl⟩ := Option.map_eq_some_iff.mp hstep
          have hlt := pipeRank_complete hcomplete
          have hsum := sum_pipeRank (s := s) (i := i) p
          simp only [Sys.rank, Action.cost]
          omega
        next => cases hstep
    | io k => exact rank_runIo h hstep
    | worker => exact rank_runWorker h hgone hstep
    | spurious =>
        obtain ⟨logic, hspurious, rfl⟩ := Option.map_eq_some_iff.mp hstep
        obtain ⟨-, hposts, -⟩ := LogicStop.spurious_spec hspurious
        obtain ⟨sys, hsys, rfl⟩ := Option.map_eq_some_iff.mp hspurious
        have hlt : logicRank s.sending sys ≤ logicRank s.sending s.logic.sys + 21 := by
          cases hpc : s.logic.sys.worker <;>
            simp only [LogicStop.Sys.step, hpc, reduceCtorEq, Option.some.injEq] at hsys
          subst hsys
          simp only [logicRank, hpc, workerRank]
          omega
        dsimp only at hposts
        simp only [Sys.rank, Action.cost, hposts]
        omega

/-- **The server comes to rest.** A run has at most 50 steps for each byte that arrives, one for
each delivery, 22 for each spurious wakeup, one for each session, and 22 more. -/
theorem comes_to_rest {as : List (Action ι κ)}
    (hrun : (server json home).exec (server json home).init as = some s) :
    as.length ≤ Fintype.card ι + 22 + Lts.total Action.cost as := by
  have hinit : (server json home).init.rank = Fintype.card ι + 22 := by
    simp [server, Sys.rank, pipeRank, pcRank, postRank, logicRank, workerRank]
  rw [← hinit]
  refine (Nat.le_add_right _ s.rank).trans ?_
  exact (server json home).length_le_of_cost (P := Inv json home) Sys.rank Action.cost
    (fun _ a _ hs ht => ⟨hs.step a ht, rank_step hs ht⟩) .init hrun

theorem comes_to_rest_exchange :
    exchange.length ≤ Fintype.card Unit + 22 + Lts.total Action.cost exchange :=
  comes_to_rest exchanged_run

end Rank

end BoostNet.CoroutineServer
