/-
What `LogicSystem` makes of the posted messages, in Network/asyncServer,
Network/asyncServer_ThreadPool and Network/coroutineServer: each is dispatched once, in the
order of the pushes, and no post is forgotten.

The model is that of the shutdown (`LogicStop`), with two histories: what has been pushed,
and what had been pushed when the worker last acquired `_mutex`. The worker holds `_mutex`
from there to the end of its iteration, the callback included, so a message that is being
dealt with is at the front of a queue that nobody else changes.

`PostMsgToQue` notifies when its push makes the size one. A worker that blocks has seen
the queue empty, under `_mutex`; the push that fills it again is one that notifies, and as
long as it has not, its post is in progress.

* `dispatched_in_order`: what was called, what is queued and the wakeups, after any run.
-/
import BoostNet.LogicStop
import BoostNet.Threads

set_option autoImplicit false

namespace BoostNet.LogicStop

variable {ι M : Type*}

/-! ## The histories -/

/-- The system, and what has been pushed. `seen` is what had been pushed when the worker
last acquired `_mutex`. -/
structure Watched (ι M : Type*) where
  sys : Sys ι M := {}
  posted : List M := []
  seen : List M := []

/-- The message that the step pushes. -/
def Action.pushes (s : Sys ι M) : Action ι M → Option M
  | .post i =>
      match s.posts i with
      | .push msg => some msg
      | _ => none
  | .call _ _ | .worker | .destructor | .spurious => none

/-- The step is the worker's, and acquires `_mutex`. -/
def Action.acquires (s : Sys ι M) : Action ι M → Bool
  | .worker =>
      match s.worker with
      | .lock | .woken => true
      | _ => false
  | .call _ _ | .post _ | .destructor | .spurious => false

def watched (server : Server) (registered : M → Bool) (ι : Type*) [DecidableEq ι] :
    Lts (Watched ι M) (Action ι M) where
  init := {}
  step w a := (w.sys.step server registered a).map fun s => {
    sys := s
    posted := w.posted ++ (a.pushes w.sys).toList
    seen := if a.acquires w.sys then w.posted else w.seen }

/-- What is queued and not dealt with yet. Before its `pop` the front is. -/
def Worker.pending (msg_que : List M) : Worker M → List M
  | .pop _ => msg_que.tail
  | _ => msg_que

/-- What should hold of the messages and of the worker. -/
structure Dispatched (registered : M → Bool) (w : Watched ι M) : Prop where
  /-- The callbacks of the pushed messages are called in the order of the pushes, each
  once. -/
  in_order : w.sys.calls <+: w.posted.filter registered
  /-- The others are still queued. -/
  none_lost : w.sys.calls ++ (w.sys.worker.pending w.sys.msg_que).filter registered =
    w.posted.filter registered
  /-- Before it exits the worker deals with all that was pushed before it acquired
  `_mutex`. -/
  drained : w.sys.worker = .exited → w.sys.calls = w.seen.filter registered
  /-- A worker that is blocked, with messages queued, is going to be notified by a post. -/
  no_lost_wakeup : w.sys.msg_que ≠ [] → w.sys.worker = .blocked →
    ∃ i, w.sys.posts i ≠ .idle

/-! ## The invariant -/

/-- The worker holds `_mutex`. -/
def Worker.locked : Worker M → Bool
  | .lock | .blocked | .woken | .exited => false
  | .empty | .load_stop | .block | .b_stop | .front _ | .callback _ _ | .pop _ | .unlock
  | .exit => true

/-- The post holds `_mutex`. -/
def Post.locked (server : Server) : Post M → Bool
  | .idle | .lock _ => false
  | .push _ | .unlock_notify | .unlock => true
  | .notify => server == .coroutineServer

/-- Only asyncServer releases `_mutex` before it notifies. -/
def Post.Releases (server : Server) (p : Post M) : Prop :=
  p = .unlock_notify → server = .asyncServer

/-- What the worker knows of the queue, as it holds `_mutex`. -/
def Worker.Knows (registered : M → Bool) (msg_que : List M) : Worker M → Prop
  | .load_stop | .block | .exit => msg_que = []
  | .callback _ msg => registered msg = true ∧ ∃ rest, msg_que = msg :: rest
  | .lock | .empty | .blocked | .woken | .b_stop | .front _ | .pop _ | .unlock | .exited => True

structure DispatchInv (server : Server) (registered : M → Bool) (w : Watched ι M) : Prop where
  worker : w.sys.worker.locked = true → w.sys.mutex = some .worker
  posts : ∀ i, (w.sys.posts i).locked server = true → w.sys.mutex = some (.post i)
  releases : ∀ i, (w.sys.posts i).Releases server
  knows : w.sys.worker.Knows registered w.sys.msg_que
  history : w.sys.calls ++ (w.sys.worker.pending w.sys.msg_que).filter registered =
    w.posted.filter registered
  seen : w.sys.worker.locked = true → w.posted = w.seen
  exited : w.sys.worker = .exited → w.sys.calls = w.seen.filter registered
  wakeup : w.sys.msg_que ≠ [] → w.sys.worker = .blocked → ∃ i, (w.sys.posts i).notifying = true

variable {server : Server} {registered : M → Bool} {w : Watched ι M} {s t : Sys ι M} {i : ι}

theorem DispatchInv.dispatched (h : DispatchInv server registered w) : Dispatched registered w where
  in_order := ⟨_, h.history⟩
  none_lost := h.history
  drained := h.exited
  no_lost_wakeup := by
    intro hne hblocked
    obtain ⟨i, hi⟩ := h.wakeup hne hblocked
    refine ⟨i, fun hidle => ?_⟩
    rw [hidle] at hi
    cases hi

/-- A step of the worker inside `_mutex` to `p`. -/
theorem DispatchInv.deal (h : DispatchInv server registered w)
    (hlocked : w.sys.worker.locked = true) {p : Worker M} {mutex : Option (Holder ι)}
    {msg_que calls : List M} (hmutex : p.locked = true → mutex = w.sys.mutex)
    (hknows : p.Knows registered msg_que)
    (hhistory : calls ++ (p.pending msg_que).filter registered =
      w.sys.calls ++ (w.sys.worker.pending w.sys.msg_que).filter registered)
    (hempty : p = .exited ∨ p = .blocked → msg_que = []) :
    DispatchInv server registered
      { w with sys := { w.sys with
          worker := p, mutex := mutex, msg_que := msg_que, calls := calls } } where
  worker hp := (hmutex hp).trans (h.worker hlocked)
  posts := by
    -- the mutex is the worker's, so no post is inside it
    intro i hi
    have hholder := (h.posts i hi).symm.trans (h.worker hlocked)
    cases hholder
  releases := h.releases
  knows := hknows
  history := hhistory.trans h.history
  seen _ := h.seen hlocked
  exited := by
    intro hp
    have hp : p = .exited := hp
    have hall := hhistory.trans h.history
    rw [hempty (Or.inl hp), hp, h.seen hlocked] at hall
    exact (List.append_nil _).symm.trans hall
  wakeup hne hp := absurd (hempty (Or.inr hp)) hne

/-- The worker acquires `_mutex`. -/
theorem DispatchInv.acquire (h : DispatchInv server registered w)
    (hpc : w.sys.worker = .lock ∨ w.sys.worker = .woken) (hmutex : w.sys.mutex = none) :
    DispatchInv server registered
      { w with
        sys := { w.sys with worker := .empty, mutex := some .worker }
        seen := w.posted } where
  worker _ := rfl
  posts := by
    intro i hi
    have hholder := (h.posts i hi).symm.trans hmutex
    cases hholder
  releases := h.releases
  knows := trivial
  history := by
    have hhistory := h.history
    rcases hpc with hpc | hpc <;> rw [hpc] at hhistory <;> exact hhistory
  seen _ := rfl
  exited := by
    intro hp
    cases hp
  wakeup := by
    intro _ hp
    cases hp

/-- A step of the worker inside `_mutex` keeps the invariant. -/
theorem DispatchInv.inside (h : DispatchInv server registered w)
    (hlocked : w.sys.worker.locked = true) (hstep : w.sys.dealMsg registered = some t) :
    DispatchInv server registered { w with sys := t } := by
  have hknows := h.knows
  unfold Sys.dealMsg at hstep
  cases hpc : w.sys.worker with
  | lock | woken | blocked | exited =>
      rw [hpc] at hlocked
      cases hlocked
  | empty =>
      cases hmsgs : w.sys.msg_que with
      | nil =>
          simp only [hpc, hmsgs, List.isEmpty_nil, if_true, Option.some.injEq] at hstep
          subst hstep
          refine h.deal hlocked (fun _ => rfl) rfl ?_ (fun _ => rfl)
          rw [hpc, hmsgs]
          rfl
      | cons msg rest =>
          simp only [hpc, hmsgs, List.isEmpty_cons, Bool.false_eq_true, if_false,
            Option.some.injEq] at hstep
          subst hstep
          refine h.deal hlocked (fun _ => rfl) trivial ?_ (by rintro (hp | hp) <;> cases hp)
          rw [hpc, hmsgs]
          rfl
  | load_stop =>
      rw [hpc] at hknows
      simp only [hpc, Option.some.injEq] at hstep
      subst hstep
      -- the queue is empty, and stays so as long as `_mutex` is held
      refine h.deal hlocked (fun _ => rfl) ?_ ?_ (fun _ => hknows)
      · split
        · trivial
        · exact hknows
      · rw [hpc]
        split <;> rfl
  | block =>
      rw [hpc] at hknows
      simp only [hpc, Option.some.injEq] at hstep
      subst hstep
      refine h.deal hlocked (by rintro ⟨⟩) trivial ?_ (fun _ => hknows)
      rw [hpc]
      rfl
  | b_stop =>
      simp only [hpc, Option.some.injEq] at hstep
      subst hstep
      refine h.deal hlocked (fun _ => rfl) trivial ?_ (by rintro (hp | hp) <;> cases hp)
      rw [hpc]
      rfl
  | front drain =>
      cases hmsgs : w.sys.msg_que with
      | nil =>
          simp only [hpc, hmsgs, Option.ite_none_right_eq_some, Option.some.injEq] at hstep
          obtain ⟨-, rfl⟩ := hstep
          refine h.deal hlocked (fun _ => rfl) rfl ?_ (fun _ => rfl)
          rw [hpc, hmsgs]
          rfl
      | cons msg rest =>
          simp only [hpc, hmsgs, Option.some.injEq] at hstep
          subst hstep
          by_cases hreg : registered msg = true
          · rw [if_pos hreg]
            refine h.deal hlocked (fun _ => rfl) ⟨hreg, rest, rfl⟩ ?_
              (by rintro (hp | hp) <;> cases hp)
            rw [hpc, hmsgs]
            rfl
          · -- the message has no callback and is dropped
            rw [if_neg hreg]
            refine h.deal hlocked (fun _ => rfl) trivial ?_ (by rintro (hp | hp) <;> cases hp)
            rw [hpc, hmsgs]
            show _ ++ rest.filter registered = _ ++ (msg :: rest).filter registered
            rw [List.filter_cons_of_neg hreg]
  | callback drain msg =>
      rw [hpc] at hknows
      obtain ⟨hreg, rest, hmsgs⟩ := hknows
      simp only [hpc, Option.some.injEq] at hstep
      subst hstep
      refine h.deal hlocked (fun _ => rfl) trivial ?_ (by rintro (hp | hp) <;> cases hp)
      rw [hpc, hmsgs]
      show w.sys.calls ++ [msg] ++ rest.filter registered =
        w.sys.calls ++ (msg :: rest).filter registered
      rw [List.filter_cons_of_pos hreg, List.append_assoc]
      rfl
  | pop drain =>
      simp only [hpc, Option.some.injEq] at hstep
      subst hstep
      refine h.deal hlocked (fun _ => rfl) ?_ ?_ (by split <;> rintro (hp | hp) <;> cases hp)
      · split <;> trivial
      · rw [hpc]
        split <;> rfl
  | unlock =>
      simp only [hpc, Option.some.injEq] at hstep
      subst hstep
      refine h.deal hlocked (by rintro ⟨⟩) trivial ?_ (by rintro (hp | hp) <;> cases hp)
      rw [hpc]
      rfl
  | exit =>
      rw [hpc] at hknows
      simp only [hpc, Option.some.injEq] at hstep
      subst hstep
      refine h.deal hlocked (by rintro ⟨⟩) trivial ?_ (fun _ => hknows)
      rw [hpc]
      rfl

/-- A step of the worker keeps the invariant. -/
theorem dispatchInv_dealMsg (h : DispatchInv server registered w)
    (hstep : w.sys.dealMsg registered = some t) :
    DispatchInv server registered { w with
      sys := t
      seen := if (Action.worker : Action ι M).acquires w.sys then w.posted else w.seen } := by
  cases hpc : w.sys.worker with
  | lock | woken =>
      have hacquires : (Action.worker : Action ι M).acquires w.sys = true := by
        rw [Action.acquires, hpc]
      cases hmutex : w.sys.mutex <;>
        simp only [Sys.dealMsg, hpc, hmutex, reduceCtorEq, Option.some.injEq] at hstep
      subst hstep
      rw [hacquires]
      exact h.acquire (by simp [hpc]) hmutex
  | blocked | exited => simp only [Sys.dealMsg, hpc, reduceCtorEq] at hstep
  | _ =>
      have hacquires : (Action.worker : Action ι M).acquires w.sys = false := by
        rw [Action.acquires, hpc]
      rw [hacquires]
      exact h.inside (by rw [hpc]; rfl) hstep

/-! ### The posts -/

variable [DecidableEq ι]

/-- A step of a post to `p` that pushes nothing. -/
theorem DispatchInv.post (h : DispatchInv server registered w) {p : Post M}
    {mutex : Option (Holder ι)}
    (hworker : w.sys.worker.locked = true → mutex = some .worker)
    (hother : ∀ j, j ≠ i → (w.sys.posts j).locked server = true → mutex = some (.post j))
    (hlocked : p.locked server = true → mutex = some (.post i))
    (hreleases : p.Releases server)
    (hnotifying : w.sys.worker = .blocked → (w.sys.posts i).notifying = true →
      p.notifying = true) :
    DispatchInv server registered { w with sys := { w.sys.goto i p with mutex := mutex } } where
  worker := hworker
  posts := by
    intro j hj
    by_cases hji : j = i
    · rw [hji] at hj ⊢
      exact hlocked (by rwa [show (w.sys.goto i p).posts i = p from Function.update_self ..] at hj)
    · exact hother j hji
        (by rwa [show (w.sys.goto i p).posts j = _ from Function.update_of_ne hji ..] at hj)
  releases := forall_update (P := Post.Releases server) hreleases fun j _ => h.releases j
  knows := h.knows
  history := h.history
  seen := h.seen
  exited := h.exited
  wakeup := by
    intro hne hblocked
    obtain ⟨j, hj⟩ := h.wakeup hne hblocked
    refine ⟨j, ?_⟩
    by_cases hji : j = i
    · rw [hji, show (w.sys.goto i p).posts i = p from Function.update_self ..]
      exact hnotifying hblocked (hji ▸ hj)
    · rw [show (w.sys.goto i p).posts j = _ from Function.update_of_ne hji ..]
      exact hj

/-- The push of a post, and how it goes on. -/
theorem DispatchInv.push (h : DispatchInv server registered w) {msg : M} {p : Post M}
    (hpc : w.sys.posts i = .push msg) (hreleases : p.Releases server)
    (hnotifying : w.sys.msg_que = [] → p.notifying = true) :
    DispatchInv server registered { w with
      sys := { w.sys.goto i p with msg_que := w.sys.msg_que ++ [msg] }
      posted := w.posted ++ [msg] } := by
  have hmutex : w.sys.mutex = some (.post i) := h.posts i (by rw [hpc]; rfl)
  -- the mutex is the post's, so the worker is outside
  have houtside : w.sys.worker.locked = false := by
    by_contra hne
    have hholder := (h.worker (by simpa using hne)).symm.trans hmutex
    cases hholder
  refine ⟨h.worker, ?_,
    forall_update (P := Post.Releases server) hreleases fun j _ => h.releases j,
    ?_, ?_, ?_, h.exited, ?_⟩
  · intro j hj
    by_cases hji : j = i
    · rw [hji]
      exact hmutex
    · exact h.posts j
        (by rwa [show (w.sys.goto i p).posts j = _ from Function.update_of_ne hji ..] at hj)
  · show Worker.Knows registered (w.sys.msg_que ++ [msg]) w.sys.worker
    cases hw : w.sys.worker <;> rw [hw] at houtside <;> trivial
  · have hpending : ∀ q : List M, w.sys.worker.pending q = q := by
      intro q
      cases hw : w.sys.worker <;> rw [hw] at houtside <;> first | rfl | cases houtside
    have hhistory := h.history
    rw [hpending] at hhistory
    show w.sys.calls ++ (w.sys.worker.pending (w.sys.msg_que ++ [msg])).filter registered =
      (w.posted ++ [msg]).filter registered
    rw [hpending, List.filter_append, List.filter_append, ← List.append_assoc, hhistory]
  · intro hl
    have hl : w.sys.worker.locked = true := hl
    rw [houtside] at hl
    cases hl
  · intro _ hblocked
    by_cases hempty : w.sys.msg_que = []
    · -- the size becomes one, so this post notifies
      refine ⟨i, ?_⟩
      rw [show (w.sys.goto i p).posts i = p from Function.update_self ..]
      exact hnotifying hempty
    · obtain ⟨j, hj⟩ := h.wakeup hempty hblocked
      refine ⟨j, ?_⟩
      have hji : j ≠ i := by
        rintro rfl
        rw [hpc] at hj
        cases hj
      rw [show (w.sys.goto i p).posts j = _ from Function.update_of_ne hji ..]
      exact hj

omit [DecidableEq ι] in
theorem Worker.notified_ne_blocked (p : Worker M) : p.notified ≠ .blocked := by
  cases p <;> rintro ⟨⟩

omit [DecidableEq ι] in
/-- A notification keeps the invariant, and wakes the worker if it is blocked. -/
theorem DispatchInv.notified (h : DispatchInv server registered w) :
    DispatchInv server registered
      { w with sys := { w.sys with worker := w.sys.worker.notified } } := by
  by_cases hblocked : w.sys.worker = .blocked
  · have hwoken : w.sys.worker.notified = .woken := by
      rw [hblocked]
      rfl
    have hhistory := h.history
    rw [hblocked] at hhistory
    rw [hwoken]
    exact ⟨by rintro ⟨⟩, h.posts, h.releases, trivial, hhistory, by rintro ⟨⟩, by rintro ⟨⟩,
      by rintro _ ⟨⟩⟩
  · have hsame : w.sys.worker.notified = w.sys.worker := by
      cases hw : w.sys.worker <;> first | rfl | exact absurd hw hblocked
    rw [hsame]
    exact h

/-- A post that holds `_mutex` releases it, and goes on to `p`. -/
theorem DispatchInv.release (h : DispatchInv server registered w) {p : Post M}
    (hlocked : (w.sys.posts i).locked server = true) (hp : p.locked server = false)
    (hreleases : p.Releases server)
    (hnotifying : (w.sys.posts i).notifying = true → p.notifying = true) :
    DispatchInv server registered { w with sys := { w.sys.goto i p with mutex := none } } := by
  have hmutex := h.posts i hlocked
  refine h.post ?_ ?_ ?_ hreleases (fun _ => hnotifying)
  · intro hworker
    have hholder := (h.worker hworker).symm.trans hmutex
    cases hholder
  · intro j hji hj
    have hholder := (h.posts j hj).symm.trans hmutex
    cases hholder
    exact absurd rfl hji
  · intro hl
    rw [hp] at hl
    cases hl

/-- A step of a post keeps the invariant. -/
theorem dispatchInv_post (h : DispatchInv server registered w)
    (hstep : w.sys.postMsgToQue server i = some t) :
    DispatchInv server registered { w with
      sys := t
      posted := w.posted ++ ((Action.post i).pushes w.sys).toList } := by
  unfold Sys.postMsgToQue at hstep
  cases hpc : w.sys.posts i with
  | idle => simp only [hpc, reduceCtorEq] at hstep
  | lock msg =>
      cases hmutex : w.sys.mutex <;>
        simp only [hpc, hmutex, reduceCtorEq, Option.some.injEq] at hstep
      subst hstep
      -- nobody holds `_mutex`
      have hfree : ∀ {holder : Holder ι}, ¬ w.sys.mutex = some holder := by
        intro holder hholder
        rw [hmutex] at hholder
        cases hholder
      rw [Action.pushes, hpc, Option.toList_none, List.append_nil]
      refine h.post ?_ ?_ (fun _ => rfl) (by rintro ⟨⟩) ?_
      · intro hworker
        exact absurd (h.worker hworker) hfree
      · intro j _ hj
        exact absurd (h.posts j hj) hfree
      · intro _ hnotifying
        rw [hpc] at hnotifying
        cases hnotifying
  | push msg =>
      simp only [hpc, Option.some.injEq] at hstep
      subst hstep
      rw [Action.pushes, hpc, Option.toList_some]
      refine h.push hpc ?_ ?_
      · split
        · cases server
          · exact fun _ => rfl
          · rintro ⟨⟩
        · rintro ⟨⟩
      · intro hempty
        rw [hempty]
        cases server <;> rfl
  | unlock_notify =>
      simp only [hpc, Option.some.injEq] at hstep
      subst hstep
      rw [Action.pushes, hpc, Option.toList_none, List.append_nil]
      refine h.release (by rw [hpc]; rfl) ?_ (by rintro ⟨⟩) (fun _ => rfl)
      rw [h.releases i hpc]
      rfl
  | notify =>
      simp only [hpc, Option.some.injEq] at hstep
      subst hstep
      rw [Action.pushes, hpc, Option.toList_none, List.append_nil]
      -- asyncServer is done; coroutineServer still has to release `_mutex`
      refine h.notified.post h.notified.worker (fun j _ => h.posts j) ?_ ?_ ?_
      · intro hlocked
        cases server
        · cases hlocked
        · exact h.posts i (by rw [hpc]; rfl)
      · split <;> rintro ⟨⟩
      · intro hblocked
        exact absurd hblocked (Worker.notified_ne_blocked w.sys.worker)
  | unlock =>
      simp only [hpc, Option.some.injEq] at hstep
      subst hstep
      rw [Action.pushes, hpc, Option.toList_none, List.append_nil]
      exact h.release (by rw [hpc]; rfl) rfl (by rintro ⟨⟩) (by rw [hpc]; rintro ⟨⟩)

omit [DecidableEq ι] in
/-- A step of the destructor keeps the invariant. -/
theorem dispatchInv_destroy (h : DispatchInv server registered w)
    (hstep : w.sys.destroy = some t) :
    DispatchInv server registered { w with sys := t } := by
  unfold Sys.destroy at hstep
  cases hd : w.sys.destructor with
  | alive =>
      simp only [hd, Option.some.injEq] at hstep
      subst hstep
      exact ⟨h.worker, h.posts, h.releases, h.knows, h.history, h.seen, h.exited, h.wakeup⟩
  | notify =>
      simp only [hd, Option.some.injEq] at hstep
      subst hstep
      have hnotified := h.notified
      exact ⟨hnotified.worker, hnotified.posts, hnotified.releases, hnotified.knows,
        hnotified.history, hnotified.seen, hnotified.exited, hnotified.wakeup⟩
  | join =>
      simp only [hd] at hstep
      split at hstep <;> cases hstep
      exact ⟨h.worker, h.posts, h.releases, h.knows, h.history, h.seen, h.exited, h.wakeup⟩
  | joined => simp only [hd, reduceCtorEq] at hstep

/-! ## The runs -/

theorem dispatchInv_init :
    DispatchInv server registered (watched server registered ι : Lts (Watched ι M) _).init where
  worker := by rintro ⟨⟩
  posts := by rintro _ ⟨⟩
  releases := by rintro _ ⟨⟩
  knows := trivial
  history := rfl
  seen _ := rfl
  exited := by rintro ⟨⟩
  wakeup := by rintro _ ⟨⟩

/-- One case for each thread. A spurious wakeup is a notification nobody sent. -/
theorem dispatchInv_step {a : Action ι M} {u : Watched ι M}
    (hstep : (watched server registered ι).step w a = some u)
    (h : DispatchInv server registered w) : DispatchInv server registered u := by
  obtain ⟨t, ht, rfl⟩ := Option.map_eq_some_iff.mp hstep
  cases a with
  | call i msg =>
      cases hpc : w.sys.posts i <;>
        simp only [Sys.step, hpc, reduceCtorEq, Option.some.injEq] at ht
      subst ht
      rw [Action.pushes, Option.toList_none, List.append_nil]
      refine h.post h.worker (fun j _ => h.posts j) (by rintro ⟨⟩) (by rintro ⟨⟩) ?_
      rw [hpc]
      rintro _ ⟨⟩
  | post i => exact dispatchInv_post h ht
  | worker =>
      rw [Action.pushes, Option.toList_none, List.append_nil]
      exact dispatchInv_dealMsg h ht
  | destructor =>
      rw [Action.pushes, Option.toList_none, List.append_nil]
      exact dispatchInv_destroy h ht
  | spurious =>
      cases hpc : w.sys.worker <;>
        simp only [Sys.step, hpc, reduceCtorEq, Option.some.injEq] at ht
      subst ht
      have hnotified := h.notified
      rw [hpc] at hnotified
      rw [Action.pushes, Option.toList_none, List.append_nil]
      exact hnotified

/-- **The dispatch.** After any run of any number of posts, the worker and a stop, each
pushed message whose id is registered has been dispatched once, in the order of the
pushes, or is still queued; a worker that has exited has dealt with all it found when it last
acquired `_mutex`; and a blocked worker does not miss a message. -/
theorem dispatched_in_order (server : Server) (registered : M → Bool) (as : List (Action ι M)) :
    (watched server registered ι).Along (Dispatched registered)
      (watched server registered ι).init as :=
  (watched server registered ι).along_of_inv (fun _ => DispatchInv.dispatched)
    (fun _ _ _ h hstep => dispatchInv_step hstep h) dispatchInv_init

end BoostNet.LogicStop
