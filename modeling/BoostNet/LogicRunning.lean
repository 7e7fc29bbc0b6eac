/-
`LogicSystem` as long as it is not stopped: what each step does to the messages, and what holds
of a worker that never drains the queue. For those who put it together with other parts.

* `blocked_of_stuck`: where neither the worker nor a post can go on, the worker is blocked,
  nothing is queued and nobody posts.
-/
import BoostNet.LogicDispatch

set_option autoImplicit false

namespace BoostNet.LogicStop

variable {ι M : Type*}
variable {server : Server} {registered : M → Bool} {w u : Watched ι M} {s t : Sys ι M} {i : ι}

/-! ## What a step does -/

/-- The message of a post that has not pushed it yet. -/
def Post.carries : Post M → List M
  | .lock msg | .push msg => [msg]
  | .idle | .unlock_notify | .notify | .unlock => []

/-- The message whose callback is running. -/
def Worker.calling : Worker M → Option M
  | .callback _ msg => some msg
  | .lock | .empty | .load_stop | .block | .blocked | .woken | .b_stop | .front _ | .pop _ | .unlock
  | .exit | .exited => none

/-- Nothing is dispatched, and the worker is woken at most. -/
structure Apart (s t : Sys ι M) : Prop where
  calls : t.calls = s.calls
  b_stop : t.b_stop = s.b_stop
  worker : t.worker = s.worker ∨ s.worker = .blocked ∧ t.worker = .woken
  msg_que : s.msg_que <+: t.msg_que

/-- A notification wakes a worker that is asleep and does nothing else. -/
theorem Worker.notified_cases (p : Worker M) :
    p.notified = p ∨ p = .blocked ∧ p.notified = .woken := by
  cases p <;> first | exact Or.inl rfl | exact Or.inr ⟨rfl, rfl⟩

/-- What the worker does to the messages. -/
theorem dealMsg_cases (hstep : s.dealMsg registered = some t) :
    t.posts = s.posts ∧ t.b_stop = s.b_stop ∧
      (s.worker.calling = none ∧ t.calls = s.calls ∨
        ∃ msg, s.worker.calling = some msg ∧ t.calls = s.calls ++ [msg] ∧
          t.worker.calling = none) := by
  unfold Sys.dealMsg at hstep
  cases hpc : s.worker <;> simp only [hpc, reduceCtorEq] at hstep
  case callback drain msg =>
    cases hstep
    exact ⟨rfl, rfl, Or.inr ⟨msg, rfl, rfl, rfl⟩⟩
  case lock | woken =>
    split at hstep <;> cases hstep
    exact ⟨rfl, rfl, Or.inl ⟨rfl, rfl⟩⟩
  case front drain =>
    split at hstep
    · split at hstep <;> cases hstep
      exact ⟨rfl, rfl, Or.inl ⟨rfl, rfl⟩⟩
    · cases hstep
      exact ⟨rfl, rfl, Or.inl ⟨rfl, rfl⟩⟩
  all_goals
    cases hstep
    exact ⟨rfl, rfl, Or.inl ⟨rfl, rfl⟩⟩

/-- The message whose callback is running is the next one. -/
theorem DispatchInv.calls_prefix_posted (h : DispatchInv server registered w) :
    w.sys.calls ++ w.sys.worker.calling.toList <+: w.posted.filter registered := by
  have hknows := h.knows
  rw [← h.history, List.prefix_append_right_inj]
  cases hpc : w.sys.worker with
  | callback drain msg =>
      rw [hpc] at hknows
      obtain ⟨hreg, rest, hque⟩ := hknows
      rw [hque, Worker.pending, List.filter_cons_of_pos hreg]
      · exact List.prefix_append [msg] _
      · intro drain' hpop
        cases hpop
  | _ => exact List.nil_prefix

/-- Only a registered message has a callback to be called. -/
theorem DispatchInv.registered_of_calling (h : DispatchInv server registered w) {msg : M}
    (hcalling : w.sys.worker.calling = some msg) : registered msg = true := by
  have hknows := h.knows
  cases hpc : w.sys.worker <;> rw [hpc] at hcalling hknows <;> cases hcalling
  exact hknows.1

variable [DecidableEq ι]

/-- A poster that starts goes to the lock of the queue. -/
theorem call_spec {msg : M} (hstep : (watched server registered ι).step w (.call i msg) = some u) :
    w.sys.posts i = .idle ∧ u = { w with sys := w.sys.goto i (.lock msg) } := by
  obtain ⟨t, ht, rfl⟩ := Option.map_eq_some_iff.mp hstep
  cases hpc : w.sys.posts i <;> simp only [Sys.step, hpc, reduceCtorEq, Option.some.injEq] at ht
  subst ht
  exact ⟨rfl, by rw [Action.pushes, Option.toList_none, List.append_nil]; rfl⟩

/-- And it can always do so. -/
theorem call_of_idle {msg : M} (hidle : w.sys.posts i = .idle) :
    (watched server registered ι).step w (.call i msg) =
      some { w with sys := w.sys.goto i (.lock msg) } := by
  show (Sys.step server registered w.sys (.call i msg)).map _ = _
  rw [Sys.step, hidle, Option.map_some, Action.pushes, Option.toList_none, List.append_nil]
  rfl

/-- A step of a poster moves its own message on, and nobody else's. -/
theorem post_spec (hstep : (watched server registered ι).step w (.post i) = some u) :
    Apart w.sys u.sys ∧ (∀ j, j ≠ i → u.sys.posts j = w.sys.posts j) ∧
      u.posted ++ (u.sys.posts i).carries = w.posted ++ (w.sys.posts i).carries ∧
      (u.sys.posts i).carries ⊆ (w.sys.posts i).carries := by
  obtain ⟨t, ht, rfl⟩ := Option.map_eq_some_iff.mp hstep
  have hgoto : ∀ p, (w.sys.goto i p).posts i = p := fun p => Function.update_self ..
  have hother : ∀ p j, j ≠ i → (w.sys.goto i p).posts j = w.sys.posts j :=
    fun p j hj => Function.update_of_ne hj ..
  change w.sys.postMsgToQue server i = some t at ht
  unfold Sys.postMsgToQue at ht
  dsimp only
  rw [Action.pushes]
  cases hpc : w.sys.posts i <;> simp only [hpc, reduceCtorEq] at ht
  case lock msg =>
    split at ht <;> cases ht
    refine ⟨⟨rfl, rfl, Or.inl rfl, List.prefix_rfl⟩, hother _, ?_, ?_⟩ <;> dsimp only <;> rw [hgoto]
    · exact congrArg (· ++ _) (List.append_nil _)
    · exact List.Subset.refl _
  case push msg =>
    cases ht
    refine ⟨⟨rfl, rfl, Or.inl rfl, List.prefix_append ..⟩, hother _, ?_, ?_⟩ <;> dsimp only <;>
      rw [hgoto]
    · split
      · cases server <;> exact List.append_nil _
      · exact List.append_nil _
    · split
      · cases server <;> exact List.nil_subset _
      · exact List.nil_subset _
  case notify =>
    cases ht
    refine ⟨⟨rfl, rfl, Worker.notified_cases _, List.prefix_rfl⟩, hother _, ?_, ?_⟩ <;>
      dsimp only <;> rw [hgoto]
    · cases server <;> exact congrArg (· ++ _) (List.append_nil _)
    · cases server <;> exact List.nil_subset _
  case unlock_notify | unlock =>
    cases ht
    refine ⟨⟨rfl, rfl, Or.inl rfl, List.prefix_rfl⟩, hother _, ?_, ?_⟩ <;> dsimp only <;> rw [hgoto]
    · exact congrArg (· ++ _) (List.append_nil _)
    · exact List.nil_subset _

/-- A spurious wakeup moves no message. -/
theorem spurious_spec (hstep : (watched server registered ι).step w .spurious = some u) :
    Apart w.sys u.sys ∧ u.sys.posts = w.sys.posts ∧ u.posted = w.posted := by
  obtain ⟨t, ht, rfl⟩ := Option.map_eq_some_iff.mp hstep
  cases hpc : w.sys.worker <;> simp only [Sys.step, hpc, reduceCtorEq, Option.some.injEq] at ht
  subst ht
  refine ⟨⟨rfl, rfl, Or.inr ⟨hpc, rfl⟩, List.prefix_rfl⟩, rfl, ?_⟩
  exact List.append_nil _

/-- A step of the worker posts nothing. -/
theorem worker_spec (hstep : (watched server registered ι).step w .worker = some u) :
    w.sys.dealMsg registered = some u.sys ∧ u.posted = w.posted := by
  obtain ⟨t, ht, rfl⟩ := Option.map_eq_some_iff.mp hstep
  exact ⟨ht, List.append_nil _⟩

/-! ## A worker that is not stopped -/

omit [DecidableEq ι] in
/-- The holder of `_mutex` is inside it. -/
def Sys.Holds (server : Server) (s : Sys ι M) : Holder ι → Prop
  | .worker => s.worker.locked = true
  | .post i => (s.posts i).locked server = true

/-- The worker does not drain the queue, and from where it takes the front to its `pop` there is
one. -/
def Worker.Proceeds (msg_que : List M) : Worker M → Prop
  | .b_stop => msg_que ≠ []
  | .front drain | .callback drain _ | .pop drain => drain = false ∧ msg_que ≠ []
  | .exit | .exited => False
  | .lock | .empty | .load_stop | .block | .blocked | .woken | .unlock => True

structure Running (server : Server) (s : Sys ι M) : Prop where
  b_stop : s.b_stop = false
  proceeds : s.worker.Proceeds s.msg_que
  holder : ∀ holder, s.mutex = some holder → s.Holds server holder

omit [DecidableEq ι] in
/-- A notification takes no lock. -/
theorem Worker.locked_notified (p : Worker M) : p.notified.locked = p.locked := by
  cases p <;> rfl

omit [DecidableEq ι] in
/-- A worker that may go on may still do so when it is notified. -/
theorem Worker.Proceeds.notified {p : Worker M} {msg_que : List M} (h : p.Proceeds msg_que) :
    p.notified.Proceeds msg_que := by
  cases p <;> exact h

omit [DecidableEq ι] in
/-- And when the queue grows. -/
theorem Worker.Proceeds.push {p : Worker M} {msg_que : List M} (h : p.Proceeds msg_que) (msg : M) :
    p.Proceeds (msg_que ++ [msg]) := by
  have hne : msg_que ++ [msg] ≠ [] := List.append_ne_nil_of_right_ne_nil _ (List.cons_ne_nil _ _)
  cases p with
  | b_stop => exact hne
  | front _ | callback _ _ | pop _ => exact ⟨h.1, hne⟩
  | _ => exact h

omit [DecidableEq ι] in
/-- The worker goes on to `p` inside `_mutex`, or releases it. -/
theorem Running.deal (h : Running server s) {p : Worker M}
    {msg_que calls : List M} {mutex : Option (Holder ι)} (hp : p.Proceeds msg_que)
    (hworker : s.mutex = some .worker)
    (hmutex : mutex = none ∨ p.locked = true ∧ mutex = s.mutex) :
    Running server
      { s with worker := p, mutex := mutex, msg_que := msg_que, calls := calls } := by
  refine ⟨h.b_stop, hp, fun holder hholder => ?_⟩
  dsimp only at hholder
  rcases hmutex with hnone | ⟨hin, hsame⟩
  · rw [hnone] at hholder
    cases hholder
  · rw [hsame, hworker] at hholder
    cases hholder
    exact hin

omit [DecidableEq ι] in
/-- The worker sleeps only on an empty queue, which it has looked at under the lock. -/
theorem Running.dealMsg (h : Running server s) (hworker : s.worker.locked = true →
    s.mutex = some .worker) (hstep : s.dealMsg registered = some t) : Running server t := by
  have hproceeds := h.proceeds
  unfold Sys.dealMsg at hstep
  cases hpc : s.worker <;> simp only [hpc, reduceCtorEq] at hstep <;>
    rw [hpc] at hproceeds hworker
  case lock | woken =>
    split at hstep <;> cases hstep
    refine ⟨h.b_stop, trivial, fun holder hholder => ?_⟩
    cases hholder
    rfl
  case empty =>
    cases hstep
    split
    · exact h.deal trivial (hworker rfl) (Or.inr ⟨rfl, rfl⟩)
    · next hne =>
        exact h.deal (fun hnil => hne (List.isEmpty_iff.mpr hnil)) (hworker rfl) (Or.inr ⟨rfl, rfl⟩)
  -- `_b_stop` is false, so the worker blocks.
  case load_stop =>
    cases hstep
    rw [if_neg (by rw [h.b_stop]; exact Bool.false_ne_true)]
    exact h.deal trivial (hworker rfl) (Or.inr ⟨rfl, rfl⟩)
  case block | unlock =>
    cases hstep
    exact h.deal trivial (hworker rfl) (Or.inl rfl)
  case b_stop =>
    cases hstep
    exact h.deal ⟨h.b_stop, hproceeds⟩ (hworker rfl) (Or.inr ⟨rfl, rfl⟩)
  case front drain =>
    obtain ⟨hdrain, hne⟩ := hproceeds
    obtain ⟨msg, rest, hcons⟩ := List.exists_cons_of_ne_nil hne
    rw [hcons] at hstep
    cases hstep
    split
    · exact h.deal ⟨hdrain, List.cons_ne_nil _ _⟩ (hworker rfl) (Or.inr ⟨rfl, rfl⟩)
    · exact h.deal ⟨hdrain, List.cons_ne_nil _ _⟩ (hworker rfl) (Or.inr ⟨rfl, rfl⟩)
  case callback drain msg =>
    cases hstep
    exact h.deal hproceeds (hworker rfl) (Or.inr ⟨rfl, rfl⟩)
  case pop drain =>
    cases hstep
    rw [show drain = false from hproceeds.1]
    exact h.deal trivial (hworker rfl) (Or.inr ⟨rfl, rfl⟩)
  -- It only gets here when it has been stopped.
  case exit => exact hproceeds.elim

omit [DecidableEq ι] in
/-- A wakeup. -/
theorem Running.notified (h : Running server s) :
    Running server { s with worker := s.worker.notified } where
  b_stop := h.b_stop
  proceeds := h.proceeds.notified
  holder holder hholder := by
    have hinside := h.holder holder hholder
    cases holder with
    | worker => exact (Worker.locked_notified _).trans hinside
    | post j => exact hinside

omit [DecidableEq ι] in
/-- A message more in the queue wakes nobody, but it does not put anybody to sleep either. -/
theorem Running.push (h : Running server s) (msg : M) :
    Running server { s with msg_que := s.msg_que ++ [msg] } :=
  ⟨h.b_stop, h.proceeds.push msg, h.holder⟩

/-- A post goes on to `p` with `_mutex`, or releases it, or did not hold it. -/
theorem Running.goto (h : Running server s) {p : Post M} {mutex : Option (Holder ι)}
    (hmutex : mutex = none ∨ mutex = some (.post i) ∧ p.locked server = true ∨
      mutex = s.mutex ∧ ((s.posts i).locked server = true → p.locked server = true)) :
    Running server { s.goto i p with mutex := mutex } where
  b_stop := h.b_stop
  proceeds := h.proceeds
  holder holder hholder := by
    have hself : (s.goto i p).posts i = p := Function.update_self ..
    dsimp only at hholder
    rcases hmutex with hnone | ⟨hpost, hin⟩ | ⟨hsame, hin⟩
    · rw [hnone] at hholder
      cases hholder
    · rw [hpost] at hholder
      cases hholder
      exact (congrArg (Post.locked server) hself).trans hin
    · rw [hsame] at hholder
      have hinside := h.holder holder hholder
      cases holder with
      | worker => exact hinside
      | post j =>
          by_cases hj : j = i
          · rw [hj] at hinside ⊢
            exact (congrArg (Post.locked server) hself).trans (hin hinside)
          · exact (congrArg (Post.locked server) (Function.update_of_ne hj ..)).trans hinside

/-- A poster notifies when it has made the queue non-empty; that is enough for one worker. -/
theorem Running.postMsgToQue (h : Running server s)
    (hstep : s.postMsgToQue server i = some t) : Running server t := by
  unfold Sys.postMsgToQue at hstep
  cases hpc : s.posts i <;> simp only [hpc, reduceCtorEq] at hstep
  case lock msg =>
    split at hstep <;> cases hstep
    exact h.goto (Or.inr (Or.inl ⟨rfl, rfl⟩))
  case push msg =>
    cases hstep
    refine (h.goto (Or.inr (Or.inr ⟨rfl, fun _ => ?_⟩))).push msg
    split
    · cases server <;> rfl
    · rfl
  case notify =>
    cases hstep
    refine h.notified.goto (Or.inr (Or.inr ⟨rfl, fun hlocked => ?_⟩))
    cases server
    · rw [show (Sys.posts { s with worker := s.worker.notified } i) = .notify from hpc] at hlocked
      cases hlocked
    · rfl
  case unlock_notify | unlock =>
    cases hstep
    exact h.goto (Or.inl rfl)

/-- A worker that wakes up looks at the queue again. -/
theorem Running.spurious (h : Running server s)
    (hstep : s.step server registered .spurious = some t) : Running server t := by
  cases hpc : s.worker <;> simp only [Sys.step, hpc, reduceCtorEq, Option.some.injEq] at hstep
  subst hstep
  have hnotified := h.notified
  rw [hpc] at hnotified
  exact hnotified

/-- A worker that is stuck is blocked; nothing is queued and nobody posts. -/
theorem blocked_of_stuck {w : Watched ι M} (h : DispatchInv server registered w)
    (hrunning : Running server w.sys) (hworker : w.sys.dealMsg registered = none)
    (hposts : ∀ i, w.sys.postMsgToQue server i = none) :
    w.sys.worker = .blocked ∧ (∀ i, w.sys.posts i = .idle) ∧ w.sys.msg_que = [] := by
  have hwaits : w.sys.worker.locked = false := by
    have hproceeds := hrunning.proceeds
    unfold Sys.dealMsg at hworker
    cases hpc : w.sys.worker <;> simp only [hpc, reduceCtorEq] at hworker <;> try rfl
    rw [hpc] at hproceeds
    obtain ⟨msg, rest, hcons⟩ := List.exists_cons_of_ne_nil hproceeds.2
    rw [hcons] at hworker
    cases hworker
  have hwait : ∀ i, (w.sys.posts i).locked server = false := by
    intro i
    have hi := hposts i
    unfold Sys.postMsgToQue at hi
    cases hpc : w.sys.posts i <;> simp only [hpc, reduceCtorEq] at hi <;> rfl
  have hfree : w.sys.mutex = none := by
    cases hmutex : w.sys.mutex with
    | none => rfl
    | some holder =>
        have hholds := hrunning.holder holder hmutex
        cases holder with
        | worker =>
            rw [Sys.Holds, hwaits] at hholds
            cases hholds
        | post i =>
            rw [Sys.Holds, hwait i] at hholds
            cases hholds
  have hidle : ∀ i, w.sys.posts i = .idle := by
    intro i
    have hi := hposts i
    unfold Sys.postMsgToQue at hi
    cases hpc : w.sys.posts i <;> simp only [hpc, hfree, reduceCtorEq] at hi
    rfl
  have hblocked : w.sys.worker = .blocked := by
    have hproceeds := hrunning.proceeds
    unfold Sys.dealMsg at hworker
    cases hpc : w.sys.worker <;> simp only [hpc, hfree, reduceCtorEq] at hworker <;>
      rw [hpc] at hproceeds hwaits <;> first | rfl | exact hproceeds.elim | cases hwaits
  refine ⟨hblocked, hidle, ?_⟩
  by_contra hne
  obtain ⟨i, hi⟩ := h.wakeup hne hblocked
  rw [hidle i] at hi
  cases hi

end BoostNet.LogicStop
