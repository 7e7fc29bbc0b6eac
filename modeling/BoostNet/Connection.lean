/-
`Connection::AsyncSend` (Network/beast_websocket) and the completion handler it
installs: the outgoing queue of one WebSocket connection.

`AsyncSend` has two parts. Under `_send_mutex` it notes the queue's length,
enqueues the message and returns when the queue was not empty; outside the lock
it starts `async_write`. The completion handler pops the queue under the same
lock, copies the new front out and, after unlocking, calls `AsyncSend` with the
copy. `AsyncSend` does not know that this message is already queued: it enqueues
it a second time, sees a non-empty queue and returns without writing. From then
on nothing writes.

What is proved here:

* `asyncSend_pipeline_iff`: the pipeline delivers, in every state of a run,
  exactly when no completion handler ever finds a second message in the queue;
  the other direction is `Stuck`, which no step leaves.
* `asyncSend_stalls`: the two-message run on which it does not.

A thread is anywhere in this code or outside it; any number of them call
`AsyncSend` and any of them may run the handler. The steps are the lock blocks
and the `async_write` call, in any order.
-/
import BoostNet.Lts
import Mathlib.Logic.Function.Basic
import Mathlib.Tactic.Common

set_option autoImplicit false

namespace BoostNet.Connection

variable {ι μ : Type*} [DecidableEq ι]

/-! ## The model -/

/-- Where a thread is in the sending code of a connection. -/
inductive Pc (μ : Type*) where
  | idle
  /-- `AsyncSend` found the queue empty, has released the lock and is about to
  call `async_write`. -/
  | write (msg : μ)
  /-- The completion handler has copied the front, has released the lock and is
  about to call `AsyncSend` with the copy. -/
  | resend (msg : μ)
  deriving DecidableEq

/-- One connection. `writes` are the `async_write` calls whose handler has not
started; `sent` and `written` are histories: the messages callers passed to
`AsyncSend` and those given to `async_write`. -/
structure Conn (ι μ : Type*) where
  send_que : List μ
  writes : List μ
  sent : List μ
  written : List μ
  pc : ι → Pc μ

/-- The lock block of `AsyncSend(msg)` run by thread `t`: the length is read
before the message is enqueued. -/
def Conn.asyncSend (c : Conn ι μ) (t : ι) (msg : μ) : Conn ι μ :=
  let que_len := c.send_que.length
  { c with
    send_que := c.send_que ++ [msg]
    pc := Function.update c.pc t (if que_len > 0 then .idle else .write msg) }

/-- The lock block of the completion handler of a successful write. -/
def Conn.onWrite (c : Conn ι μ) (t : ι) : Conn ι μ :=
  let send_que := c.send_que.tail
  { c with
    send_que := send_que
    writes := c.writes.tail
    pc := Function.update c.pc t
      (match send_que with
        | [] => .idle
        | send_msg :: _ => .resend send_msg) }

/-- What a thread may do next. -/
inductive Action (ι μ : Type*) where
  /-- A caller's `AsyncSend(msg)`, up to the end of its lock block. -/
  | call (t : ι) (msg : μ)
  /-- The `async_write` of an `AsyncSend` that found the queue empty. -/
  | async_write (t : ι)
  /-- The handler of an outstanding write, up to the end of its lock block. -/
  | complete (t : ι)
  /-- The handler's own call of `AsyncSend`. -/
  | resend (t : ι)

def Conn.step (c : Conn ι μ) : Action ι μ → Option (Conn ι μ)
  | .call t msg =>
      match c.pc t with
      | .idle => some { c.asyncSend t msg with sent := c.sent ++ [msg] }
      | _ => none
  | .async_write t =>
      match c.pc t with
      | .write msg =>
          some { c with
            writes := c.writes ++ [msg]
            written := c.written ++ [msg]
            pc := Function.update c.pc t .idle }
      | _ => none
  | .complete t =>
      match c.pc t, c.writes with
      | .idle, _ :: _ => some (c.onWrite t)
      | _, _ => none
  | .resend t =>
      match c.pc t with
      | .resend msg => some (c.asyncSend t msg)
      | _ => none

/-- A fresh connection: nothing queued, nothing written, no thread inside. -/
def system (ι μ : Type*) [DecidableEq ι] : Lts (Conn ι μ) (Action ι μ) where
  init := ⟨[], [], [], [], fun _ => .idle⟩
  step := Conn.step

/-! ## What a step does

One lemma per action; everything below is read off these. -/

/-- `AsyncSend` is called by a thread that does nothing else at the time. -/
theorem step_call {c d : Conn ι μ} {t : ι} {msg : μ} (h : c.step (.call t msg) = some d) :
    c.pc t = .idle ∧ d = { c.asyncSend t msg with sent := c.sent ++ [msg] } := by
  simp only [Conn.step] at h
  cases hpc : c.pc t with
  | idle =>
      simp only [hpc, Option.some.injEq] at h
      exact ⟨rfl, h.symm⟩
  | write m => simp [hpc] at h
  | resend m => simp [hpc] at h

/-- The write is started after the lock was given back. -/
theorem step_async_write {c d : Conn ι μ} {t : ι} (h : c.step (.async_write t) = some d) :
    ∃ msg, c.pc t = .write msg ∧
      d = { c with
        writes := c.writes ++ [msg]
        written := c.written ++ [msg]
        pc := Function.update c.pc t .idle } := by
  simp only [Conn.step] at h
  cases hpc : c.pc t with
  | idle => simp [hpc] at h
  | write msg =>
      simp only [hpc, Option.some.injEq] at h
      exact ⟨msg, rfl, h.symm⟩
  | resend m => simp [hpc] at h

/-- The handler runs for a write that is under way. -/
theorem step_complete {c d : Conn ι μ} {t : ι} (h : c.step (.complete t) = some d) :
    c.pc t = .idle ∧ c.writes ≠ [] ∧ d = c.onWrite t := by
  simp only [Conn.step] at h
  cases hpc : c.pc t with
  | idle =>
      cases hw : c.writes with
      | nil => simp [hpc, hw] at h
      | cons w ws =>
          simp only [hpc, hw, Option.some.injEq] at h
          exact ⟨rfl, List.cons_ne_nil _ _, h.symm⟩
  | write m => simp [hpc] at h
  | resend m => simp [hpc] at h

/-- The handler sends the rest of the queue through `AsyncSend` again. -/
theorem step_resend {c d : Conn ι μ} {t : ι} (h : c.step (.resend t) = some d) :
    ∃ msg, c.pc t = .resend msg ∧ d = c.asyncSend t msg := by
  simp only [Conn.step] at h
  cases hpc : c.pc t with
  | idle => simp [hpc] at h
  | write m => simp [hpc] at h
  | resend msg =>
      simp only [hpc, Option.some.injEq] at h
      exact ⟨msg, rfl, h.symm⟩

/-! ## The send queue's contract -/

/-- No thread is inside `AsyncSend` or a completion handler. -/
def Conn.Quiet (c : Conn ι μ) : Prop := ∀ t, c.pc t = .idle

/-- What the send queue promises of a state: the socket was given a prefix of
what the callers sent, one write at a time, and a queued message is being
written whenever nobody is inside the code. -/
structure Conn.Delivers (c : Conn ι μ) : Prop where
  written_prefix : c.written <+: c.sent
  one_write : c.writes.length ≤ 1
  writing : c.Quiet → c.send_que ≠ [] → c.writes ≠ []

/-- The step does not run a completion handler over a queue that holds a second
message behind the one just written. -/
def NoSecond (c : Conn ι μ) : Action ι μ → Prop
  | .complete _ => c.send_que.length = 1
  | .call _ _ | .async_write _ | .resend _ => True

instance (c : Conn ι μ) (a : Action ι μ) : Decidable (NoSecond c a) :=
  match a with
  | .complete _ => inferInstanceAs (Decidable (c.send_que.length = 1))
  | .call _ _ | .async_write _ | .resend _ => inferInstanceAs (Decidable True)

/-! ## Runs that keep to one message

The queue is empty, or its front is being written, or its front is about to be
written by the one thread inside `AsyncSend`. -/

/-- The front of a non-empty queue is in the hands of exactly one writer. -/
inductive Writer (c : Conn ι μ) (done : List μ) : Prop where
  | none (hq : c.send_que = []) (hw : c.writes = []) (hd : c.written = done) (hpc : c.Quiet)
  | socket (m : μ) (q : List μ) (hq : c.send_que = m :: q) (hw : c.writes = [m])
      (hd : c.written = done ++ [m]) (hpc : c.Quiet)
  | thread (m : μ) (q : List μ) (t : ι) (hq : c.send_que = m :: q) (hw : c.writes = [])
      (hd : c.written = done) (ht : c.pc t = .write m) (hpc : ∀ u, u ≠ t → c.pc u = .idle)

/-- `done` are the messages written and completed. -/
def Inv (c : Conn ι μ) : Prop :=
  ∃ done, c.sent = done ++ c.send_que ∧ Writer c done

/-- Nothing queued and nothing written. -/
theorem inv_init : Inv (system ι μ).init :=
  ⟨[], rfl, .none rfl rfl rfl fun _ => rfl⟩

omit [DecidableEq ι] in
/-- When all is at rest, all that was sent was written, in order. -/
theorem Inv.delivers {c : Conn ι μ} (h : Inv c) : c.Delivers := by
  obtain ⟨done, hsent, hw⟩ := h
  cases hw with
  | none hq hw hd hpc =>
      refine ⟨?_, by simp [hw], fun _ hne => absurd hq hne⟩
      rw [hsent, hd]
      exact List.prefix_append _ _
  | socket m q hq hw hd hpc =>
      refine ⟨?_, by simp [hw], fun _ _ => by simp [hw]⟩
      rw [hsent, hd, hq]
      exact ⟨q, by simp⟩
  | thread m q t hq hw hd ht hpc =>
      refine ⟨?_, by simp [hw], fun hquiet _ => ?_⟩
      · rw [hsent, hd]
        exact List.prefix_append _ _
      · rw [hquiet t] at ht
        cases ht

/-- Setting an idle thread idle changes nothing. -/
theorem update_idle {c : Conn ι μ} {t : ι} (ht : c.pc t = .idle) :
    Function.update c.pc t .idle = c.pc := by
  rw [← ht]
  exact Function.update_eq_self t c.pc

/-- A message joins the queue, or is the one that is written. -/
theorem inv_call {c d : Conn ι μ} {t : ι} {msg : μ} (hc : Inv c)
    (h : c.step (.call t msg) = some d) : Inv d := by
  obtain ⟨hidle, rfl⟩ := step_call h
  obtain ⟨done, hsent, hw⟩ := hc
  refine ⟨done, by simp [Conn.asyncSend, hsent], ?_⟩
  cases hw with
  | none hq hw hd hpc =>
      -- the caller found the queue empty and becomes the writer
      refine .thread msg [] t (by simp [Conn.asyncSend, hq]) hw hd ?_ ?_
      · simp [Conn.asyncSend, hq]
      · intro u hu
        simp [Conn.asyncSend, Function.update_of_ne hu, hpc u]
  | socket m q hq hw hd hpc =>
      refine .socket m (q ++ [msg]) (by simp [Conn.asyncSend, hq]) hw hd ?_
      intro u
      simp [Conn.asyncSend, hq, update_idle hidle, hpc u]
  | thread m q t' hq hw hd ht hpc =>
      refine .thread m (q ++ [msg]) t' (by simp [Conn.asyncSend, hq]) hw hd ?_ ?_
      · simp [Conn.asyncSend, hq, update_idle hidle, ht]
      · intro u hu
        simp [Conn.asyncSend, hq, update_idle hidle, hpc u hu]

/-- The front of the queue is written. -/
theorem inv_async_write {c d : Conn ι μ} {t : ι} (hc : Inv c)
    (h : c.step (.async_write t) = some d) : Inv d := by
  obtain ⟨msg, hmsg, rfl⟩ := step_async_write h
  obtain ⟨done, hsent, hw⟩ := hc
  refine ⟨done, hsent, ?_⟩
  cases hw with
  | none hq hw hd hpc => simp [hpc t] at hmsg
  | socket m q hq hw hd hpc => simp [hpc t] at hmsg
  | thread m q t' hq hw hd ht hpc =>
      -- the only thread at `write` is the writer, so it is `t`, with the front
      have htt : t = t' := by
        by_contra hne
        simp [hpc t hne] at hmsg
      subst htt
      obtain rfl : m = msg := by
        rw [ht] at hmsg
        exact Pc.write.inj hmsg
      refine .socket m q hq (by simp [hw]) (by simp [hd]) fun u => ?_
      by_cases hu : u = t
      · simp [hu]
      · simp [Function.update_of_ne hu, hpc u hu]

/-- With one message in the queue the handler has nothing to send again. -/
theorem inv_complete {c d : Conn ι μ} {t : ι} (hc : Inv c) (hone : c.send_que.length = 1)
    (h : c.step (.complete t) = some d) : Inv d := by
  obtain ⟨hidle, hne, rfl⟩ := step_complete h
  obtain ⟨done, hsent, hw⟩ := hc
  cases hw with
  | none hq hw hd hpc => exact absurd hw hne
  | thread m q t' hq hw hd ht hpc => exact absurd hw hne
  | socket m q hq hw hd hpc =>
      -- the handler empties the queue, so it does not call `AsyncSend`
      obtain rfl : q = [] := by simpa [hq] using hone
      refine ⟨done ++ [m], by simp [Conn.onWrite, hsent, hq], ?_⟩
      refine .none (by simp [Conn.onWrite, hq]) (by simp [Conn.onWrite, hw])
        (by simp [Conn.onWrite, hd]) fun u => ?_
      simp [Conn.onWrite, hq, update_idle hidle, hpc u]

/-- No thread of such a run is about to resend. -/
theorem inv_no_resend {c : Conn ι μ} (hc : Inv c) (t : ι) (m : μ) : c.pc t ≠ .resend m := by
  obtain ⟨done, -, hw⟩ := hc
  cases hw with
  | none hq hw hd hpc => simp [hpc t]
  | socket m q hq hw hd hpc => simp [hpc t]
  | thread m q t' hq hw hd ht hpc =>
      by_cases hu : t = t'
      · simp [hu, ht]
      · simp [hpc t hu]

/-- The invariant of the runs in which no second message is queued behind a write. -/
theorem inv_step {c d : Conn ι μ} {a : Action ι μ} (hc : Inv c) (hG : NoSecond c a)
    (h : (system ι μ).step c a = some d) : Inv d := by
  cases a with
  | call t msg => exact inv_call hc h
  | async_write t => exact inv_async_write hc h
  | complete t => exact inv_complete hc hG h
  | resend t =>
      obtain ⟨msg, hmsg, -⟩ := step_resend h
      exact absurd hmsg (inv_no_resend hc t msg)

/-! ## The stall

A completion handler that finds a second message leaves the queue non-empty with
no write outstanding and nobody about to start one. `AsyncSend` writes only when
it finds the queue empty, so no step ends this. -/

structure Stuck (c : Conn ι μ) : Prop where
  queued : c.send_que ≠ []
  no_write : c.writes = []
  no_writer : ∀ t m, c.pc t ≠ .write m

omit [DecidableEq ι] in
/-- A queue that nobody writes has messages which are never delivered. -/
theorem Stuck.not_delivers {c : Conn ι μ} (h : Stuck c) (hq : c.Quiet) : ¬ c.Delivers :=
  fun hd => hd.writing hq h.queued h.no_write

/-- `AsyncSend` on a non-empty queue only enqueues. -/
theorem Stuck.asyncSend {c : Conn ι μ} (h : Stuck c) (t : ι) (msg : μ) :
    Stuck (c.asyncSend t msg) := by
  refine ⟨by simp [Conn.asyncSend], h.no_write, fun u m => ?_⟩
  have hpos : 0 < c.send_que.length := List.length_pos_iff.mpr h.queued
  by_cases hu : u = t
  · simp [Conn.asyncSend, hu, hpos]
  · simpa [Conn.asyncSend, Function.update_of_ne hu] using h.no_writer u m

/-- Nothing gets it going again: a new message only joins the queue. -/
theorem stuck_step {c d : Conn ι μ} {a : Action ι μ} (hc : Stuck c)
    (h : (system ι μ).step c a = some d) : Stuck d := by
  cases a with
  | call t msg =>
      obtain ⟨-, rfl⟩ := step_call h
      have hs := hc.asyncSend t msg
      exact ⟨hs.queued, hs.no_write, hs.no_writer⟩
  | async_write t =>
      obtain ⟨msg, hmsg, -⟩ := step_async_write h
      exact absurd hmsg (hc.no_writer t msg)
  | complete t => exact absurd hc.no_write (step_complete h).2.1
  | resend t =>
      obtain ⟨msg, -, rfl⟩ := step_resend h
      exact hc.asyncSend t msg

/-- The handler that finds a second message queues it again behind itself, and starts no write. -/
theorem stuck_of_second {c d : Conn ι μ} {a : Action ι μ} (hc : Inv c) (hG : ¬ NoSecond c a)
    (h : (system ι μ).step c a = some d) : Stuck d := by
  cases a with
  | call t msg => exact absurd trivial hG
  | async_write t => exact absurd trivial hG
  | resend t => exact absurd trivial hG
  | complete t =>
      obtain ⟨hidle, hne, rfl⟩ := step_complete h
      obtain ⟨done, -, hw⟩ := hc
      cases hw with
      | none hq hw hd hpc => exact absurd hw hne
      | thread m q t' hq hw hd ht hpc => exact absurd hw hne
      | socket m q hq hw hd hpc =>
          cases q with
          | nil => exact absurd (by simp [NoSecond, hq]) hG
          | cons m' q =>
              refine ⟨by simp [Conn.onWrite, hq], by simp [Conn.onWrite, hw], fun u m'' => ?_⟩
              by_cases hu : u = t
              · simp [Conn.onWrite, hq, hu]
              · simp [Conn.onWrite, Function.update_of_ne hu, hpc u]

/-! ## The result -/

/-- **The WebSocket send queue**, over every run. If every completion handler of
the run finds only the message just written in the queue, then in every state
the run passes through the socket has been given a prefix of what was sent, one
write at a time, and a queued message is being written. And a run that has this
in every state and ends with nobody inside the code is such a run. -/
theorem asyncSend_pipeline_iff (as : List (Action ι μ)) {c : Conn ι μ}
    (hrun : (system ι μ).exec (system ι μ).init as = some c) :
    ((system ι μ).Always NoSecond (system ι μ).init as →
        (system ι μ).Along Conn.Delivers (system ι μ).init as) ∧
      (c.Quiet →
        ((system ι μ).Along Conn.Delivers (system ι μ).init as ↔
          (system ι μ).Always NoSecond (system ι μ).init as)) := by
  have hgood : (system ι μ).Always NoSecond (system ι μ).init as →
      (system ι μ).Along Conn.Delivers (system ι μ).init as :=
    (system ι μ).along_of_always (fun _ h => h.delivers)
      (fun _ _ _ hc hG h => inv_step hc hG h) inv_init
  refine ⟨hgood, fun hquiet => ⟨fun halong => ?_, hgood⟩⟩
  have hc : c.Delivers := halong.last _ hrun
  exact (system ι μ).always_of_trap (fun _ _ _ hc hG h => inv_step hc hG h)
    (fun _ _ _ hc hG h => stuck_of_second hc hG h) (fun _ _ _ hc h => stuck_step hc h)
    inv_init hrun (fun hs => hs.not_delivers hquiet hc)

/-- Two messages, the second sent while the first is being written. -/
def twoMessages : List (Action Unit String) :=
  [.call () "a", .async_write (), .call () "b", .complete (), .resend ()]

/-- One message at a time: the second is sent after the first has completed. -/
def oneByOne : List (Action Unit String) :=
  [.call () "a", .async_write (), .complete (), .call () "b", .async_write (), .complete ()]

theorem asyncSend_pipeline_iff_oneByOne :
    (system Unit String).Along Conn.Delivers (system Unit String).init oneByOne :=
  (asyncSend_pipeline_iff oneByOne rfl).1 (by decide)

/-- The run stalls: everything has returned, `"b"` is queued (twice) and was
never given to the socket, and no write is outstanding. -/
theorem asyncSend_stalls :
    ∃ c, (system Unit String).exec (system Unit String).init twoMessages = some c ∧
      c.Quiet ∧ c.send_que = ["b", "b"] ∧ c.writes = [] ∧ c.sent = ["a", "b"] ∧
      c.written = ["a"] ∧ ¬ c.Delivers := by
  refine ⟨_, rfl, fun _ => rfl, rfl, rfl, rfl, rfl, fun h => ?_⟩
  exact h.writing (fun _ => rfl) (by simp [Conn.asyncSend]) rfl

end BoostNet.Connection
