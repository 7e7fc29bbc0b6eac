/-
The lifetime of the sessions of Network/coroutineServer against their coroutines.

The coroutine of `CSession::Start` uses the session through `this`. `Start` makes a
`shared_ptr` for it, `shared_this`, but `[=]` copies only what the body names, and the
body does not name it. So the coroutine is no owner, and whoever removes the last owner
while the coroutine is suspended in a read leaves it a session that is destroyed. The
table entry stands for the coroutine as long as nobody erases it; a `HandleWrite` that
fails does erase it, and closes the socket, which is what resumes the coroutine.

The model is that of the table (`CServer`), with the coroutine resumed also by a read
that it goes on from to the next one.

* `step_sess`: all that a step can do to a session.
* `resumed_alive_iff`: in a run at whose end every coroutine has ended, each was resumed
  on a live session exactly if no session lost its last owner while its coroutine was
  suspended.
* `resumed_destroyed`: the failed write.
* `resumed_alive`: nothing else does it. In a run in which no `HandleWrite` fails before the
  coroutine of its session has ended, every coroutine is resumed on a live session.
-/
import BoostNet.CServer
import BoostNet.Threads
import Mathlib.Algebra.Order.BigOperators.Group.Finset

set_option autoImplicit false

namespace BoostNet.CServer

variable {ι σ : Type*}

/-! ## The server and its coroutines -/

inductive Event (ι σ : Type*) where
  | server (a : Action ι σ)
  /-- The read of a header completes: the coroutine is resumed, and suspended in the
  read of the body. -/
  | resume (t : ι) (s : σ)

/-- The session whose handler an action takes up. -/
def Action.session : Action ι σ → Option σ
  | .accept _ s | .accept_error _ s | .receive _ s | .co_return _ s | .send _ s
  | .write_ok _ s _ | .write_error _ s | .deal _ s => some s
  | .step _ => none

/-- The session whose coroutine is resumed. -/
def Event.resumed : Event ι σ → Option σ
  | .server (.receive _ s) | .server (.co_return _ s) | .resume _ s => some s
  | .server (.accept _ _) | .server (.accept_error _ _) | .server (.send _ _)
  | .server (.write_ok _ _ _) | .server (.write_error _ _) | .server (.deal _ _)
  | .server (.step _) => none

/-- The session an owner of which the next statement of `t` removes, and the owners
that are left. -/
def Server.releasing (c : Server ι σ) (t : ι) : Option (σ × Sess) :=
  match c.stack t with
  | .erase s :: _ =>
      if (c.sess s).in_sessions then some (s, { c.sess s with in_sessions := false }) else none
  | .drop s :: _ => some (s, { c.sess s with held := (c.sess s).held - 1 })
  | _ => none

variable [DecidableEq ι] [DecidableEq σ]

def Server.event (c : Server ι σ) : Event ι σ → Option (Server ι σ)
  | .server a => c.step a
  | .resume t s => if c.stack t = [] ∧ (c.sess s).coroutine then some c else none

def coroutines (ι σ : Type*) [DecidableEq ι] [DecidableEq σ] : Lts (Server ι σ) (Event ι σ) where
  init := (system ι σ).init
  step := Server.event

/-! ## What a step does to a session -/

/-- The change of a session in a step. -/
inductive SessStep (c d : Server ι σ) (a : Action ι σ) (s : σ) : Prop where
  | same (h : d.sess s = c.sess s)
  | start (fs : List (Frame σ)) (ha : a.session = some s)
      (h : (c.sess s).start s a = some (d.sess s, fs))
  | insert (t : ι) (fs : List (Frame σ)) (ha : a = .step t) (hs : c.stack t = .insert s :: fs)
      (h : d.sess s = { c.sess s with in_sessions := true })
  | release (t : ι) (x : Sess) (ha : a = .step t) (hx : c.releasing t = some (s, x))
      (h : d.sess s = if x.owners = 0 then { x with destroyed := true } else x)

/-- A pointer that is dropped changes its own session only. -/
theorem release_sess (c : Server ι σ) (s : σ) (x : Sess) (t : ι) (fs : List (Frame σ)) :
    (c.release s x t fs).sess =
      Function.update c.sess s (if x.owners = 0 then { x with destroyed := true } else x) := by
  unfold Server.release
  split_ifs
  · rfl
  · rfl

omit [DecidableEq ι] in
/-- The session a step works on, and the others. -/
theorem sess_of_update {c d : Server ι σ} {a : Action ι σ} {s : σ} {x : Sess}
    (h : d.sess = Function.update c.sess s x) (hs : d.sess s = x → SessStep c d a s) (s' : σ) :
    SessStep c d a s' := by
  by_cases heq : s' = s
  · subst heq
    apply hs
    rw [h, Function.update_self]
  · apply SessStep.same
    rw [h, Function.update_of_ne heq]

/-- A handler that starts changes the session it is for as `SessStep` says. -/
theorem take_sess {c d : Server ι σ} {a : Action ι σ} {t : ι} {s : σ} (ha : a.session = some s)
    (h : c.take a t s = some d) (s' : σ) : SessStep c d a s' := by
  simp only [Server.take, Option.ite_none_right_eq_some, Option.map_eq_some_iff] at h
  obtain ⟨-, r, hr, rfl⟩ := h
  refine sess_of_update rfl (fun hs => ?_) s'
  apply SessStep.start r.2 ha
  rw [hs]
  exact hr

/-- So does every step of a thread. -/
theorem advance_sess {c d : Server ι σ} {t : ι} (h : c.advance t = some d) (s' : σ) :
    SessStep c d (.step t) s' := by
  cases advance_cases h with
  | insert_lock s fs hs hm => exact .same rfl
  | clear_lock s fs hs hm => exact .same rfl
  | unlock fs hs => exact .same rfl
  | absent s fs hs hin => exact .same rfl
  | insert s fs hs => exact sess_of_update rfl (fun hd => .insert t fs rfl hs hd) s'
  | drop s fs hs =>
      refine sess_of_update (release_sess _ _ _ _ _) (fun hd => ?_) s'
      refine .release t _ rfl ?_ hd
      simp only [Server.releasing, hs]
  | erase s fs hs hin =>
      refine sess_of_update (release_sess _ _ _ _ _) (fun hd => ?_) s'
      refine .release t _ rfl ?_ hd
      simp only [Server.releasing, hs, if_pos hin]

/-- **What a step does to a session.** -/
theorem step_sess {c d : Server ι σ} {a : Action ι σ} (h : c.step a = some d) (s : σ) :
    SessStep c d a s := by
  cases a with
  | step t => exact advance_sess h s
  | _ => exact take_sess rfl h s

/-! ## The contract of the coroutine, and the condition -/

/-- A coroutine is resumed on a session that is not destroyed. -/
def ResumedAlive (c : Server ι σ) (e : Event ι σ) : Prop :=
  ∀ s ∈ e.resumed, (c.sess s).destroyed = false

instance (c : Server ι σ) (e : Event ι σ) : Decidable (ResumedAlive c e) :=
  inferInstanceAs (Decidable (∀ s ∈ e.resumed, (c.sess s).destroyed = false))

/-- The next statement of `t` does not remove the last owner of a session whose
coroutine is suspended. -/
def Server.KeepsCoroutine (c : Server ι σ) (t : ι) : Prop :=
  match c.releasing t with
  | some (_, x) => x.owners = 0 → x.coroutine = false
  | none => True

/-- No session loses its last owner while its coroutine is suspended. -/
def KeepsCoroutine (c : Server ι σ) : Event ι σ → Prop
  | .server (.step t) => c.KeepsCoroutine t
  | .server (.accept _ _) | .server (.accept_error _ _) | .server (.receive _ _)
  | .server (.co_return _ _) | .server (.send _ _) | .server (.write_ok _ _ _)
  | .server (.write_error _ _) | .server (.deal _ _) | .resume _ _ => True

instance (c : Server ι σ) (t : ι) : Decidable (c.KeepsCoroutine t) := by
  unfold Server.KeepsCoroutine
  cases c.releasing t with
  | none => exact inferInstanceAs (Decidable True)
  | some r => exact inferInstanceAs (Decidable (r.2.owners = 0 → r.2.coroutine = false))

instance (c : Server ι σ) : ∀ e : Event ι σ, Decidable (KeepsCoroutine c e)
  | .server (.step t) => inferInstanceAs (Decidable (c.KeepsCoroutine t))
  | .server (.accept _ _) | .server (.accept_error _ _) | .server (.receive _ _)
  | .server (.co_return _ _) | .server (.send _ _) | .server (.write_ok _ _ _)
  | .server (.write_error _ _) | .server (.deal _ _) | .resume _ _ =>
      inferInstanceAs (Decidable True)

omit [DecidableEq ι] [DecidableEq σ] in
/-- Removing an owner leaves the coroutine and the accept handler as they are. -/
theorem releasing_keeps {c : Server ι σ} {t : ι} {s : σ} {x : Sess}
    (h : c.releasing t = some (s, x)) :
    x.coroutine = (c.sess s).coroutine ∧ x.destroyed = (c.sess s).destroyed ∧
      x.accept_handler = (c.sess s).accept_handler ∧ (x.in_sessions = true →
        (c.sess s).in_sessions = true) := by
  unfold Server.releasing at h
  cases hs : c.stack t with
  | nil => simp [hs] at h
  | cons f fs =>
      cases f with
      | erase s' =>
          simp only [hs, Option.ite_none_right_eq_some, Option.some.injEq, Prod.mk.injEq] at h
          obtain ⟨-, rfl, rfl⟩ := h
          exact ⟨rfl, rfl, rfl, fun h => by cases h⟩
      | drop s' =>
          simp only [hs, Option.some.injEq, Prod.mk.injEq] at h
          obtain ⟨rfl, rfl⟩ := h
          exact ⟨rfl, rfl, rfl, id⟩
      | _ => simp [hs] at h

omit [DecidableEq ι] [DecidableEq σ] in
/-- Taking up a handler destroys nothing and changes no table; it starts the coroutine
of a session that is accepted, and ends it on `co_return`. -/
theorem start_keeps {x y : Sess} {s : σ} {a : Action ι σ} {fs : List (Frame σ)}
    (h : x.start s a = some (y, fs)) :
    y.destroyed = x.destroyed ∧ y.in_sessions = x.in_sessions ∧
      (y.accept_handler = true → x.accept_handler = true) ∧
      (y.coroutine = true → x.coroutine = true ∨ x.accept_handler = true) ∧
      (x.coroutine = true → y.coroutine = true ∨ ∃ t s', a = .co_return t s') := by
  cases a <;> simp only [Sess.start, Option.ite_none_right_eq_some, Option.some.injEq,
    Prod.mk.injEq, reduceCtorEq] at h
  case accept t s' =>
    obtain ⟨hacc, rfl, -⟩ := h
    exact ⟨rfl, rfl, fun h' => absurd h' Bool.false_ne_true, fun _ => Or.inr hacc,
      fun _ => Or.inl rfl⟩
  case accept_error t s' =>
    obtain ⟨hacc, rfl, -⟩ := h
    exact ⟨rfl, rfl, fun h' => absurd h' Bool.false_ne_true, Or.inl, Or.inl⟩
  case co_return t s' =>
    obtain ⟨hco, rfl, -⟩ := h
    exact ⟨rfl, rfl, id, fun h' => absurd h' Bool.false_ne_true,
      fun _ => Or.inr ⟨t, s', rfl⟩⟩
  all_goals
    obtain ⟨-, rfl, -⟩ := h
    exact ⟨rfl, rfl, id, Or.inl, Or.inl⟩

/-- The coroutine of a destroyed session has ended, and the session is not accepted
again. -/
def Server.Ended (c : Server ι σ) : Prop :=
  ∀ s, (c.sess s).destroyed = true →
    (c.sess s).coroutine = false ∧ (c.sess s).accept_handler = false

omit [DecidableEq ι] [DecidableEq σ] in
/-- A session without owners has no accept handler. -/
theorem accept_handler_of_owners {x : Sess} (h : x.owners = 0) : x.accept_handler = false := by
  unfold Sess.owners at h
  cases hx : x.accept_handler
  · rfl
  · rw [hx, Bool.toNat_true] at h
    omega

/-- No step but a release can end a session whose coroutine runs. -/
theorem ended_step {c d : Server ι σ} {a : Action ι σ} (hc : c.Ended)
    (hG : ∀ t, a = .step t → c.KeepsCoroutine t) (h : c.step a = some d) : d.Ended := by
  intro s hd
  cases step_sess h s with
  | same heq =>
      rw [heq] at hd ⊢
      exact hc s hd
  | start fs ha hstart =>
      obtain ⟨hdest, -, hacc, hco, -⟩ := start_keeps hstart
      rw [hdest] at hd
      obtain ⟨hco', hacc'⟩ := hc s hd
      constructor
      · by_contra hne
        rcases hco (by simpa using hne) with h' | h'
        · rw [hco'] at h'
          cases h'
        · rw [hacc'] at h'
          cases h'
      · by_contra hne
        have h' := hacc (by simpa using hne)
        rw [hacc'] at h'
        cases h'
  | insert t fs ha hs heq =>
      rw [heq] at hd ⊢
      exact hc s hd
  | release t x ha hx heq =>
      obtain ⟨hco, hdest, hacc, -⟩ := releasing_keeps hx
      by_cases hzero : x.owners = 0
      · -- the last owner is gone, and the condition says that the coroutine is too
        rw [heq, if_pos hzero]
        have hkeep := hG t ha
        rw [Server.KeepsCoroutine, hx] at hkeep
        exact ⟨hkeep hzero, accept_handler_of_owners hzero⟩
      · rw [heq, if_neg hzero] at hd ⊢
        rw [hco, hacc]
        exact hc s (hdest ▸ hd)

/-- A session was destroyed while its coroutine was suspended. -/
def Server.Orphan (c : Server ι σ) : Prop :=
  ∃ s, (c.sess s).destroyed = true ∧ (c.sess s).coroutine = true

/-- A session whose last owner goes is destroyed. -/
theorem advance_releasing {c d : Server ι σ} {t : ι} {s : σ} {x : Sess}
    (hr : c.releasing t = some (s, x)) (h : c.advance t = some d) :
    d.sess s = if x.owners = 0 then { x with destroyed := true } else x := by
  unfold Server.releasing at hr
  cases advance_cases h with
  | erase s' fs hs hin =>
      simp only [hs, if_pos hin, Option.some.injEq, Prod.mk.injEq] at hr
      obtain ⟨rfl, rfl⟩ := hr
      rw [release_sess, Function.update_self]
  | drop s' fs hs =>
      simp only [hs, Option.some.injEq, Prod.mk.injEq] at hr
      obtain ⟨rfl, rfl⟩ := hr
      rw [release_sess, Function.update_self]
  | absent s' fs hs hin => simp [hs, hin] at hr
  | _ => simp [*] at hr

/-- Breaking the condition destroys the session under its coroutine. -/
theorem orphan_of_release {c d : Server ι σ} {t : ι} (hG : ¬ c.KeepsCoroutine t)
    (h : c.step (.step t) = some d) : d.Orphan := by
  unfold Server.KeepsCoroutine at hG
  cases hr : c.releasing t with
  | none => simp [hr] at hG
  | some r =>
      obtain ⟨s, x⟩ := r
      simp only [hr, Classical.not_imp, Bool.not_eq_false] at hG
      obtain ⟨hzero, hco⟩ := hG
      refine ⟨s, ?_⟩
      rw [advance_releasing hr h, if_pos hzero]
      exact ⟨rfl, hco⟩

/-- As long as it is not resumed, it stays so. -/
theorem orphan_step {c d : Server ι σ} {a : Action ι σ} (hc : c.Orphan)
    (hH : ∀ s, (Event.server a).resumed = some s → (c.sess s).destroyed = false)
    (h : c.step a = some d) : d.Orphan := by
  obtain ⟨s, hdest, hco⟩ := hc
  refine ⟨s, ?_⟩
  cases step_sess h s with
  | same heq =>
      rw [heq]
      exact ⟨hdest, hco⟩
  | start fs ha hstart =>
      obtain ⟨hdest', -, -, -, hco'⟩ := start_keeps hstart
      rw [hdest']
      refine ⟨hdest, (hco' hco).resolve_right ?_⟩
      rintro ⟨t, s', rfl⟩
      obtain rfl : s' = s := Option.some.inj ha
      rw [hH s' rfl] at hdest
      cases hdest
  | insert t fs ha hs heq =>
      rw [heq]
      exact ⟨hdest, hco⟩
  | release t x ha hx heq =>
      obtain ⟨hco', hdest', -, -⟩ := releasing_keeps hx
      rw [heq]
      split_ifs
      · exact ⟨rfl, hco'.trans hco⟩
      · exact ⟨hdest'.trans hdest, hco'.trans hco⟩

/-! ## The result -/

/-- An event is a step of the server, or the coroutine goes on. -/
theorem event_cases {c d : Server ι σ} {e : Event ι σ} (h : c.event e = some d) :
    (∃ a, e = .server a ∧ c.step a = some d) ∨
      ∃ t s, e = .resume t s ∧ d = c ∧ (c.sess s).coroutine = true := by
  cases e with
  | server a => exact Or.inl ⟨a, rfl, h⟩
  | resume t s =>
      simp only [Server.event, Option.ite_none_right_eq_some, Option.some.injEq] at h
      exact Or.inr ⟨t, s, rfl, h.2.symm, h.1.2⟩

/-- The coroutine itself ends no session. -/
theorem ended_event {c d : Server ι σ} {e : Event ι σ} (hc : c.Ended)
    (hG : KeepsCoroutine c e) (h : c.event e = some d) : d.Ended := by
  rcases event_cases h with ⟨a, rfl, ha⟩ | ⟨t, s, rfl, rfl, -⟩
  · refine ended_step hc (fun t ht => ?_) ha
    subst ht
    exact hG
  · exact hc

/-- A coroutine that is resumed was suspended. -/
theorem resumed_coroutine {c d : Server ι σ} {e : Event ι σ} (h : c.event e = some d) {s : σ}
    (he : e.resumed = some s) : (c.sess s).coroutine = true := by
  rcases event_cases h with ⟨a, rfl, ha⟩ | ⟨t, s', rfl, -, hco⟩
  · cases a with
    | receive t s' =>
        obtain rfl : s' = s := Option.some.inj he
        simp only [Server.step, Server.take, Sess.start, Option.ite_none_right_eq_some,
          Option.map_eq_some_iff] at ha
        obtain ⟨-, r, ⟨⟨hco, -⟩, -⟩, -⟩ := ha
        exact hco
    | co_return t s' =>
        obtain rfl : s' = s := Option.some.inj he
        simp only [Server.step, Server.take, Sess.start, Option.ite_none_right_eq_some,
          Option.map_eq_some_iff] at ha
        obtain ⟨-, r, ⟨hco, -⟩, -⟩ := ha
        exact hco
    | _ => cases he
  · obtain rfl : s' = s := Option.some.inj he
    exact hco

/-- There is no session at first. -/
theorem ended_init : (coroutines ι σ).init.Ended := by
  intro s hs
  cases hs

/-- A coroutine that has not ended belongs to a session that is there. -/
theorem Server.Ended.resumedAlive {c d : Server ι σ} {e : Event ι σ} (hc : c.Ended)
    (hstep : c.event e = some d) : ResumedAlive c e := by
  intro s he
  by_contra hdest
  have hco := (hc s (by simpa using hdest)).1
  rw [resumed_coroutine hstep he] at hco
  cases hco

/-- By induction on the run, each event being one step of `ended_event`. -/
theorem always_resumedAlive {es : List (Event ι σ)} {c : Server ι σ}
    (hrun : (coroutines ι σ).exec (coroutines ι σ).init es = some c)
    (hG : (coroutines ι σ).Always KeepsCoroutine (coroutines ι σ).init es) :
    (coroutines ι σ).Always ResumedAlive (coroutines ι σ).init es := by
  refine (coroutines ι σ).always_of_always (I := fun c => c.Ended) ?_ ended_init hG hrun
  intro c e d hc hG hstep
  exact ⟨hc.resumedAlive hstep, ended_event hc hG hstep⟩

/-- **The sessions outlive their coroutines** in every run, of any number of sessions and
threads, in which none loses its last owner while its coroutine is suspended; and a run
that ends with all coroutines ended, each having been resumed on a live session only,
has met this condition. -/
theorem resumed_alive_iff (es : List (Event ι σ)) (c : Server ι σ)
    (hrun : (coroutines ι σ).exec (coroutines ι σ).init es = some c) :
    ((coroutines ι σ).Always KeepsCoroutine (coroutines ι σ).init es →
        (coroutines ι σ).Always ResumedAlive (coroutines ι σ).init es) ∧
      ((∀ s, (c.sess s).coroutine = false) →
        (coroutines ι σ).Always ResumedAlive (coroutines ι σ).init es →
          (coroutines ι σ).Always KeepsCoroutine (coroutines ι σ).init es) := by
  refine ⟨always_resumedAlive hrun, ?_⟩
  intro hend hH
  refine (coroutines ι σ).always_of_trap_of_always (I := fun c => c.Ended)
    (T := fun c => c.Orphan) ?_ ?_ ?_ ended_init hH hrun ?_
  · intro c e d hc hG hstep
    exact ended_event hc hG hstep
  · intro c e d _ hG _ hstep
    rcases event_cases hstep with ⟨a, rfl, ha⟩ | ⟨t, s, rfl, -, -⟩
    · cases a with
      | step t => exact orphan_of_release hG ha
      | _ => exact absurd trivial hG
    · exact absurd trivial hG
  · intro c e d hT hH hstep
    rcases event_cases hstep with ⟨a, rfl, ha⟩ | ⟨t, s, rfl, rfl, -⟩
    · exact orphan_step hT hH ha
    · exact hT
  · rintro ⟨s, -, hco⟩
    rw [hend s] at hco
    cases hco

/-- Events of the server alone. -/
def served (as : List (Action ι σ)) : List (Event ι σ) := as.map .server

/-- A session is accepted, its header is read, and the peer disconnects while a message
is still with the logic thread. -/
def endedFirst : List (Event Unit Unit) :=
  served accepted ++ [.resume () ()] ++
    served [.receive () (), .co_return () (), .step (), .step (), .step (), .deal () (), .step ()]

theorem resumed_alive_iff_endedFirst :
    (coroutines Unit Unit).Always ResumedAlive (coroutines Unit Unit).init endedFirst :=
  (resumed_alive_iff endedFirst _ rfl).1 (by decide)

/-- A session replies, the write fails, and `HandleWrite` clears the session and returns,
which destroys it. The coroutine is still suspended in its read, which the closed socket
ends. -/
def failedWrite : List (Action Unit Unit) :=
  accepted ++ [.send () (), .write_error () (), .step (), .step (), .step (), .step (),
    .step (), .step (), .step ()]

/-- The coroutine is resumed on a destroyed session. -/
theorem resumed_destroyed :
    ∃ c, (coroutines Unit Unit).exec (coroutines Unit Unit).init (served failedWrite) = some c ∧
      (c.sess ()).destroyed = true ∧
      ((coroutines Unit Unit).step c (.server (.co_return () ()))).isSome = true ∧
      ¬ (coroutines Unit Unit).Always ResumedAlive (coroutines Unit Unit).init
        (served (failedWrite ++ [.co_return () ()])) :=
  ⟨_, rfl, rfl, rfl, by decide⟩

/-! ## As long as no write fails

Until the coroutine has ended, the session is in the table, or its `HandleAccept` is about to insert
it and holds it. Nobody erases it: `ClearSession` is called by the coroutine when it ends, by a
`HandleWrite` that has failed, and by `~CSession`. -/

/-- What a stack has below its first statement. -/
def Frame.Rests : Frame σ → Prop
  | .unlock | .drop _ => True
  | .insert_lock _ | .insert _ | .clear_lock _ | .erase _ => False

/-- `HandleAccept` is about to insert the session. -/
def Inserting (s : σ) (fs : List (Frame σ)) : Prop :=
  fs.head? = some (.insert_lock s) ∨ fs.head? = some (.insert s)

/-- `ClearSession` is about to erase the session. -/
def Clearing (s : σ) (fs : List (Frame σ)) : Prop :=
  fs.head? = some (.clear_lock s) ∨ fs.head? = some (.erase s)

/-- The owners a session has until its coroutine has ended. -/
structure Server.Owned (c : Server ι σ) (s : σ) : Prop where
  started : (c.sess s).coroutine = true → (c.sess s).accept_handler = false
  /-- The handlers that are still to drop the session hold it. -/
  held : ∀ ts : Finset ι, ∑ t ∈ ts, (c.stack t).count (.drop s) ≤ (c.sess s).held
  rests : ∀ t, ∀ f ∈ (c.stack t).tail, f.Rests
  inserting : ∀ t, Inserting s (c.stack t) → .drop s ∈ c.stack t
  table : (c.sess s).coroutine = true →
    (c.sess s).in_sessions = true ∨ ∃ t, Inserting s (c.stack t)
  uncleared : (c.sess s).coroutine = true ∨ (c.sess s).accept_handler = true →
    ∀ t, ¬ Clearing s (c.stack t)

section Owned

variable {c d : Server ι σ} {s : σ} {t : ι} {fs : List (Frame σ)}

/-- No session and so no owner that would be missing. -/
theorem owned_init : (system ι σ).init.Owned s where
  started h := by cases h
  held ts := (Finset.sum_eq_zero fun _ _ => rfl).le
  rests _ _ h := by cases h
  inserting _ h := by rcases h with h | h <;> cases h
  table h := by cases h
  uncleared _ _ h := by rcases h with h | h <;> cases h

/-- A thread goes on with other statements. -/
theorem Server.Owned.goto (h : c.Owned s) (hstack : d.stack = Function.update c.stack t fs)
    (hstarted : (d.sess s).coroutine = true → (d.sess s).accept_handler = false)
    (hheld : fs.count (.drop s) + (c.sess s).held =
      (c.stack t).count (.drop s) + (d.sess s).held)
    (hrests : ∀ f ∈ fs.tail, f.Rests) (hinserting : Inserting s fs → .drop s ∈ fs)
    (htable : (d.sess s).coroutine = true → (d.sess s).in_sessions = true ∨ Inserting s fs ∨
      ¬ Inserting s (c.stack t) ∧ (c.sess s).coroutine = true ∧
        ((c.sess s).in_sessions = true → (d.sess s).in_sessions = true))
    (huncleared : (d.sess s).coroutine = true ∨ (d.sess s).accept_handler = true →
      ¬ Clearing s fs ∧ ((c.sess s).coroutine = true ∨ (c.sess s).accept_handler = true)) :
    d.Owned s where
  started := hstarted
  held ts := by
    have hsum := sum_update (List.count (.drop s)) c.stack fs (Finset.mem_insert_self t ts)
    have hbefore := h.held (insert t ts)
    have hsub : ∑ u ∈ ts, (d.stack u).count (.drop s) ≤
        ∑ u ∈ insert t ts, (d.stack u).count (.drop s) :=
      Finset.sum_le_sum_of_subset (Finset.subset_insert t ts)
    rw [hstack] at hsub ⊢
    omega
  rests := by
    rw [hstack]
    exact forall_update (P := fun fs : List (Frame σ) => ∀ f ∈ fs.tail, f.Rests) hrests
      fun u _ => h.rests u
  inserting := by
    rw [hstack]
    exact forall_update (P := fun fs => Inserting s fs → .drop s ∈ fs) hinserting
      fun u _ => h.inserting u
  table hco := by
    rw [hstack]
    rcases htable hco with hin | hnow | ⟨hnot, hbefore, hin⟩
    · exact Or.inl hin
    · exact Or.inr ⟨t, by rwa [Function.update_self]⟩
    -- Another thread is about to insert it.
    · rcases h.table hbefore with htab | ⟨u, hu⟩
      · exact Or.inl (hin htab)
      · have hne : u ≠ t := by
          rintro rfl
          exact hnot hu
        exact Or.inr ⟨u, by rwa [Function.update_of_ne hne]⟩
  uncleared hlive := by
    obtain ⟨hnow, hbefore⟩ := huncleared hlive
    rw [hstack]
    exact forall_update (P := fun fs => ¬ Clearing s fs) hnow fun u _ => h.uncleared hbefore u

omit [DecidableEq ι] [DecidableEq σ] in
/-- The statements below the first do not touch the table. -/
theorem not_inserting_of_rests (h : ∀ f ∈ fs, f.Rests) : ¬ Inserting s fs ∧ ¬ Clearing s fs := by
  cases fs with
  | nil => refine ⟨?_, ?_⟩ <;> rintro (heq | heq) <;> cases heq
  | cons f rest =>
      have hf := h f (List.mem_cons_self ..)
      refine ⟨?_, ?_⟩ <;> rintro (heq | heq) <;> obtain rfl := Option.some.inj heq <;> exact hf

/-- A statement, or a handler, that is no end of the session and no insert. -/
theorem Server.Owned.keep (h : c.Owned s) (hstack : d.stack = Function.update c.stack t fs)
    (hco : (d.sess s).coroutine = (c.sess s).coroutine)
    (hacc : (d.sess s).accept_handler = (c.sess s).accept_handler)
    (hin : (d.sess s).in_sessions = (c.sess s).in_sessions)
    (hheld : fs.count (.drop s) + (c.sess s).held =
      (c.stack t).count (.drop s) + (d.sess s).held)
    (hrests : ∀ f ∈ fs.tail, f.Rests) (hbefore : ¬ Inserting s (c.stack t))
    (hinserting : ¬ Inserting s fs) (hclearing : ¬ Clearing s fs) : d.Owned s := by
  refine h.goto hstack (by rw [hco, hacc]; exact h.started) hheld hrests
    (fun hnow => absurd hnow hinserting) (fun hlive => ?_) fun hlive => ⟨hclearing, ?_⟩
  · exact Or.inr (Or.inr ⟨hbefore, hco ▸ hlive, fun htab => hin.trans htab⟩)
  · rwa [hco, hacc] at hlive

/-- The coroutine has ended, or never begins. -/
theorem Server.Owned.dead (h : c.Owned s) (hstack : d.stack = Function.update c.stack t fs)
    (hco : (d.sess s).coroutine = false) (hacc : (d.sess s).accept_handler = false)
    (hheld : fs.count (.drop s) + (c.sess s).held =
      (c.stack t).count (.drop s) + (d.sess s).held)
    (hrests : ∀ f ∈ fs.tail, f.Rests) (hinserting : ¬ Inserting s fs) : d.Owned s := by
  refine h.goto hstack (fun _ => hacc) hheld hrests (fun hnow => absurd hnow hinserting)
    (fun hlive => ?_) fun hlive => ?_
  · rw [hco] at hlive
    cases hlive
  · rw [hco, hacc] at hlive
    rcases hlive with hlive | hlive <;> cases hlive

/-- **The last owner is not removed** while the coroutine is suspended. -/
theorem keepsCoroutine_of_owned (h : ∀ s, c.Owned s) (t : ι) : c.KeepsCoroutine t := by
  unfold Server.KeepsCoroutine
  split
  next s x hx =>
    intro hzero
    by_contra hne
    have hco : (c.sess s).coroutine = true := by
      rw [← (releasing_keeps hx).1]
      exact (Bool.not_eq_false _).mp hne
    unfold Server.releasing at hx
    split at hx
    next s' fs hs =>
      obtain ⟨-, hx⟩ := Option.ite_none_right_eq_some.mp hx
      obtain ⟨rfl, -⟩ := Prod.mk.inj (Option.some.inj hx)
      exact (h s').uncleared (Or.inl hco) t (Or.inr (by rw [hs]; rfl))
    next s' fs hs =>
      obtain ⟨rfl, rfl⟩ := Prod.mk.inj (Option.some.inj hx)
      simp only [Sess.owners] at hzero
      rcases (h s').table hco with hin | ⟨u, hu⟩
      · rw [hin, Bool.toNat_true] at hzero
        omega
      · -- the thread that is about to insert the session holds it too
        have hne : t ≠ u := by
          rintro rfl
          rw [hs] at hu
          rcases hu with hu | hu <;> cases hu
        have hheld := (h s').held {t, u}
        have hmine : 0 < (c.stack t).count (.drop s') := by
          rw [hs]
          exact List.count_pos_iff.mpr (List.mem_cons_self ..)
        have hother := List.count_pos_iff.mpr ((h s').inserting u hu)
        rw [Finset.sum_pair hne] at hheld
        omega
    next => cases hx
  next => trivial

omit [DecidableEq ι] in
/-- The statements of a handler are about its own session. -/
theorem start_frames {x y : Sess} {a : Action ι σ} (h : x.start s a = some (y, fs)) :
    (∀ f ∈ fs.tail, f.Rests) ∧ ∀ s', s' ≠ s →
      fs.count (.drop s') = 0 ∧ ¬ Inserting s' fs ∧ ¬ Clearing s' fs := by
  cases a <;> simp only [Sess.start, Option.ite_none_right_eq_some, Option.some.injEq,
    Prod.mk.injEq, reduceCtorEq] at h
  all_goals
    obtain ⟨-, -, rfl⟩ := h
    refine ⟨by simp [Frame.Rests], fun s' hne => ?_⟩
    simp [Inserting, Clearing, hne.symm]

/-- A thread takes up a handler. -/
theorem take_owned (h : c.Owned s) {a : Action ι σ} {s' : σ}
    (hfail : ∀ u v, a = .write_error u v →
      (c.sess v).coroutine = false ∧ (c.sess v).accept_handler = false)
    (ha : a.session = some s') (hstep : c.take a t s' = some d) : d.Owned s := by
  simp only [Server.take, Option.ite_none_right_eq_some, Option.map_eq_some_iff] at hstep
  obtain ⟨hidle, ⟨x, fs⟩, hstart, rfl⟩ := hstep
  obtain ⟨hrests, hother⟩ := start_frames hstart
  have hbefore : ¬ Inserting s (c.stack t) := by
    rw [hidle]
    rintro (heq | heq) <;> cases heq
  -- a handler of this session, or of another one
  by_cases hs : s = s'
  · subst hs
    have hsess : (c.set s x t fs).sess s = x := Function.update_self ..
    cases a <;> simp only [Sess.start, Option.ite_none_right_eq_some, Option.some.injEq,
      Prod.mk.injEq, reduceCtorEq] at hstart
    case accept =>
      -- `CServer` hands the session over to the frames that start and insert it
      obtain ⟨hacc, rfl, rfl⟩ := hstart
      refine h.goto rfl ?_ ?_ hrests ?_ ?_ ?_
      · exact fun _ => congrArg Sess.accept_handler hsess
      · rw [hsess, hidle]
        simp [Nat.add_comm]
      · simp
      · exact fun _ => Or.inr (Or.inl (Or.inl rfl))
      · exact fun _ => ⟨by simp [Clearing], Or.inr hacc⟩
    case accept_error =>
      -- the coroutine has not been started: there is nothing to own
      obtain ⟨hacc, rfl, rfl⟩ := hstart
      have hco : (c.sess s).coroutine = false := by
        by_contra hne
        rw [h.started ((Bool.not_eq_false _).mp hne)] at hacc
        cases hacc
      refine h.dead rfl (by rw [hsess]; exact hco) (by rw [hsess]) ?_ hrests (by simp [Inserting])
      rw [hsess, hidle]
      simp [Nat.add_comm]
    case co_return =>
      obtain ⟨hco, rfl, rfl⟩ := hstart
      refine h.dead rfl (by rw [hsess]) (by rw [hsess]; exact h.started hco) ?_ hrests
        (by simp [Inserting])
      rw [hsess, hidle]
      simp
    case write_error u v =>
      -- excluded by `hfail` while the coroutine is there
      obtain ⟨-, rfl, rfl⟩ := hstart
      obtain rfl : v = s := Option.some.inj ha
      obtain ⟨hco, hacc⟩ := hfail u v rfl
      refine h.dead rfl (by rw [hsess]; exact hco) (by rw [hsess]; exact hacc) ?_ hrests
        (by simp [Inserting])
      rw [hsess, hidle]
      simp [Nat.add_comm]
    case receive | send =>
      obtain ⟨-, rfl, rfl⟩ := hstart
      refine h.keep rfl (by rw [hsess]) (by rw [hsess]) (by rw [hsess]) ?_ hrests hbefore
        (by simp [Inserting]) (by simp [Clearing])
      rw [hsess, hidle]
    case write_ok | deal =>
      -- the frame of the handler comes with a pointer of its own
      obtain ⟨-, rfl, rfl⟩ := hstart
      refine h.keep rfl (by rw [hsess]) (by rw [hsess]) (by rw [hsess]) ?_ hrests hbefore
        (by simp [Inserting]) (by simp [Clearing])
      rw [hsess, hidle]
      simp [Nat.add_comm]
  · have hsess : (c.set s' x t fs).sess s = c.sess s := Function.update_of_ne hs ..
    obtain ⟨hcount, hinserting, hclearing⟩ := hother s hs
    refine h.keep rfl (by rw [hsess]) (by rw [hsess]) (by rw [hsess]) ?_ hrests hbefore hinserting
      hclearing
    rw [hsess, hidle, hcount]
    rfl

/-- An owner of `s'` is removed, and where it was the last one `~CSession` begins. -/
theorem release_owned (h : c.Owned s) {s' : σ} {x : Sess} (hfs : ∀ f ∈ fs, f.Rests)
    (hbefore : ¬ Inserting s (c.stack t))
    (hother : s ≠ s' → fs.count (.drop s) = (c.stack t).count (.drop s))
    (hself : s = s' → x.coroutine = (c.sess s).coroutine ∧
      x.accept_handler = (c.sess s).accept_handler ∧
      fs.count (.drop s) + (c.sess s).held = (c.stack t).count (.drop s) + x.held ∧
      (x.in_sessions = (c.sess s).in_sessions ∨ x.coroutine = false ∧ x.accept_handler = false) ∧
      (x.owners = 0 → x.coroutine = false)) : (c.release s' x t fs).Owned s := by
  obtain ⟨hinserting, hclearing⟩ := not_inserting_of_rests (s := s) hfs
  have htail : ∀ f ∈ fs.tail, f.Rests := fun f hf => hfs f (List.mem_of_mem_tail hf)
  have hlock : (Frame.clear_lock s' :: fs).count (.drop s) = fs.count (.drop s) := by simp
  have hnot : ¬ Inserting s (.clear_lock s' :: fs) := by simp [Inserting]
  unfold Server.release
  by_cases hs : s = s'
  · subst hs
    obtain ⟨hco, hacc, hheld, hin, hlast⟩ := hself rfl
    by_cases hzero : x.owners = 0
    · rw [if_pos hzero]
      have hsess : (c.set s { x with destroyed := true } t (.clear_lock s :: fs)).sess s =
          { x with destroyed := true } := Function.update_self ..
      refine h.dead rfl (by rw [hsess]; exact hlast hzero)
        (by rw [hsess]; exact accept_handler_of_owners hzero) ?_ hfs hnot
      rw [hsess, hlock]
      exact hheld
    · rw [if_neg hzero]
      have hsess : (c.set s x t fs).sess s = x := Function.update_self ..
      rcases hin with hin | ⟨hended, hnever⟩
      · refine h.keep rfl (by rw [hsess, hco]) (by rw [hsess, hacc]) (by rw [hsess, hin]) ?_ htail
          hbefore hinserting hclearing
        rw [hsess]
        exact hheld
      · refine h.dead rfl (by rw [hsess]; exact hended) (by rw [hsess]; exact hnever) ?_ htail
          hinserting
        rw [hsess]
        exact hheld
  · by_cases hzero : x.owners = 0
    · rw [if_pos hzero]
      have hsess : (c.set s' { x with destroyed := true } t (.clear_lock s' :: fs)).sess s =
          c.sess s := Function.update_of_ne hs ..
      refine h.keep rfl (by rw [hsess]) (by rw [hsess]) (by rw [hsess]) ?_ hfs hbefore hnot ?_
      · rw [hsess, hlock, hother hs]
      · simp [Clearing, Ne.symm hs]
    · rw [if_neg hzero]
      have hsess : (c.set s' x t fs).sess s = c.sess s := Function.update_of_ne hs ..
      refine h.keep rfl (by rw [hsess]) (by rw [hsess]) (by rw [hsess]) ?_ htail hbefore hinserting
        hclearing
      rw [hsess, hother hs]

/-- A thread executes its next statement. -/
theorem advance_owned (h : ∀ s, c.Owned s) (hstep : c.advance t = some d) (s : σ) : d.Owned s := by
  have hs := h s
  have htail : ∀ f rest, c.stack t = f :: rest → ∀ g ∈ rest, g.Rests := by
    intro f rest heq g hg
    have hrests := hs.rests t g
    rw [heq] at hrests
    exact hrests hg
  cases advance_cases hstep with
  | insert_lock s' fs heq hm =>
      have hfs := htail _ _ heq
      refine hs.goto rfl hs.started ?_ hfs (fun hnow => ?_) (fun hco => ?_) fun hlive => ?_
      · rw [heq]
        simp
      · have hmem := hs.inserting t
        rw [heq] at hmem
        rcases hnow with hnow | hnow <;> cases hnow
        exact List.mem_cons_of_mem _ ((List.mem_cons.mp (hmem (Or.inl rfl))).resolve_left (by simp))
      · by_cases hsame : s' = s
        · exact Or.inr (Or.inl (Or.inr (by rw [hsame]; rfl)))
        · refine Or.inr (Or.inr ⟨?_, hco, id⟩)
          rw [heq]
          simp [Inserting, hsame]
      · exact ⟨by simp [Clearing], hlive⟩
  | insert s' fs heq =>
      have hfs := htail _ _ heq
      by_cases hsame : s = s'
      · subst hsame
        have hsess : (c.set s { c.sess s with in_sessions := true } t (.unlock :: fs)).sess s =
            { c.sess s with in_sessions := true } := Function.update_self ..
        refine hs.goto (rfl : _ = Function.update c.stack t (.unlock :: fs))
          (by rw [hsess]; exact hs.started) ?_ hfs (by simp [Inserting])
          (fun _ => Or.inl (by rw [hsess])) fun hlive => ?_
        · rw [hsess, heq]
          simp
        · rw [hsess] at hlive
          exact ⟨by simp [Clearing], hlive⟩
      · have hsess : (c.set s' { c.sess s' with in_sessions := true } t (.unlock :: fs)).sess s =
            c.sess s := Function.update_of_ne hsame ..
        refine hs.keep (rfl : _ = Function.update c.stack t (.unlock :: fs)) (by rw [hsess])
          (by rw [hsess]) (by rw [hsess]) ?_ hfs ?_ (by simp [Inserting]) (by simp [Clearing])
        · rw [hsess, heq]
          simp
        · rw [heq]
          simp [Inserting, Ne.symm hsame]
  | clear_lock s' fs heq hm =>
      have hfs := htail _ _ heq
      refine hs.goto (rfl : _ = Function.update c.stack t (.erase s' :: fs)) hs.started ?_ hfs
        (by simp [Inserting])
        (fun hco => Or.inr (Or.inr ⟨?_, hco, id⟩)) fun hlive => ⟨?_, hlive⟩
      · rw [heq]
        simp
      · rw [heq]
        simp [Inserting]
      · have hclear := hs.uncleared hlive t
        rw [heq] at hclear
        simpa [Clearing] using hclear
  | erase s' fs heq hin =>
      have hfs := htail _ _ heq
      refine release_owned hs (List.forall_mem_cons.mpr ⟨trivial, hfs⟩) ?_ (fun _ => ?_) ?_
      · rw [heq]
        simp [Inserting]
      · rw [heq]
        simp
      · rintro rfl
        -- it is erased, so it has ended
        have hdead : ¬ ((c.sess s).coroutine = true ∨ (c.sess s).accept_handler = true) :=
          fun hlive => hs.uncleared hlive t (Or.inr (by rw [heq]; rfl))
        rw [not_or, Bool.not_eq_true, Bool.not_eq_true] at hdead
        refine ⟨rfl, rfl, ?_, Or.inr hdead, fun _ => hdead.1⟩
        rw [heq]
        simp
  | absent s' fs heq hin =>
      have hfs := htail _ _ heq
      refine hs.keep (rfl : _ = Function.update c.stack t (.unlock :: fs)) rfl rfl rfl ?_ hfs ?_
        (by simp [Inserting])        (by simp [Clearing])
      · rw [heq]
        simp
      · rw [heq]
        simp [Inserting]
  | unlock fs heq =>
      have hfs := htail _ _ heq
      obtain ⟨hinserting, hclearing⟩ := not_inserting_of_rests (s := s) hfs
      refine hs.keep rfl rfl rfl rfl ?_ (fun f hf => hfs f (List.mem_of_mem_tail hf)) ?_ hinserting
        hclearing
      · rw [heq]
        simp
      · rw [heq]
        simp [Inserting]
  | drop s' fs heq =>
      refine release_owned hs (htail _ _ heq) ?_ (fun hne => ?_) ?_
      · rw [heq]
        simp [Inserting]
      · rw [heq]
        simp [Ne.symm hne]
      · rintro rfl
        have hheld := hs.held {t}
        rw [Finset.sum_singleton, heq, List.count_cons_self] at hheld
        refine ⟨rfl, rfl, ?_, Or.inl rfl, fun hzero => ?_⟩
        · rw [heq, List.count_cons_self]
          dsimp only
          omega
        · have hkeeps := keepsCoroutine_of_owned h t
          simp only [Server.KeepsCoroutine, Server.releasing, heq] at hkeeps
          exact hkeeps hzero

/-- No `HandleWrite` fails before the coroutine of its session has ended. -/
def NoFailedWrite (c : Server ι σ) : Event ι σ → Prop
  | .server (.write_error _ s) =>
      (c.sess s).coroutine = false ∧ (c.sess s).accept_handler = false
  | .server (.accept _ _) | .server (.accept_error _ _) | .server (.receive _ _)
  | .server (.co_return _ _) | .server (.send _ _) | .server (.write_ok _ _ _)
  | .server (.deal _ _) | .server (.step _) | .resume _ _ => True

/-- Every event but a failed write leaves the coroutine an owner: it is the map or a handler under
way. -/
theorem owned_event {e : Event ι σ} (h : ∀ s, c.Owned s) (hfail : NoFailedWrite c e)
    (hstep : c.event e = some d) (s : σ) : d.Owned s := by
  rcases event_cases hstep with ⟨a, rfl, ha⟩ | ⟨t, s', rfl, rfl, -⟩
  · cases a with
    | step t => exact advance_owned h ha s
    | write_error t s' =>
        refine take_owned (h s) (fun u v heq => ?_) rfl ha
        cases heq
        exact hfail
    | _ => exact take_owned (h s) (by intro u v heq; cases heq) rfl ha
  · exact h s

end Owned

/-- **Only a failed write does it**: in every run in which no `HandleWrite` fails before the
coroutine of its session has ended, no session loses its last owner while its coroutine is
suspended, and so every coroutine is resumed on a live session. -/
theorem resumed_alive (es : List (Event ι σ)) (c : Server ι σ)
    (hrun : (coroutines ι σ).exec (coroutines ι σ).init es = some c)
    (hfail : (coroutines ι σ).Always NoFailedWrite (coroutines ι σ).init es) :
    (coroutines ι σ).Always KeepsCoroutine (coroutines ι σ).init es ∧
      (coroutines ι σ).Always ResumedAlive (coroutines ι σ).init es := by
  have hkeeps : (coroutines ι σ).Always KeepsCoroutine (coroutines ι σ).init es := by
    refine (coroutines ι σ).always_of_always (I := fun c => ∀ s, c.Owned s) ?_
      (fun _ => owned_init) hfail hrun
    intro c e d howned hfail hstep
    refine ⟨?_, owned_event howned hfail hstep⟩
    cases e with
    | server a =>
        cases a with
        | step t => exact keepsCoroutine_of_owned howned t
        | _ => exact trivial
    | resume t s => exact trivial
  exact ⟨hkeeps, always_resumedAlive hrun hkeeps⟩

end BoostNet.CServer
