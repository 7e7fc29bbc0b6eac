/-
The session table of Network/asyncServer and of Network/coroutineServer: who is in
`_sessions` once `ClearSession` has been called for it.

In both servers the accept handler starts the session and inserts it afterwards. The
session's reads run on another thread's `io_context`, so they can fail, and clear the
session, before it is inserted; nobody clears it again then. An insert and an erase are
one step each.

For asyncServer the model has the acceptor's thread, the handlers of each session on the
I/O threads, and the logic thread, whose callbacks call `Send`; for coroutineServer it is
that of `CServerCoroutine`, with the history of the calls of `ClearSession`. The sessions of
asyncServer are numbered as they are made and stand for their random uuids.

* `no_zombie`: in a run that inserts no session for which `ClearSession` has been
  executed, no such session is in the table afterwards, in either server.
* `zombie`: a read that fails before the insert.
-/
import BoostNet.CServerCoroutine

set_option autoImplicit false

namespace BoostNet.SessionTable

/-! ## A table and the history of its erasures -/

section Table

variable {κ : Type*} [DecidableEq κ]

omit [DecidableEq κ] in
/-- Who is in the table was not cleared. -/
def Live (table cleared : κ → Bool) : Prop := ∀ k, table k = true → cleared k = false

/-- What a step does to the table and to the history. `ins` says who is inserted. -/
inductive TableStep (ins : κ → Prop) (table cleared table' cleared' : κ → Bool) : Prop where
  | same (ht : table' = table) (hc : cleared' = cleared)
  | insert (k : κ) (hk : ins k) (ht : table' = Function.update table k true)
      (hc : cleared' = cleared)
  | clear (k : κ) (ht : table' = Function.update table k false)
      (hc : cleared' = Function.update cleared k true)

/-- An insert of someone who was not cleared, and every erase, leaves the table live. -/
theorem Live.step {ins : κ → Prop} {table cleared table' cleared' : κ → Bool}
    (h : Live table cleared) (hstep : TableStep ins table cleared table' cleared')
    (hins : ∀ k, ins k → cleared k = false) : Live table' cleared' := by
  cases hstep with
  | same ht hc =>
      rw [ht, hc]
      exact h
  | insert k hk ht hc =>
      intro j hj
      rw [hc]
      by_cases heq : j = k
      · rw [heq]
        exact hins k hk
      · rw [ht, Function.update_of_ne heq] at hj
        exact h j hj
  | clear k ht hc =>
      intro j hj
      by_cases heq : j = k
      · rw [ht, heq, Function.update_self] at hj
        cases hj
      · rw [ht, Function.update_of_ne heq] at hj
        rw [hc, Function.update_of_ne heq]
        exact h j hj

end Table

/-! ## asyncServer -/

/-- Where the acceptor's thread is: in `async_accept`, or before a statement of
`handle_accept`. -/
inductive Acceptor where
  | accepting
  | start
  | insert
  | start_accept
  deriving DecidableEq

/-- The asynchronous operations of a session that have not completed, its send queue, and
the `LogicNode`s that wait for the logic thread. -/
structure Session where
  reading : Bool := false
  writing : Bool := false
  send_que : Nat := 0
  logic_nodes : Nat := 0
  deriving DecidableEq

/-- `CServer`. `new_session` is the session the accept handler is bound to; the ones
before it are those whose `handle_accept` has returned. -/
structure Server where
  acceptor : Acceptor := .accepting
  new_session : Nat := 0
  sess : Nat → Session := fun _ => {}
  sessions : Nat → Bool := fun _ => false
  /-- `ClearSession` has been executed. -/
  cleared : Nat → Bool := fun _ => false

inductive Action where
  | accept
  | accept_error
  /-- The next statement of `handle_accept`. -/
  | handle_accept
  /-- `HandleRead` posts so many messages and arms the next read. -/
  | read (k posts : Nat)
  /-- `HandleRead` finds an invalid header. -/
  | read_invalid (k : Nat)
  | read_error (k : Nat)
  /-- The logic thread takes a node of the session, and its callback may reply. -/
  | deal (k : Nat) (reply : Bool)
  | write (k : Nat)
  | write_error (k : Nat)
  deriving DecidableEq

/-- `Send`. -/
def Session.Send (x : Session) : Session :=
  { x with send_que := x.send_que + 1, writing := x.writing || x.send_que == 0 }

def Server.set (c : Server) (k : Nat) (x : Session) : Server :=
  { c with sess := Function.update c.sess k x }

/-- `ClearSession`. -/
def Server.ClearSession (c : Server) (k : Nat) : Server :=
  { c with
    sessions := Function.update c.sessions k false
    cleared := Function.update c.cleared k true }

/-- `handle_accept`. -/
def Server.handle_accept (c : Server) : Option Server :=
  match c.acceptor with
  | .accepting => none
  | .start =>
      some { c.set c.new_session { c.sess c.new_session with reading := true } with
        acceptor := .insert }
  | .insert =>
      some { c with
        sessions := Function.update c.sessions c.new_session true
        acceptor := .start_accept }
  | .start_accept => some { c with acceptor := .accepting, new_session := c.new_session + 1 }

def Server.step (c : Server) : Action → Option Server
  | .accept => if c.acceptor = .accepting then some { c with acceptor := .start } else none
  | .accept_error =>
      if c.acceptor = .accepting then some { c with acceptor := .start_accept } else none
  | .handle_accept => c.handle_accept
  | .read k posts =>
      if (c.sess k).reading then
        some (c.set k { c.sess k with logic_nodes := (c.sess k).logic_nodes + posts })
      else none
  | .read_invalid k | .read_error k =>
      if (c.sess k).reading then
        some ((c.set k { c.sess k with reading := false }).ClearSession k)
      else none
  | .deal k reply =>
      if 0 < (c.sess k).logic_nodes then
        let x := { c.sess k with logic_nodes := (c.sess k).logic_nodes - 1 }
        some (c.set k (if reply then x.Send else x))
      else none
  | .write k =>
      if (c.sess k).writing then
        some (c.set k { c.sess k with
          send_que := (c.sess k).send_que - 1
          writing := decide (1 < (c.sess k).send_que) })
      else none
  | .write_error k =>
      if (c.sess k).writing then
        some ((c.set k { c.sess k with writing := false }).ClearSession k)
      else none

def system : Lts Server Action where
  init := {}
  step := Server.step

/-- A session that was cleared, and whose `handle_accept` has returned, is not in the
table. -/
def Server.NoZombie (c : Server) : Prop :=
  ∀ k, c.cleared k = true → k < c.new_session → c.sessions k = false

/-- A session is inserted before it is cleared. -/
def InsertFirst (c : Server) : Action → Prop
  | .handle_accept => c.acceptor = .insert → c.cleared c.new_session = false
  | .accept | .accept_error | .read _ _ | .read_invalid _ | .read_error _ | .deal _ _
  | .write _ | .write_error _ => True

instance (c : Server) : ∀ a : Action, Decidable (InsertFirst c a)
  | .handle_accept =>
      inferInstanceAs (Decidable (c.acceptor = .insert → c.cleared c.new_session = false))
  | .accept | .accept_error | .read _ _ | .read_invalid _ | .read_error _ | .deal _ _
  | .write _ | .write_error _ => inferInstanceAs (Decidable True)

/-- The session that a step inserts. -/
def Server.Inserts (c : Server) (a : Action) (k : Nat) : Prop :=
  a = .handle_accept ∧ c.acceptor = .insert ∧ k = c.new_session

theorem table_step {c d : Server} {a : Action} (h : c.step a = some d) :
    TableStep (c.Inserts a) c.sessions c.cleared d.sessions d.cleared := by
  cases a with
  | handle_accept =>
      simp only [Server.step, Server.handle_accept] at h
      split at h
      · cases h
      · cases h
        exact .same rfl rfl
      · next hacc =>
          cases h
          exact .insert c.new_session ⟨rfl, hacc, rfl⟩ rfl rfl
      · cases h
        exact .same rfl rfl
  | read_invalid k =>
      obtain ⟨-, h⟩ := Option.ite_none_right_eq_some.mp h
      cases h
      exact .clear k rfl rfl
  | read_error k =>
      obtain ⟨-, h⟩ := Option.ite_none_right_eq_some.mp h
      cases h
      exact .clear k rfl rfl
  | write_error k =>
      obtain ⟨-, h⟩ := Option.ite_none_right_eq_some.mp h
      cases h
      exact .clear k rfl rfl
  | _ =>
      obtain ⟨-, h⟩ := Option.ite_none_right_eq_some.mp h
      cases h
      exact .same rfl rfl

/-! ## coroutineServer -/

section Coroutine

open CServer (Frame Sess Event)

variable {ι σ : Type*}

/-- The server, and the sessions that `ClearSession` has been executed for. -/
structure Watched (ι σ : Type*) where
  server : CServer.Server ι σ
  cleared : σ → Bool

/-- The session that the next statement of `t` erases. -/
def erasing (c : CServer.Server ι σ) (t : ι) : Option σ :=
  match c.stack t with
  | .erase s :: _ => some s
  | _ => none

section Clear

variable [DecidableEq ι] [DecidableEq σ]

/-- `ClearSession` is executed with its `erase`. -/
def Watched.clear (w : Watched ι σ) : Event ι σ → σ → Bool
  | .server (.step t) =>
      match erasing w.server t with
      | some s => Function.update w.cleared s true
      | none => w.cleared
  | .server (.accept _ _) | .server (.accept_error _ _) | .server (.receive _ _)
  | .server (.co_return _ _) | .server (.send _ _) | .server (.write_ok _ _ _)
  | .server (.write_error _ _) | .server (.deal _ _) | .resume _ _ => w.cleared

def watched (ι σ : Type*) [DecidableEq ι] [DecidableEq σ] : Lts (Watched ι σ) (Event ι σ) where
  init := ⟨(CServer.coroutines ι σ).init, fun _ => false⟩
  step w e := ((CServer.coroutines ι σ).step w.server e).map fun c => ⟨c, w.clear e⟩

end Clear

/-- `HandleAccept` has done its insert, or is never to do it. -/
def Inserted (c : CServer.Server ι σ) (s : σ) : Prop :=
  (c.sess s).accept_handler = false ∧
    ∀ t, Frame.insert_lock s ∉ c.stack t ∧ Frame.insert s ∉ c.stack t

/-- A session that was cleared, and whose `HandleAccept` has returned, is not in the
table. -/
def WatchedNoZombie (w : Watched ι σ) : Prop :=
  ∀ s, w.cleared s = true → Inserted w.server s → (w.server.sess s).in_sessions = false

/-- The session that the next statement of `t` inserts. -/
def inserting (c : CServer.Server ι σ) (t : ι) : Option σ :=
  match c.stack t with
  | .insert s :: _ => some s
  | _ => none

/-- A session is inserted before it is cleared. -/
def WatchedInsertFirst (w : Watched ι σ) : Event ι σ → Prop
  | .server (.step t) => ∀ s ∈ inserting w.server t, w.cleared s = false
  | .server (.accept _ _) | .server (.accept_error _ _) | .server (.receive _ _)
  | .server (.co_return _ _) | .server (.send _ _) | .server (.write_ok _ _ _)
  | .server (.write_error _ _) | .server (.deal _ _) | .resume _ _ => True

instance (w : Watched ι σ) : ∀ e : Event ι σ, Decidable (WatchedInsertFirst w e)
  | .server (.step t) =>
      inferInstanceAs (Decidable (∀ s ∈ inserting w.server t, w.cleared s = false))
  | .server (.accept _ _) | .server (.accept_error _ _) | .server (.receive _ _)
  | .server (.co_return _ _) | .server (.send _ _) | .server (.write_ok _ _ _)
  | .server (.write_error _ _) | .server (.deal _ _) | .resume _ _ =>
      inferInstanceAs (Decidable True)

variable [DecidableEq ι] [DecidableEq σ]

/-- The session that a step inserts. -/
def Inserts (w : Watched ι σ) (e : Event ι σ) (s : σ) : Prop :=
  ∃ t, e = .server (.step t) ∧ inserting w.server t = some s

omit [DecidableEq ι] in
/-- The table after a change of one session. -/
theorem in_sessions_update {f g : σ → Sess} {s : σ} {x : Sess} (h : g = Function.update f s x) :
    (fun s => (g s).in_sessions) =
      Function.update (fun s => (f s).in_sessions) s x.in_sessions := by
  rw [h]
  exact Function.comp_update Sess.in_sessions f s x

/-- Taking up a handler leaves the table as it is. -/
theorem take_table {c d : CServer.Server ι σ} {a : CServer.Action ι σ} {t : ι} {s : σ}
    (h : c.take a t s = some d) :
    (fun s => (d.sess s).in_sessions) = fun s => (c.sess s).in_sessions := by
  simp only [CServer.Server.take, Option.ite_none_right_eq_some, Option.map_eq_some_iff] at h
  obtain ⟨-, r, hr, rfl⟩ := h
  refine (in_sessions_update rfl).trans ?_
  rw [(CServer.start_keeps hr).2.1]
  exact Function.update_eq_self s _

theorem advance_table {w : Watched ι σ} {d : CServer.Server ι σ} {t : ι}
    (h : w.server.advance t = some d) :
    TableStep (Inserts w (.server (.step t))) (fun s => (w.server.sess s).in_sessions) w.cleared
      (fun s => (d.sess s).in_sessions) (w.clear (.server (.step t))) := by
  have hclear : (∀ s, erasing w.server t ≠ some s) → w.clear (.server (.step t)) = w.cleared := by
    intro hne
    cases he : erasing w.server t with
    | none => simp only [Watched.clear, he]
    | some s => exact absurd he (hne s)
  have herase : ∀ s fs, w.server.stack t = .erase s :: fs →
      w.clear (.server (.step t)) = Function.update w.cleared s true := by
    intro s fs hs
    simp only [Watched.clear, erasing, hs]
  cases CServer.advance_cases h with
  | insert_lock s fs hs hm => exact .same rfl (hclear (by simp [erasing, hs]))
  | clear_lock s fs hs hm => exact .same rfl (hclear (by simp [erasing, hs]))
  | unlock fs hs => exact .same rfl (hclear (by simp [erasing, hs]))
  | insert s fs hs =>
      exact .insert s ⟨t, rfl, by simp [inserting, hs]⟩ (in_sessions_update rfl)
        (hclear (by simp [erasing, hs]))
  | drop s fs hs =>
      refine .same ?_ (hclear (by simp [erasing, hs]))
      rw [in_sessions_update (CServer.release_sess _ _ _ _ _), apply_ite Sess.in_sessions, ite_self]
      exact Function.update_eq_self s _
  | erase s fs hs hin =>
      refine .clear s ?_ (herase s fs hs)
      rw [in_sessions_update (CServer.release_sess _ _ _ _ _), apply_ite Sess.in_sessions, ite_self]
  | absent s fs hs hin =>
      refine .clear s ?_ (herase s fs hs)
      exact (Function.update_eq_self_iff.mpr hin.symm).symm

theorem watched_table {w v : Watched ι σ} {e : Event ι σ} (h : (watched ι σ).step w e = some v) :
    TableStep (Inserts w e) (fun s => (w.server.sess s).in_sessions) w.cleared
      (fun s => (v.server.sess s).in_sessions) v.cleared := by
  obtain ⟨c, hc, rfl⟩ := Option.map_eq_some_iff.mp h
  rcases CServer.event_cases hc with ⟨a, rfl, ha⟩ | ⟨t, s, rfl, rfl, -⟩
  · cases a with
    | step t => exact advance_table ha
    | _ => exact .same (take_table ha) rfl
  · exact .same rfl rfl

end Coroutine

/-! ## The result -/

/-- **No zombie sessions**, in either server, in every run that inserts no session for which
`ClearSession` has been executed. `Start` is called before the insertion, and a session may be
through by then; `ClearSession` finds nothing, and what is inserted afterwards nobody erases. -/
theorem no_zombie {ι σ : Type*} [DecidableEq ι] [DecidableEq σ] (as : List Action)
    (es : List (CServer.Event ι σ)) :
    (system.Always InsertFirst system.init as → system.Along Server.NoZombie system.init as) ∧
      ((watched ι σ).Always WatchedInsertFirst (watched ι σ).init es →
        (watched ι σ).Along WatchedNoZombie (watched ι σ).init es) := by
  constructor
  · intro hG
    refine system.along_of_always (I := fun c => Live c.sessions c.cleared) ?_ ?_ nofun hG
    · intro c h k hk _
      by_contra hne
      rw [h k (by simpa using hne)] at hk
      cases hk
    · intro c a d h hG hstep
      refine h.step (table_step hstep) ?_
      rintro k ⟨rfl, hacc, rfl⟩
      exact hG hacc
  · intro hG
    refine (watched ι σ).along_of_always
      (I := fun w => Live (fun s => (w.server.sess s).in_sessions) w.cleared) ?_ ?_ nofun hG
    · intro w h s hs _
      by_contra hne
      rw [h s (by simpa using hne)] at hs
      cases hs
    · intro w e v h hG hstep
      refine h.step (watched_table hstep) ?_
      rintro s ⟨t, rfl, hs⟩
      exact hG s hs

/-- A session is inserted, its read fails, and it is cleared; the next one is accepted. -/
def clearedAfter : List Action :=
  [.accept, .handle_accept, .handle_accept, .handle_accept, .read_error 0, .accept]

theorem no_zombie_clearedAfter :
    system.Along Server.NoZombie system.init clearedAfter ∧
      (watched Unit Unit).Along WatchedNoZombie (watched Unit Unit).init
        CServer.endedFirst :=
  ⟨(no_zombie clearedAfter CServer.endedFirst).1 (by decide),
    (no_zombie clearedAfter CServer.endedFirst).2 (by decide)⟩

/-- The first read fails between `Start` and the insert. -/
theorem zombie :
    ∃ c, system.exec system.init
        [.accept, .handle_accept, .read_error 0, .handle_accept, .handle_accept] = some c ∧
      c.cleared 0 = true ∧ 0 < c.new_session ∧ c.sessions 0 = true ∧ ¬ c.NoZombie := by
  refine ⟨_, rfl, rfl, by decide, rfl, fun h => ?_⟩
  exact absurd (h 0 rfl (by decide)) (by decide)

end BoostNet.SessionTable
