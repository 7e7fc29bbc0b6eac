/-
The session table of Network/coroutineServer: `CServer::HandleAccept`,
`CServer::ClearSession`, and everything that owns a `CSession`.

`_sessions` is a map of `shared_ptr<CSession>` under the non-recursive `_mutex`.
`ClearSession` erases under the lock, and `~CSession` calls `ClearSession`. So if
the erased entry was the last owner, the destructor runs inside `erase` and locks
`_mutex` a second time on the same thread. `CSession::Start` makes a `shared_ptr`
to the session, but its coroutine does not use it and captures `this` only: from
the end of `HandleAccept` on, the map entry is the only owner of a session that
has no write in flight and no message in the logic queue.

What is modelled is ownership and the lock. A session's owners are its map entry,
the accept handler, the `HandleWrite` handlers that bind `shared_from_this()`, the
queued `LogicNode`s, and the handlers now running on some thread. A thread is its
stack of pending statements; the destructor's `ClearSession` goes on top of the
`erase` it runs inside of. `HandleAccept` does not accept again, so the code as it
stands serves one session; the model lets any number be accepted.

What is proved here: `clearSession_no_self_lock_iff`, a run never locks `_mutex`
twice exactly when every erased entry had another owner, and
`clearSession_self_locks`, the run of one session that does.
-/
import BoostNet.Lts
import Mathlib.Logic.Function.Basic
import Mathlib.Tactic.Common

set_option autoImplicit false

namespace BoostNet.CServer

variable {ι σ : Type*} [DecidableEq ι] [DecidableEq σ]

/-! ## The model -/

/-- The `shared_ptr`s to one `CSession`, by who holds them. -/
structure Sess where
  /-- The entry of `_sessions`. -/
  in_sessions : Bool := false
  /-- The handler of `async_accept`, not yet run. -/
  accept_handler : Bool := true
  /-- `HandleWrite` handlers of outstanding `async_write`s. -/
  write_handlers : Nat := 0
  /-- `LogicNode`s in the logic queue. -/
  logic_nodes : Nat := 0
  /-- Arguments of handlers that are running. -/
  held : Nat := 0
  /-- The coroutine of `Start`, which holds none. -/
  coroutine : Bool := false
  /-- `~CSession` has started. -/
  destroyed : Bool := false
  deriving DecidableEq

/-- The reference count. -/
def Sess.owners (s : Sess) : Nat :=
  s.in_sessions.toNat + s.accept_handler.toNat + s.write_handlers + s.logic_nodes + s.held

/-- A statement a thread has still to execute. -/
inductive Frame (σ : Type*) where
  /-- `HandleAccept` constructs its `lock_guard`. -/
  | insert_lock (s : σ)
  | insert (s : σ)
  /-- `ClearSession` constructs its `lock_guard`. -/
  | clear_lock (s : σ)
  | erase (s : σ)
  /-- The `lock_guard` is destroyed. -/
  | unlock
  /-- A running handler returns and its `shared_ptr` is destroyed. -/
  | drop (s : σ)
  deriving DecidableEq

/-- The statements between locking and unlocking. -/
def Frame.Inside : Frame σ → Prop
  | .insert _ | .erase _ | .unlock => True
  | _ => False

/-- The statements that lock `_mutex`. -/
def Frame.Locks : Frame σ → Prop
  | .insert_lock _ | .clear_lock _ => True
  | _ => False

/-- The server: who holds `_mutex`, the sessions, and each thread's statements. -/
structure Server (ι σ : Type*) where
  mutex : Option ι
  sess : σ → Sess
  stack : ι → List (Frame σ)

/-- Change a session and a thread's statements. -/
def Server.set (c : Server ι σ) (s : σ) (x : Sess) (t : ι) (fs : List (Frame σ)) : Server ι σ :=
  { c with sess := Function.update c.sess s x, stack := Function.update c.stack t fs }

/-- A `shared_ptr` to `s` is gone and `x` are those left. At zero `~CSession`
runs there and then: `Close()`, then `ClearSession(_uuid)`. -/
def Server.release (c : Server ι σ) (s : σ) (x : Sess) (t : ι) (fs : List (Frame σ)) :
    Server ι σ :=
  if x.owners = 0 then c.set s { x with destroyed := true } t (.clear_lock s :: fs)
  else c.set s x t fs

/-- Execute the next statement of thread `t`. A lock waits for the mutex. -/
def Server.advance (c : Server ι σ) (t : ι) : Option (Server ι σ) :=
  match c.stack t with
  | [] => none
  | .insert_lock s :: fs =>
      if c.mutex = none then
        some { c with mutex := some t, stack := Function.update c.stack t (.insert s :: fs) }
      else none
  | .insert s :: fs => some (c.set s { c.sess s with in_sessions := true } t (.unlock :: fs))
  | .clear_lock s :: fs =>
      if c.mutex = none then
        some { c with mutex := some t, stack := Function.update c.stack t (.erase s :: fs) }
      else none
  | .erase s :: fs =>
      if (c.sess s).in_sessions then
        some (c.release s { c.sess s with in_sessions := false } t (.unlock :: fs))
      else some { c with stack := Function.update c.stack t (.unlock :: fs) }
  | .unlock :: fs => some { c with mutex := none, stack := Function.update c.stack t fs }
  | .drop s :: fs => some (c.release s { c.sess s with held := (c.sess s).held - 1 } t fs)

/-- What happens to the server. A thread takes up a handler when it is idle. -/
inductive Action (ι σ : Type*) where
  /-- `HandleAccept` without an error: `Start` spawns the coroutine. -/
  | accept (t : ι) (s : σ)
  | accept_error (t : ι) (s : σ)
  /-- The coroutine posts a complete message to the logic queue. -/
  | receive (t : ι) (s : σ)
  /-- The coroutine ends: peer closed, bad header, or a read threw. It calls
  `Close` and `ClearSession`. -/
  | co_return (t : ι) (s : σ)
  /-- `Send` starts an `async_write`. -/
  | send (t : ι) (s : σ)
  /-- `HandleWrite` without an error, which starts the next write if one is queued. -/
  | write_ok (t : ι) (s : σ) (more : Bool)
  /-- `HandleWrite` with an error: `Close` and `ClearSession`. -/
  | write_error (t : ι) (s : σ)
  /-- The logic thread takes a node of the session off its queue. -/
  | deal (t : ι) (s : σ)
  /-- A busy thread goes on. -/
  | step (t : ι)

/-- What an idle thread takes up: the session afterwards and the statements to
execute, `none` where there is nothing of the kind to run. -/
def Sess.start (x : Sess) (s : σ) : Action ι σ → Option (Sess × List (Frame σ))
  | .accept _ _ =>
      if x.accept_handler then
        some ({ x with accept_handler := false, held := x.held + 1, coroutine := true },
          [.insert_lock s, .drop s])
      else none
  | .accept_error _ _ =>
      if x.accept_handler then
        some ({ x with accept_handler := false, held := x.held + 1 }, [.drop s])
      else none
  | .receive _ _ =>
      if x.coroutine ∧ 0 < x.owners then some ({ x with logic_nodes := x.logic_nodes + 1 }, [])
      else none
  | .co_return _ _ =>
      if x.coroutine then some ({ x with coroutine := false }, [.clear_lock s]) else none
  | .send _ _ =>
      if 0 < x.owners then some ({ x with write_handlers := x.write_handlers + 1 }, []) else none
  | .write_ok _ _ more =>
      if 0 < x.write_handlers then
        some ({ x with
          write_handlers := x.write_handlers - 1 + more.toNat
          held := x.held + 1 }, [.drop s])
      else none
  | .write_error _ _ =>
      if 0 < x.write_handlers then
        some ({ x with write_handlers := x.write_handlers - 1, held := x.held + 1 },
          [.clear_lock s, .drop s])
      else none
  | .deal _ _ =>
      if 0 < x.logic_nodes then
        some ({ x with logic_nodes := x.logic_nodes - 1, held := x.held + 1 }, [.drop s])
      else none
  | .step _ => none

/-- Thread `t`, idle, takes up action `a` on session `s`. -/
def Server.take (c : Server ι σ) (a : Action ι σ) (t : ι) (s : σ) : Option (Server ι σ) :=
  if c.stack t = [] then ((c.sess s).start s a).map fun r => c.set s r.1 t r.2 else none

def Server.step (c : Server ι σ) (a : Action ι σ) : Option (Server ι σ) :=
  match a with
  | .accept t s | .accept_error t s | .receive t s | .co_return t s | .send t s
  | .write_ok t s _ | .write_error t s | .deal t s => c.take a t s
  | .step t => c.advance t

/-- Every session waits in its accept handler; no thread is busy. -/
def system (ι σ : Type*) [DecidableEq ι] [DecidableEq σ] : Lts (Server ι σ) (Action ι σ) where
  init := ⟨none, fun _ => {}, fun _ => []⟩
  step := Server.step

/-! ## What a step does to the lock and the stacks

The sessions matter to the lock only through `release`, so each step is one of a
few changes of the mutex and of one thread's statements. -/

/-- The thread an action is executed by. -/
def Action.thread : Action ι σ → ι
  | .accept t _ | .accept_error t _ | .receive t _ | .co_return t _ | .send t _
  | .write_ok t _ _ | .write_error t _ | .deal t _ | .step t => t

/-- The next statement of `t` erases an entry of the map that is the last owner. -/
def Server.erasesLast (c : Server ι σ) (t : ι) : Bool :=
  match c.stack t with
  | .erase s :: _ => (c.sess s).in_sessions && (c.sess s).owners == 1
  | _ => false

omit [DecidableEq ι] [DecidableEq σ] in
/-- The dangerous step: `erase` drops the last owner of a session that is still in the map. -/
theorem erasesLast_iff {c : Server ι σ} {t : ι} :
    c.erasesLast t = true ↔
      ∃ s fs, c.stack t = .erase s :: fs ∧ (c.sess s).in_sessions = true ∧
        (c.sess s).owners = 1 := by
  unfold Server.erasesLast
  cases hs : c.stack t with
  | nil => simp
  | cons f fs => cases f <;> simp

/-- How a step changes the lock and the statements of its thread. -/
inductive Change (c d : Server ι σ) (t : ι) : Prop where
  /-- A handler is taken up: no statement of it is inside the lock. -/
  | take (hidle : c.stack t = []) (hm : d.mutex = c.mutex) (ho : ∀ f ∈ d.stack t, ¬ f.Inside)
  | lock (f g : Frame σ) (fs : List (Frame σ)) (hs : c.stack t = f :: fs) (hf : f.Locks)
      (hm : c.mutex = none) (hd : d.mutex = some t) (hg : g.Inside) (hds : d.stack t = g :: fs)
  /-- The table is changed and the thread is about to unlock. -/
  | table (f : Frame σ) (fs : List (Frame σ)) (hs : c.stack t = f :: fs) (hf : f.Inside)
      (hm : d.mutex = c.mutex) (hds : d.stack t = .unlock :: fs) (hl : c.erasesLast t = false)
  /-- The erased entry was the last owner: the destructor is about to lock. -/
  | destruct (s : σ) (fs : List (Frame σ)) (hs : c.stack t = .erase s :: fs)
      (hm : d.mutex = c.mutex) (hds : d.stack t = .clear_lock s :: .unlock :: fs)
      (hl : c.erasesLast t = true)
  | unlock (fs : List (Frame σ)) (hs : c.stack t = .unlock :: fs) (hm : d.mutex = none)
      (hds : d.stack t = fs)
  /-- A handler returns, and its destructor call, if any, is outside the lock. -/
  | drop (s : σ) (fs : List (Frame σ)) (hs : c.stack t = .drop s :: fs) (hm : d.mutex = c.mutex)
      (hds : d.stack t = fs ∨ d.stack t = .clear_lock s :: fs)

omit [DecidableEq ι] [DecidableEq σ] in
/-- A handler that starts holds no lock. -/
theorem start_not_inside {x y : Sess} {s : σ} {a : Action ι σ} {fs : List (Frame σ)}
    (h : x.start s a = some (y, fs)) : ∀ f ∈ fs, ¬ f.Inside := by
  cases a <;> simp only [Sess.start, Option.ite_none_right_eq_some, Option.some.injEq,
    Prod.mk.injEq, reduceCtorEq] at h
  all_goals
    obtain ⟨-, -, rfl⟩ := h
    simp [Frame.Inside]

/-- A thread that takes a handler changes its own stack only. -/
theorem take_change {c d : Server ι σ} {a : Action ι σ} {t : ι} {s : σ}
    (h : c.take a t s = some d) :
    (∀ u, u ≠ t → d.stack u = c.stack u) ∧ Change c d t := by
  simp only [Server.take, Option.ite_none_right_eq_some, Option.map_eq_some_iff] at h
  obtain ⟨hidle, r, hr, rfl⟩ := h
  refine ⟨fun u hu => Function.update_of_ne hu _ _, .take hidle rfl ?_⟩
  have hnot : ∀ f ∈ r.2, ¬ f.Inside := start_not_inside hr
  simpa [Server.set] using hnot

/-- `release` touches no lock; at the last owner it puts the destructor's
`ClearSession` on top. -/
theorem release_stack (c : Server ι σ) (s : σ) (x : Sess) (t : ι) (fs : List (Frame σ)) :
    (c.release s x t fs).mutex = c.mutex ∧
      (∀ u, u ≠ t → (c.release s x t fs).stack u = c.stack u) ∧
      (c.release s x t fs).stack t = if x.owners = 0 then .clear_lock s :: fs else fs := by
  unfold Server.release
  by_cases h : x.owners = 0
  · rw [if_pos h, if_pos h]
    exact ⟨rfl, fun u hu => Function.update_of_ne hu _ _, Function.update_self t _ c.stack⟩
  · rw [if_neg h, if_neg h]
    exact ⟨rfl, fun u hu => Function.update_of_ne hu _ _, Function.update_self t _ c.stack⟩

/-- Without its map entry a session has one owner less. -/
theorem owners_erase {x : Sess} (h : x.in_sessions = true) :
    x.owners = ({ x with in_sessions := false } : Sess).owners + 1 := by
  simp only [Sess.owners, h, Bool.toNat_true, Bool.toNat_false]
  omega

/-- What the next statement of a busy thread does. -/
inductive Advance (c : Server ι σ) (t : ι) : Server ι σ → Prop where
  | insert_lock (s : σ) (fs : List (Frame σ)) (hs : c.stack t = .insert_lock s :: fs)
      (hm : c.mutex = none) :
      Advance c t
        { c with mutex := some t, stack := Function.update c.stack t (.insert s :: fs) }
  | insert (s : σ) (fs : List (Frame σ)) (hs : c.stack t = .insert s :: fs) :
      Advance c t (c.set s { c.sess s with in_sessions := true } t (.unlock :: fs))
  | clear_lock (s : σ) (fs : List (Frame σ)) (hs : c.stack t = .clear_lock s :: fs)
      (hm : c.mutex = none) :
      Advance c t
        { c with mutex := some t, stack := Function.update c.stack t (.erase s :: fs) }
  | erase (s : σ) (fs : List (Frame σ)) (hs : c.stack t = .erase s :: fs)
      (hin : (c.sess s).in_sessions = true) :
      Advance c t (c.release s { c.sess s with in_sessions := false } t (.unlock :: fs))
  /-- There is no entry to erase. -/
  | absent (s : σ) (fs : List (Frame σ)) (hs : c.stack t = .erase s :: fs)
      (hin : (c.sess s).in_sessions = false) :
      Advance c t { c with stack := Function.update c.stack t (.unlock :: fs) }
  | unlock (fs : List (Frame σ)) (hs : c.stack t = .unlock :: fs) :
      Advance c t { c with mutex := none, stack := Function.update c.stack t fs }
  | drop (s : σ) (fs : List (Frame σ)) (hs : c.stack t = .drop s :: fs) :
      Advance c t (c.release s { c.sess s with held := (c.sess s).held - 1 } t fs)

/-- All that one step of a thread can do. The frame on the top decides which case it is. -/
theorem advance_cases {c d : Server ι σ} {t : ι} (h : c.advance t = some d) : Advance c t d := by
  unfold Server.advance at h
  cases hs : c.stack t with
  | nil => simp [hs] at h
  | cons f fs =>
      cases f with
      | insert_lock s =>
          simp only [hs, Option.ite_none_right_eq_some, Option.some.injEq] at h
          obtain ⟨hm, rfl⟩ := h
          exact .insert_lock s fs hs hm
      | clear_lock s =>
          simp only [hs, Option.ite_none_right_eq_some, Option.some.injEq] at h
          obtain ⟨hm, rfl⟩ := h
          exact .clear_lock s fs hs hm
      | insert s =>
          simp only [hs, Option.some.injEq] at h
          subst h
          exact .insert s fs hs
      | unlock =>
          simp only [hs, Option.some.injEq] at h
          subst h
          exact .unlock fs hs
      | drop s =>
          simp only [hs, Option.some.injEq] at h
          subst h
          exact .drop s fs hs
      | erase s =>
          simp only [hs] at h
          by_cases hin : (c.sess s).in_sessions = true
          · rw [if_pos hin, Option.some.injEq] at h
            subst h
            exact .erase s fs hs hin
          · rw [if_neg hin, Option.some.injEq] at h
            subst h
            exact .absent s fs hs (by simpa using hin)

/-- In each of the cases only the thread's own stack changes. -/
theorem advance_change {c d : Server ι σ} {t : ι} (h : c.advance t = some d) :
    (∀ u, u ≠ t → d.stack u = c.stack u) ∧ Change c d t := by
  cases advance_cases h with
  | insert_lock s fs hs hm =>
      exact ⟨fun u hu => Function.update_of_ne hu _ _,
        .lock _ (.insert s) fs hs trivial hm rfl trivial (Function.update_self t _ c.stack)⟩
  | clear_lock s fs hs hm =>
      exact ⟨fun u hu => Function.update_of_ne hu _ _,
        .lock _ (.erase s) fs hs trivial hm rfl trivial (Function.update_self t _ c.stack)⟩
  | insert s fs hs =>
      refine ⟨fun u hu => Function.update_of_ne hu _ _,
        .table _ fs hs trivial rfl (Function.update_self t _ c.stack) ?_⟩
      simp [Server.erasesLast, hs]
  | unlock fs hs =>
      exact ⟨fun u hu => Function.update_of_ne hu _ _,
        .unlock fs hs rfl (Function.update_self t _ c.stack)⟩
  | drop s fs hs =>
      obtain ⟨hm, hu, ht⟩ := release_stack c s
        { c.sess s with held := (c.sess s).held - 1 } t fs
      refine ⟨hu, .drop s fs hs hm ?_⟩
      split at ht
      · exact Or.inr ht
      · exact Or.inl ht
  | erase s fs hs hin =>
      obtain ⟨hm, hu, ht⟩ := release_stack c s
        { c.sess s with in_sessions := false } t (.unlock :: fs)
      refine ⟨hu, ?_⟩
      -- the map's share is gone; whether it was the last decides the case
      have hown := owners_erase hin
      by_cases hzero : ({ c.sess s with in_sessions := false } : Sess).owners = 0
      · rw [if_pos hzero] at ht
        refine .destruct s fs hs hm ht (erasesLast_iff.mpr ⟨s, fs, hs, hin, ?_⟩)
        rw [hown, hzero]
      · rw [if_neg hzero] at ht
        refine .table _ fs hs trivial hm ht ?_
        simp only [Server.erasesLast, hs, hin, hown, Bool.true_and]
        simpa using hzero
  | absent s fs hs hin =>
      refine ⟨fun u hu => Function.update_of_ne hu _ _,
        .table _ fs hs trivial rfl (Function.update_self t _ c.stack) ?_⟩
      simp [Server.erasesLast, hs, hin]

/-- And so in every action. -/
theorem step_change {c d : Server ι σ} {a : Action ι σ} (h : (system ι σ).step c a = some d) :
    (∀ u, u ≠ a.thread → d.stack u = c.stack u) ∧ Change c d a.thread := by
  cases a with
  | step t => exact advance_change h
  | _ => exact take_change h

/-! ## The contract of the table's lock -/

/-- No thread that holds `_mutex` is about to lock it, and the one that holds it
can go on. -/
structure Server.NoSelfLock (c : Server ι σ) : Prop where
  no_lock : ∀ t f fs, c.mutex = some t → c.stack t = f :: fs → ¬ f.Locks
  goes_on : ∀ t, c.mutex = some t → ∃ d, c.advance t = some d

/-- The step does not erase the last owner of a session. -/
def KeepsOwner (c : Server ι σ) : Action ι σ → Prop
  | .step t => c.erasesLast t = false
  | .accept _ _ | .accept_error _ _ | .receive _ _ | .co_return _ _ | .send _ _
  | .write_ok _ _ _ | .write_error _ _ | .deal _ _ => True

instance (c : Server ι σ) (a : Action ι σ) : Decidable (KeepsOwner c a) :=
  match a with
  | .step t => inferInstanceAs (Decidable (c.erasesLast t = false))
  | .accept _ _ | .accept_error _ _ | .receive _ _ | .co_return _ _ | .send _ _
  | .write_ok _ _ _ | .write_error _ _ | .deal _ _ => inferInstanceAs (Decidable True)

/-- The thread inside the lock holds it, and nothing below the top of a stack is
inside it. -/
structure Inv (c : Server ι σ) : Prop where
  top : ∀ t f fs, c.stack t = f :: fs → (f.Inside ↔ c.mutex = some t)
  below : ∀ t f fs, c.stack t = f :: fs → ∀ g ∈ fs, ¬ g.Inside
  idle : ∀ t, c.stack t = [] → c.mutex ≠ some t

/-- At first no thread is inside. -/
theorem inv_init : Inv (system ι σ).init :=
  ⟨fun _ _ _ h => (List.cons_ne_nil _ _ h.symm).elim,
    fun _ _ _ h => (List.cons_ne_nil _ _ h.symm).elim, fun _ _ => Option.some_ne_none _ ∘ Eq.symm⟩

/-- A frame inside the lock can be executed. -/
theorem advance_inside {c : Server ι σ} {t : ι} {f : Frame σ} {fs : List (Frame σ)}
    (hs : c.stack t = f :: fs) (hf : f.Inside) : ∃ d, c.advance t = some d := by
  unfold Server.advance
  cases f with
  | insert_lock s => exact hf.elim
  | clear_lock s => exact hf.elim
  | drop s => exact hf.elim
  | insert s => simp [hs]
  | unlock => simp [hs]
  | erase s =>
      simp only [hs]
      split
      · exact ⟨_, rfl⟩
      · exact ⟨_, rfl⟩

omit [DecidableEq ι] [DecidableEq σ] in
/-- A frame that holds the mutex is past its lock. -/
theorem not_locks_of_inside {f : Frame σ} (h : f.Inside) : ¬ f.Locks := by
  cases f <;> simp_all [Frame.Inside, Frame.Locks]

/-- A thread that is about to lock the mutex does not hold it. -/
theorem Inv.noSelfLock {c : Server ι σ} (h : Inv c) : c.NoSelfLock := by
  refine ⟨fun t f fs hm hs => not_locks_of_inside ((h.top t f fs hs).mpr hm), fun t hm => ?_⟩
  cases hs : c.stack t with
  | nil => exact absurd hm (h.idle t hs)
  | cons f fs => exact advance_inside hs ((h.top t f fs hs).mpr hm)

omit [DecidableEq ι] [DecidableEq σ] in
/-- Only the thread inside the lock holds it. -/
theorem Inv.not_inside {c : Server ι σ} (h : Inv c) {t u : ι} (hm : c.mutex = some t)
    (hu : u ≠ t) : ∀ g ∈ c.stack u, ¬ g.Inside := by
  cases hs : c.stack u with
  | nil => simp
  | cons f fs =>
      intro g hg
      rcases List.mem_cons.mp hg with rfl | hg
      · intro hin
        have heq := (h.top u g fs hs).mp hin
        rw [hm, Option.some.injEq] at heq
        exact hu heq.symm
      · exact h.below u f fs hs g hg

omit [DecidableEq σ] in
/-- How the invariant passes to a state in which only thread `t` moved. -/
theorem Inv.of_thread {c d : Server ι σ} (hc : Inv c) {t : ι}
    (hother : ∀ u, u ≠ t → d.stack u = c.stack u)
    (hmutex : ∀ u, u ≠ t → (d.mutex = some u ↔ c.mutex = some u))
    (htop : ∀ f fs, d.stack t = f :: fs → (f.Inside ↔ d.mutex = some t))
    (hbelow : ∀ f fs, d.stack t = f :: fs → ∀ g ∈ fs, ¬ g.Inside)
    (hidle : d.stack t = [] → d.mutex ≠ some t) : Inv d := by
  refine ⟨fun u f fs hs => ?_, fun u f fs hs => ?_, fun u hs => ?_⟩
  · by_cases hu : u = t
    · subst hu
      exact htop f fs hs
    · rw [hother u hu] at hs
      rw [hmutex u hu]
      exact hc.top u f fs hs
  · by_cases hu : u = t
    · subst hu
      exact hbelow f fs hs
    · rw [hother u hu] at hs
      exact hc.below u f fs hs
  · by_cases hu : u = t
    · subst hu
      exact hidle hs
    · rw [hother u hu] at hs
      rw [Ne, hmutex u hu]
      exact hc.idle u hs

/-- The invariant is kept as long as `erase` does not drop the last owner. -/
theorem inv_step {c d : Server ι σ} {a : Action ι σ} (hc : Inv c) (hG : KeepsOwner c a)
    (h : (system ι σ).step c a = some d) : Inv d := by
  obtain ⟨hother, hch⟩ := step_change h
  generalize ht : a.thread = t at hother hch
  cases hch with
  | take hidle hm ho =>
      -- a handler starts on an idle thread, outside the lock
      have hnot := hc.idle t hidle
      refine hc.of_thread hother (fun u _ => by rw [hm]) (fun f fs hs => ?_)
        (fun f fs hs g hg => ?_) (fun _ => by rw [hm]; exact hnot)
      · rw [hs] at ho
        rw [hm]
        exact ⟨fun hin => absurd hin (ho f (by simp)), fun heq => absurd heq hnot⟩
      · rw [hs] at ho
        exact ho g (List.mem_cons_of_mem _ hg)
  | lock f g fs hs hf hm hd hg hds =>
      -- the thread gets the mutex: its next statement is the one inside
      have hbelow := hc.below t f fs hs
      refine hc.of_thread hother (fun u hu => ?_) (fun f' fs' hs' => ?_)
        (fun f' fs' hs' => ?_) (fun hs' => ?_)
      · rw [hm, hd]
        simp [Ne.symm hu]
      · rw [hds, List.cons.injEq] at hs'
        obtain ⟨rfl, rfl⟩ := hs'
        exact ⟨fun _ => hd, fun _ => hg⟩
      · rw [hds, List.cons.injEq] at hs'
        obtain ⟨rfl, rfl⟩ := hs'
        exact hbelow
      · rw [hds] at hs'
        cases hs'
  | table f fs hs hf hm hds hl =>
      -- the table changes inside the lock, and no destructor runs
      have hheld := (hc.top t f fs hs).mp hf
      have hbelow := hc.below t f fs hs
      refine hc.of_thread hother (fun u _ => by rw [hm]) (fun f' fs' hs' => ?_)
        (fun f' fs' hs' => ?_) (fun hs' => ?_)
      · rw [hds, List.cons.injEq] at hs'
        obtain ⟨rfl, rfl⟩ := hs'
        rw [hm]
        exact ⟨fun _ => hheld, fun _ => trivial⟩
      · rw [hds, List.cons.injEq] at hs'
        obtain ⟨rfl, rfl⟩ := hs'
        exact hbelow
      · rw [hds] at hs'
        cases hs'
  | destruct s fs hs hm hds hl =>
      -- the step erases the last owner, which a good step does not
      cases a with
      | step u =>
          obtain rfl : u = t := ht
          exact absurd (hl.symm.trans hG) Bool.noConfusion
      | _ =>
          exfalso
          simp only [system, Server.step, Server.take, Option.ite_none_right_eq_some] at h
          rw [Action.thread] at ht
          subst ht
          rw [h.1] at hs
          cases hs
  | unlock fs hs hm hds =>
      -- what is below `unlock` on the stack is outside the lock
      have hheld := (hc.top t _ fs hs).mp trivial
      have hbelow := hc.below t _ fs hs
      refine hc.of_thread hother (fun u hu => ?_) (fun f' fs' hs' => ?_)
        (fun f' fs' hs' g hg => ?_) (fun _ => by simp [hm])
      · rw [hm, hheld]
        simp [Ne.symm hu]
      · rw [hds] at hs'
        rw [hm]
        exact ⟨fun hin => absurd hin (hbelow f' (by simp [hs'])), fun heq => by cases heq⟩
      · rw [hds] at hs'
        exact hbelow g (by simp [hs', hg])
  | drop s fs hs hm hds =>
      -- a handler ends outside the lock, so the destructor it may run can lock
      have hnot : c.mutex ≠ some t := fun heq => (hc.top t _ fs hs).mpr heq
      have hbelow := hc.below t _ fs hs
      refine hc.of_thread hother (fun u _ => by rw [hm]) (fun f' fs' hs' => ?_)
        (fun f' fs' hs' g hg => ?_) (fun _ => by rw [hm]; exact hnot)
      · rw [hm]
        refine ⟨fun hin => ?_, fun heq => absurd heq hnot⟩
        rcases hds with hds | hds
        · rw [hds] at hs'
          exact absurd hin (hbelow f' (by simp [hs']))
        · rw [hds, List.cons.injEq] at hs'
          rw [← hs'.1] at hin
          exact hin.elim
      · rcases hds with hds | hds
        · rw [hds] at hs'
          exact hbelow g (by simp [hs', hg])
        · rw [hds, List.cons.injEq] at hs'
          exact hbelow g (by rw [hs'.2]; exact hg)

/-! ## The self-deadlock

The thread that locks a second time waits for itself; nobody else can unlock. -/

def SelfLocked (c : Server ι σ) : Prop :=
  ∃ t s fs, c.mutex = some t ∧ c.stack t = .clear_lock s :: fs ∧
    ∀ u, u ≠ t → ∀ g ∈ c.stack u, ¬ g.Inside

/-- A thread that waits for its own lock contradicts the claim of the comment. -/
theorem SelfLocked.not_noSelfLock {c : Server ι σ} (h : SelfLocked c) : ¬ c.NoSelfLock := by
  obtain ⟨t, s, fs, hm, hs, -⟩ := h
  exact fun hno => hno.no_lock t _ fs hm hs trivial

/-- Dropping the last owner inside of the lock runs the destructor, and that locks again. -/
theorem selfLocked_of_erase {c d : Server ι σ} {a : Action ι σ} (hc : Inv c)
    (hG : ¬ KeepsOwner c a) (h : (system ι σ).step c a = some d) : SelfLocked d := by
  cases a with
  | step t =>
      have hl : c.erasesLast t = true := by simpa [KeepsOwner] using hG
      obtain ⟨hother, hch⟩ := step_change h
      obtain ⟨s, fs, hs, -, -⟩ := erasesLast_iff.mp hl
      have hheld : c.mutex = some t := (hc.top t _ fs hs).mp trivial
      cases hch with
      | destruct s' fs' hs' hm hds hl' =>
          refine ⟨t, s', .unlock :: fs', by rw [hm]; exact hheld, hds, fun u hu => ?_⟩
          rw [hother u hu]
          exact hc.not_inside hheld hu
      | table f fs' hs' hf hm hds hl' => exact absurd (hl.symm.trans hl') Bool.noConfusion
      | take hidle => simp [Action.thread, hs] at hidle
      | lock f g fs' hs' hf =>
          obtain ⟨rfl, -⟩ : Frame.erase s = f ∧ fs = fs' := by
            simpa [Action.thread, hs] using hs'
          exact hf.elim
      | unlock fs' hs' => simp [Action.thread, hs] at hs'
      | drop s' fs' hs' => simp [Action.thread, hs] at hs'
  | _ => exact absurd trivial hG

/-- The thread never gets out of there: its next step is the lock that it holds. -/
theorem selfLocked_step {c d : Server ι σ} {a : Action ι σ} (hc : SelfLocked c)
    (h : (system ι σ).step c a = some d) : SelfLocked d := by
  obtain ⟨t, s, fs, hm, hs, hu⟩ := hc
  obtain ⟨hother, hch⟩ := step_change h
  generalize a.thread = v at hother hch
  -- the step is another thread's: `t` waits for the mutex it holds
  have hvt : v ≠ t := by
    rintro rfl
    cases hch with
    | take hidle => simp [hs] at hidle
    | lock f g fs' hs' hf hm' => simp [hm] at hm'
    | table f fs' hs' hf =>
        obtain ⟨rfl, -⟩ : Frame.clear_lock s = f ∧ fs = fs' := by simpa [hs] using hs'
        exact hf.elim
    | destruct s' fs' hs' => simp [hs] at hs'
    | unlock fs' hs' => simp [hs] at hs'
    | drop s' fs' hs' => simp [hs] at hs'
  have hkeep : ∀ w, w ≠ t → w ≠ v → ∀ g ∈ d.stack w, ¬ g.Inside := by
    intro w hwt hwv
    rw [hother w hwv]
    exact hu w hwt
  have hdone : d.mutex = c.mutex → (∀ g ∈ d.stack v, ¬ g.Inside) → SelfLocked d := by
    intro hmd hv
    refine ⟨t, s, fs, by rw [hmd]; exact hm, by rw [hother t (Ne.symm hvt)]; exact hs, ?_⟩
    intro w hwt
    by_cases hwv : w = v
    · rw [hwv]
      exact hv
    · exact hkeep w hwt hwv
  cases hch with
  | take hidle hmd ho => exact hdone hmd ho
  | lock f g fs' hs' hf hm' => simp [hm] at hm'
  | table f fs' hs' hf => exact absurd hf (hu v hvt f (by simp [hs']))
  | destruct s' fs' hs' => exact absurd trivial (hu v hvt (.erase s') (by simp [hs']))
  | unlock fs' hs' => exact absurd trivial (hu v hvt .unlock (by simp [hs']))
  | drop s' fs' hs' hmd hds =>
      apply hdone hmd
      intro g hg
      have hfs : ∀ g ∈ fs', ¬ g.Inside := fun g hg => hu v hvt g (by simp [hs', hg])
      rcases hds with hds | hds
      · exact hfs g (by rwa [hds] at hg)
      · rw [hds] at hg
        rcases List.mem_cons.mp hg with rfl | hg
        · exact id
        · exact hfs g hg

/-! ## The result -/

/-- **The session table never locks itself out**, over every run and any number of sessions and
threads, exactly when no `erase` of the run removes the last owner of a session. `ClearSession`
erases under `_mutex`, the last owner runs `~CSession`, and that calls `ClearSession` again:
`std::mutex` is not recursive. -/
theorem clearSession_no_self_lock_iff (as : List (Action ι σ)) (c : Server ι σ)
    (hrun : (system ι σ).exec (system ι σ).init as = some c) :
    (system ι σ).Along Server.NoSelfLock (system ι σ).init as ↔
      (system ι σ).Always KeepsOwner (system ι σ).init as := by
  refine ⟨fun halong => ?_, fun hG => ?_⟩
  · exact (system ι σ).always_of_trap (fun _ _ _ hc hG h => inv_step hc hG h)
      (fun _ _ _ hc hG h => selfLocked_of_erase hc hG h)
      (fun _ _ _ hc h => selfLocked_step hc h) inv_init hrun
      (fun hs => hs.not_noSelfLock (halong.last _ hrun))
  · exact (system ι σ).along_of_always (fun _ hc => hc.noSelfLock)
      (fun _ _ _ hc hG h => inv_step hc hG h) inv_init hG

/-- A session is accepted and inserted; the accept handler returns. -/
def accepted : List (Action Unit Unit) :=
  [.accept () (), .step (), .step (), .step (), .step ()]

/-- The session's message is still with the logic thread when its coroutine
clears it; the logic thread then drops the last owner, outside the lock. -/
def clearedWhileQueued : List (Action Unit Unit) :=
  accepted ++ [.receive () (), .co_return () (), .step (), .step (), .step (), .deal () (),
    .step (), .step (), .step (), .step ()]

theorem clearSession_no_self_lock_iff_queued :
    (system Unit Unit).Along Server.NoSelfLock (system Unit Unit).init clearedWhileQueued := by
  exact (clearSession_no_self_lock_iff clearedWhileQueued _ rfl).mpr (by decide)

/-- The peer of an accepted, idle session disconnects: the read throws, the
coroutine calls `ClearSession`, the erased entry was the last owner, and the
thread waits for the mutex it holds. -/
theorem clearSession_self_locks :
    ∃ c, (system Unit Unit).exec (system Unit Unit).init
        (accepted ++ [.co_return () (), .step (), .step ()]) = some c ∧
      c.mutex = some () ∧ c.stack () = [.clear_lock (), .unlock] ∧ ¬ c.NoSelfLock := by
  refine ⟨_, rfl, rfl, rfl, fun h => ?_⟩
  exact h.no_lock () _ _ rfl rfl trivial

end BoostNet.CServer
