/-
Posted messages of Network/asyncServer between `PostMsgToQue` and the callback: what
`DealMsg` reads of a node against what the session posted.

After `PostMsgToQue` the branch of `HandleRead` that continues a body calls `Clear` on
the node it has just posted, and the logic thread may still have to read it. The other
branch leaves its node alone.

* `calls_right`: over every interleaving of any number of sessions with `DealMsg`, the
  callbacks get the bodies that were posted, if `DealMsg` never reads what `Clear` has
  overwritten in a node posted by the branch that continues a body.
* `call_empty`: a run in which it does.
-/
import BoostNet.LogicSystem
import BoostNet.Threads

set_option autoImplicit false

namespace BoostNet.LogicSystem

open CSession

/-! ## The condition and the property -/

/-- The callbacks got what was posted. -/
def CallsRight {ι : Type*} (s : Sys ι) : Prop := ∀ c ∈ s.calls, c.msg_data = c.posted

/-- What `DealMsg` reads of a node posted by the branch that continues a body is not yet
cleared, or looked so before. -/
def Undisturbed {ι : Type*} (s : Sys ι) (a : Action ι) : Prop :=
  a = .worker → ∀ f ∈ s.front, f.1.path = .continuation →
    match s.worker with
    | .cur_len _ => f.2.reset = false ∨ f.1.posted.string = []
    | .data _ _ => f.2.erased = false ∨ ∀ b ∈ f.1.posted.string, b = 0
    | .lock | .predicate | .waiting | .b_stop | .front _ | .pop _ | .exited => True

instance {ι : Type*} [DecidableEq ι] (s : Sys ι) (a : Action ι) : Decidable (Undisturbed s a) := by
  unfold Undisturbed
  cases s.worker <;> infer_instance

/-! ## What a session does to its nodes -/

/-- The newest node is being filled, or is about to be posted. -/
def Writing (s : Session) : Prop :=
  match s.ctl with
  | .post _ _ => True
  | .after_post _ _ => False
  | .await | .loop _ | .clear_data _ | .clear_len _ | .check _ | .stopped => s.b_head_parse = true

/-- The newest node is being cleared, or is about to be. -/
def Clearing (s : Session) : Prop :=
  match s.ctl with
  | .after_post .continuation _ | .clear_data _ | .clear_len _ => True
  | .after_post .header _ | .await | .loop _ | .post _ _ | .check _ | .stopped => False

/-- `r'` is `r` with a part of `Clear` done. -/
def Cleared (r r' : RecvNode) : Prop :=
  r' = { r with node := r.node.erase, erased := true } ∨
    r' = { r with node := r.node.reset, reset := true }

/-- What a step of a session does to its nodes. -/
inductive Effect (s t : Session) : Prop
  /-- Nothing. -/
  | same (h : t.recv_nodes = s.recv_nodes) (hw : Writing t → Writing s)
      (hc : Clearing t → Clearing s ∨ (Writing s ∧ ¬ Writing t))
  /-- It builds one. -/
  | build (r : RecvNode) (h : t.recv_nodes = r :: s.recv_nodes)
      (hr : r.erased = false ∧ r.reset = false) (hc : ¬ Clearing t)
  /-- It writes to the newest. -/
  | write (r r' : RecvNode) (rest : List RecvNode) (h : s.recv_nodes = r :: rest)
      (h' : t.recv_nodes = r' :: rest) (hr : r'.erased = r.erased ∧ r'.reset = r.reset)
      (hw : Writing s) (hc : ¬ Clearing t)
  /-- It clears the newest. -/
  | clear (r r' : RecvNode) (rest : List RecvNode) (h : s.recv_nodes = r :: rest)
      (h' : t.recv_nodes = r' :: rest) (hr : Cleared r r') (hw : Writing t → Writing s)
      (hc : Clearing s)

/-- Parsing a head leaves the nodes as they are, or builds one when the head is complete. -/
theorem effect_parseHead {s : Session} {l : Loop} (hctl : s.ctl = .loop l) :
    Effect s (s.parseHead l) := by
  unfold Session.parseHead Session.headDone Session.newNode
  split_ifs
  · exact .same rfl (by simp [Writing, hctl, Session.arm]) False.elim
  · exact .same rfl (by simp [Writing, hctl, Session.clear, Session.fillHead]) False.elim
  · exact .same rfl (by simp [Writing, hctl, Session.clear, Session.fillHead]) False.elim
  · exact .same rfl (by simp [Writing, hctl, Session.fillHead]) False.elim
  · exact .build _ rfl ⟨rfl, rfl⟩ id
  · exact .build _ rfl ⟨rfl, rfl⟩ id

/-- Parsing a body writes to the newest node only, which is the one that is not posted yet. -/
theorem effect_parseBody {s : Session} {l : Loop} (hctl : s.ctl = .loop l)
    (hparse : s.b_head_parse = true) : Effect s (s.parseBody l) := by
  have hw : Writing s := by simpa only [Writing, hctl] using hparse
  unfold Session.parseBody
  split
  · exact .same rfl (fun _ => hw) False.elim
  · next r rest hnodes =>
      split_ifs
      · exact .write r _ rest hnodes rfl ⟨rfl, rfl⟩ hw id
      · exact .write r _ rest hnodes rfl ⟨rfl, rfl⟩ hw id

/-- All steps of a session are of one of these kinds. -/
theorem effect_step {s t : Session} (hstep : s.step = some t) : Effect s t := by
  unfold Session.step at hstep
  split at hstep
  · cases hstep
  · cases hstep
  · next l hctl =>
      -- an iteration of the loop
      split_ifs at hstep with hzero hparse
      · cases hstep
        exact .same rfl (by simp [Writing, hctl]) False.elim
      · cases hstep
        exact effect_parseBody hctl hparse
      · cases hstep
        exact effect_parseHead hctl
  · next p l hctl =>
      -- `PostMsgToQue`
      have hw : Writing s := by simp [Writing, hctl]
      split at hstep
      · cases hstep
        exact .same rfl (fun _ => hw) False.elim
      · cases hstep
        exact .same rfl False.elim (fun _ => Or.inr ⟨hw, id⟩)
  · next p l hctl =>
      cases hstep
      cases p with
      | header => exact .same rfl (by simp [Writing]) False.elim
      | continuation =>
          exact .same rfl (by simp [Writing]) (fun _ => Or.inl (by simp [Clearing, hctl]))
  · next l hctl =>
      split at hstep
      · cases hstep
        exact .same rfl (by simp [Writing, hctl]) False.elim
      · next r rest hnodes =>
          cases hstep
          -- the `memset` of `Clear`
          exact .clear r _ rest hnodes rfl (Or.inl rfl) (by simp [Writing, hctl])
            (by simp [Clearing, hctl])
  · next l hctl =>
      split at hstep
      · cases hstep
        exact .same rfl (by simp [Writing, hctl]) False.elim
      · next r rest hnodes =>
          cases hstep
          -- `_cur_len = 0` of `Clear`
          exact .clear r _ rest hnodes rfl (Or.inr rfl) (by simp [Writing, hctl])
            (by simp [Clearing, hctl])
  · next l hctl =>
      split_ifs at hstep
      · cases hstep
        exact .same rfl (by simp [Writing, hctl, Session.arm]) False.elim
      · cases hstep
        exact .same rfl (by simp [Writing, hctl]) False.elim

/-- **What a step of a session does to its nodes.** -/
theorem effect_act {s t : Session} {a : CSession.Action} (hstep : s.act a = some t) :
    Effect s t := by
  cases a with
  | step => exact effect_step hstep
  | error =>
      simp only [Session.act] at hstep
      split_ifs at hstep with hctl
      cases hstep
      exact .same rfl (by simp [Writing, hctl, Session.clear]) False.elim
  | deliver chunk =>
      simp only [Session.act] at hstep
      split_ifs at hstep with hctl
      cases hstep
      exact .same rfl (by simp [Writing, hctl.1, Session.deliver]) False.elim

/-! ### A node before it is posted -/

structure SessionOk (s : Session) : Prop where
  fresh : Writing s → ∀ r ∈ s.recv_nodes.head?, r.erased = false ∧ r.reset = false
  settled : Clearing s → ¬ Writing s

/-- A new session has built no node. -/
theorem sessionOk_init : SessionOk {} where
  fresh _ r hr := by cases hr
  settled h := h.elim

/-- A session keeps its part of the invariant, whatever arrives. -/
theorem sessionOk_act {s t : Session} {a : CSession.Action} (h : SessionOk s)
    (hstep : s.act a = some t) : SessionOk t := by
  cases effect_act hstep with
  | same hnodes hw hc =>
      refine ⟨fun ht => hnodes ▸ h.fresh (hw ht), fun ht => ?_⟩
      rcases hc ht with hs | ⟨-, hnot⟩
      · exact fun hwt => h.settled hs (hw hwt)
      · exact hnot
  | build r hnodes hr hc =>
      refine ⟨fun _ r' hr' => ?_, fun ht => absurd ht hc⟩
      rw [hnodes] at hr'
      cases hr'
      exact hr
  | write r r' rest hnodes hnodes' hr hw hc =>
      refine ⟨fun _ r'' hr'' => ?_, fun ht => absurd ht hc⟩
      have hfresh := h.fresh hw r (by rw [hnodes]; rfl)
      rw [hnodes'] at hr''
      cases hr''
      rw [hr.1, hr.2]
      exact hfresh
  | clear r r' rest hnodes hnodes' hr hw hc =>
      have hnot : ¬ Writing t := fun ht => h.settled hc (hw ht)
      exact ⟨fun ht => absurd ht hnot, fun _ => hnot⟩

/-! ### A node after it is posted -/

/-- `r` is the node `m` with those parts of `Clear` done that it says. -/
structure Since (r : RecvNode) (m : MsgNode) : Prop where
  total_len : r.node.total_len = m.total_len
  cur_len : r.node.cur_len = if r.reset then 0 else m.cur_len
  data : r.node.data = if r.erased then zero m.data (toSize m.total_len) else m.data

/-- Clearing a node once more leaves it related to what was posted. -/
theorem since_cleared {r r' : RecvNode} {m : MsgNode} (h : Since r m) (hr : Cleared r r') :
    Since r' m := by
  obtain ⟨htotal, hcur, hdata⟩ := h
  rcases hr with rfl | rfl
  · refine ⟨htotal, hcur, ?_⟩
    show zero r.node.data (toSize r.node.total_len) = zero m.data (toSize m.total_len)
    rw [htotal, hdata]
    split_ifs
    · exact zero_zero _ _
    · rfl
  · exact ⟨htotal, rfl, hdata⟩

/-- What there is of a queued node in its session. -/
structure Kept {ι : Type*} (s : Session) (e : LogicNode ι) (r : RecvNode) : Prop where
  node : recvNode s e.recvnode = some r
  since : Since r e.posted
  header : e.path = .header → r.erased = false ∧ r.reset = false
  /-- The newest node is not written any more. -/
  newest : e.recvnode + 1 = s.recv_nodes.length → ¬ Writing s ∧ (e.path = .header → ¬ Clearing s)

/-- The nodes but the newest have the numbers that they had before it was built. -/
theorem recvNode_of_lt {r : RecvNode} {rest : List RecvNode} {s : Session}
    (hnodes : s.recv_nodes = r :: rest) {k : Nat} (hk : k < rest.length) :
    recvNode s k = rest.reverse[k]? := by
  rw [recvNode, hnodes, List.reverse_cons, List.getElem?_append_left (by simpa using hk)]

/-- The newest node has the last number. -/
theorem recvNode_newest {r : RecvNode} {rest : List RecvNode} {s : Session}
    (hnodes : s.recv_nodes = r :: rest) : recvNode s rest.length = some r := by
  rw [recvNode, hnodes, List.reverse_cons, List.getElem?_append_right (by simp)]
  simp

/-- Only the nodes that there are have a number. -/
theorem recvNode_lt {s : Session} {k : Nat} {r : RecvNode} (h : recvNode s k = some r) :
    k < s.recv_nodes.length := by
  have hlt := (List.getElem?_eq_some_iff.mp h).1
  rwa [List.length_reverse] at hlt

/-- A queued node is only ever cleared, and only if it was posted by the branch that
continues a body. -/
theorem kept_act {ι : Type*} {s t : Session} {a : CSession.Action} (hstep : s.act a = some t)
    {e : LogicNode ι} {r : RecvNode} (h : Kept s e r) : ∃ r', Kept t e r' := by
  have hlt := recvNode_lt h.node
  cases effect_act hstep with
  | same hnodes hw hc =>
      refine ⟨r, by rw [recvNode, hnodes]; exact h.node, h.since, h.header, fun hnew => ?_⟩
      rw [hnodes] at hnew
      obtain ⟨hnot, hpath⟩ := h.newest hnew
      refine ⟨fun ht => hnot (hw ht), fun hp ht => ?_⟩
      rcases hc ht with hs | ⟨hs, -⟩
      · exact hpath hp hs
      · exact hnot hs
  | build r' hnodes hr hc =>
      refine ⟨r, ?_, h.since, h.header, fun hnew => ?_⟩
      · rw [recvNode_of_lt hnodes hlt]
        exact h.node
      · rw [hnodes, List.length_cons] at hnew
        omega
  | write r₀ r' rest hnodes hnodes' hr hw hc =>
      -- a queued node is not the newest while the newest is written
      have hold : e.recvnode < rest.length := by
        rw [hnodes, List.length_cons] at hlt
        apply Nat.lt_of_le_of_ne (Nat.le_of_lt_succ hlt)
        intro heq
        exact (h.newest (by rw [hnodes, heq]; rfl)).1 hw
      refine ⟨r, ?_, h.since, h.header, fun hnew => ?_⟩
      · rw [recvNode_of_lt hnodes' hold, ← recvNode_of_lt hnodes hold]
        exact h.node
      · rw [hnodes', List.length_cons] at hnew
        omega
  | clear r₀ r' rest hnodes hnodes' hr hw hc =>
      rcases Nat.lt_or_ge e.recvnode rest.length with hold | hnew
      · refine ⟨r, ?_, h.since, h.header, fun hnew => ?_⟩
        · rw [recvNode_of_lt hnodes' hold, ← recvNode_of_lt hnodes hold]
          exact h.node
        · rw [hnodes', List.length_cons] at hnew
          omega
      · -- it is the newest that is cleared
        have hlen : s.recv_nodes.length = rest.length + 1 := by rw [hnodes, List.length_cons]
        have heq : e.recvnode = rest.length := by omega
        obtain ⟨hnot, hpath⟩ := h.newest (by omega)
        obtain rfl : r₀ = r := by
          have hnode := h.node
          rw [heq, recvNode_newest hnodes] at hnode
          exact Option.some.inj hnode
        refine ⟨r', by rw [heq]; exact recvNode_newest hnodes', since_cleared h.since hr,
          fun hp => absurd hc (hpath hp), fun _ => ⟨fun ht => hnot (hw ht), fun hp => ?_⟩⟩
        exact absurd hc (hpath hp)

/-- The node that `PostMsgToQue` pushes. -/
theorem kept_posting {ι : Type*} {i : ι} {s t : Session} {a : CSession.Action} (h : SessionOk s)
    {e : LogicNode ι} (he : posting i s a = some e) (hstep : s.act a = some t) :
    e.session = i ∧ ∃ r, Kept t e r := by
  unfold posting at he
  split at he
  · next p l r rest hctl hnodes =>
      cases he
      have hfresh := h.fresh (by simp [Writing, hctl]) r (by rw [hnodes]; rfl)
      simp only [Session.act, Session.step, hctl, hnodes] at hstep
      cases hstep
      refine ⟨rfl, r, recvNode_newest rfl, ⟨rfl, ?_, ?_⟩, fun _ => hfresh, fun _ => ⟨id, ?_⟩⟩
      · rw [hfresh.2]
        rfl
      · rw [hfresh.1]
        rfl
      · rintro rfl
        exact id
  · cases he

/-! ## The invariant -/

section

variable {ι : Type*}

structure Inv (s : Sys ι) : Prop where
  sessions : ∀ i, SessionOk (s.sessions i)
  queue : ∀ e ∈ s.msg_que, ∃ r, Kept (s.sessions e.session) e r
  /-- The length that `DealMsg` has read gives the body. -/
  length : ∀ drain n, s.worker = .data drain n → ∀ e ∈ s.msg_que.head?,
    n = e.posted.cur_len ∨ (n = 0 ∧ e.posted.string = [])
  calls : CallsRight s

/-- What `DealMsg` is about to read is in the queue and still as it was posted. -/
theorem front_kept {s : Sys ι} (h : Inv s) {e : LogicNode ι} {r : RecvNode}
    (hf : s.front = some (e, r)) :
    e ∈ s.msg_que.head? ∧ Kept (s.sessions e.session) e r := by
  unfold Sys.front at hf
  split at hf
  · cases hf
  · next e' rest hque =>
      obtain ⟨r', hr', heq⟩ := Option.map_eq_some_iff.mp hf
      cases heq
      obtain ⟨r'', hkept⟩ := h.queue e (by rw [hque]; exact List.mem_cons_self)
      obtain rfl : r = r'' := Option.some.inj (hr'.symm.trans hkept.node)
      exact ⟨by rw [hque]; rfl, hkept⟩

/-- A step of `DealMsg` that reads nothing. -/
theorem inv_worker {s : Sys ι} (h : Inv s) {w : Worker} (hw : ∀ drain n, w ≠ .data drain n) :
    Inv { s with worker := w } :=
  ⟨h.sessions, h.queue, fun drain n hn => absurd hn (hw drain n), h.calls⟩

/-- `_cur_len` is read. -/
theorem length_right {s : Sys ι} (h : Inv s) {e : LogicNode ι} {r : RecvNode}
    (hf : s.front = some (e, r))
    (hG : e.path = .continuation → r.reset = false ∨ e.posted.string = []) :
    r.node.cur_len = e.posted.cur_len ∨ (r.node.cur_len = 0 ∧ e.posted.string = []) := by
  obtain ⟨-, hkept⟩ := front_kept h hf
  have hcur := hkept.since.cur_len
  by_cases hreset : r.reset = false
  · rw [hreset] at hcur
    exact Or.inl hcur
  · -- only the branch that continues a body resets a node
    have hpath : e.path = .continuation := by
      cases hp : e.path with
      | header => exact absurd (hkept.header hp).2 hreset
      | continuation => rfl
    rw [Bool.not_eq_false] at hreset
    rw [hreset] at hcur
    exact Or.inr ⟨hcur, (hG hpath).resolve_left (by simp [hreset])⟩

/-- The bytes are read. -/
theorem string_right {s : Sys ι} (h : Inv s) {e : LogicNode ι} {r : RecvNode}
    (hf : s.front = some (e, r)) {drain : Bool} {n : Int} (hw : s.worker = .data drain n)
    (hG : e.path = .continuation → r.erased = false ∨ ∀ b ∈ e.posted.string, b = 0) :
    r.node.data.take n.toNat = e.posted.string := by
  obtain ⟨hhead, hkept⟩ := front_kept h hf
  have hdata := hkept.since.data
  rcases h.length drain n hw e hhead with rfl | ⟨rfl, hnil⟩
  · by_cases herased : r.erased = false
    · rw [hdata, if_neg (by simp [herased])]
      rfl
    · -- only that branch erases one
      have hpath : e.path = .continuation := by
        cases hp : e.path with
        | header => exact absurd (hkept.header hp).1 herased
        | continuation => rfl
      rw [hdata, if_pos (by simpa using herased)]
      exact take_zero ((hG hpath).resolve_left herased) _
  · rw [hnil]
    rfl

/-- The worker reads the front of the queue and pops it. It is here that no `Clear` may come
between. -/
theorem inv_dealMsg {s t : Sys ι} (h : Inv s) (hG : Undisturbed s .worker)
    (hstep : s.dealMsg = some t) : Inv t := by
  have hG' := hG rfl
  unfold Sys.dealMsg at hstep
  split at hstep
  · cases hstep
    exact inv_worker h (by simp)
  · split_ifs at hstep <;> cases hstep <;> exact inv_worker h (by simp)
  · cases hstep
    exact inv_worker h (by simp)
  · cases hstep
    exact inv_worker h (by simp)
  · split at hstep
    · split_ifs at hstep
      cases hstep
      exact inv_worker h (by simp)
    · split_ifs at hstep <;> cases hstep <;> exact inv_worker h (by simp)
  · next drain hw =>
      -- `_cur_len`
      obtain ⟨⟨e, r⟩, hf, rfl⟩ := Option.map_eq_some_iff.mp hstep
      have hlen := length_right h hf fun hp => by simpa only [hw] using hG' (e, r) hf hp
      refine ⟨h.sessions, h.queue, fun drain' n hn e' he' => ?_, h.calls⟩
      cases hn
      obtain rfl : e = e' := Option.some.inj ((front_kept h hf).1.symm.trans he')
      exact hlen
  · next drain n hw =>
      -- the bytes
      obtain ⟨⟨e, r⟩, hf, rfl⟩ := Option.map_eq_some_iff.mp hstep
      have hstring := string_right h hf hw fun hp => by simpa only [hw] using hG' (e, r) hf hp
      refine ⟨h.sessions, h.queue, fun drain' n' hn => (by cases hn), ?_⟩
      intro c hc
      rcases List.mem_append.mp hc with hc | hc
      · exact h.calls c hc
      · rw [List.mem_singleton.mp hc]
        exact hstring
  · next drain hw =>
      cases hstep
      refine ⟨h.sessions, fun e he => h.queue e (List.mem_of_mem_tail he), ?_, h.calls⟩
      intro drain' n hn
      split_ifs at hn
  · cases hstep

variable [DecidableEq ι]

/-- A session that goes on changes only its own nodes. -/
theorem inv_session {s t : Sys ι} (h : Inv s) {i : ι} {a : CSession.Action}
    (hstep : s.session i a = some t) : Inv t := by
  unfold Sys.session at hstep
  split_ifs at hstep with hlock
  obtain ⟨u, hu, rfl⟩ := Option.map_eq_some_iff.mp hstep
  refine ⟨?_, ?_, ?_, h.calls⟩
  · exact forall_update (sessionOk_act (h.sessions i) hu) fun j _ => h.sessions j
  · intro e he
    simp only
    rcases List.mem_append.mp he with he | he
    · -- a node that was queued before, of this session or another
      obtain ⟨r, hkept⟩ := h.queue e he
      by_cases hi : e.session = i
      · rw [hi, Function.update_self]
        rw [hi] at hkept
        exact kept_act hu hkept
      · rw [Function.update_of_ne hi]
        exact ⟨r, hkept⟩
    · -- the node that is queued now
      obtain ⟨hi, hkept⟩ := kept_posting (h.sessions i) (Option.mem_toList.mp he) hu
      rw [hi, Function.update_self]
      exact hkept
  · -- nothing is pushed while `DealMsg` has the mutex
    intro drain n hn
    have hnone : posting i (s.sessions i) a = none := by
      have hlocked : s.worker.locked = true := by rw [show s.worker = _ from hn]; rfl
      simpa [hlocked] using hlock
    simp only [hnone, Option.toList_none, List.append_nil]
    exact h.length drain n hn

/-- Both parties together. -/
theorem inv_act {s t : Sys ι} {a : Action ι} (h : Inv s) (hG : Undisturbed s a)
    (hstep : s.act a = some t) : Inv t := by
  cases a with
  | session i a => exact inv_session h hstep
  | worker => exact inv_dealMsg h hG hstep
  | stop =>
      cases hstep
      exact ⟨h.sessions, h.queue, h.length, h.calls⟩

variable (ι) in
/-- No message, no call. -/
theorem inv_init : Inv (system ι).init where
  sessions _ := sessionOk_init
  queue e he := by cases he
  length drain n hn := by cases hn
  calls c hc := by cases hc

/-! ## The result -/

/-- **Posted messages are what the callbacks get**, over every interleaving of the sessions with
`DealMsg`, unless it reads a node that `Clear` has overwritten. `PostMsgToQue` posts the session's
own `RecvNode`, which the next header clears in place; nothing but time keeps the worker ahead of
that. -/
theorem calls_right (as : List (Action ι))
    (hG : (system ι).Always Undisturbed (system ι).init as) :
    (system ι).Along CallsRight (system ι).init as :=
  (system ι).along_of_always (fun _ h => h.calls)
    (fun _ _ _ h hG hstep => inv_act h hG hstep) (inv_init ι) hG

end

/-- A message of two bytes in two chunks, posted. -/
def postedInTwo : List (Action Unit) :=
  [.session () (.deliver (storeField 1001 ++ storeField 2 ++ [1])), .session () .step,
    .session () (.deliver [2]), .session () .step, .session () .step]

/-- The logic thread from the wait to the callback. -/
def dealOne : List (Action Unit) := [.worker, .worker, .worker, .worker, .worker, .worker]

/-- The rest of `HandleRead`. -/
def clearAfter : List (Action Unit) :=
  [.session () .step, .session () .step, .session () .step, .session () .step]

theorem calls_right_dealtFirst :
    (system Unit).Along CallsRight (system Unit).init (postedInTwo ++ dealOne ++ clearAfter) :=
  calls_right (postedInTwo ++ dealOne ++ clearAfter) (by decide)

/-- When `HandleRead` is faster, the callback gets an empty string. -/
theorem call_empty :
    ∃ s, (system Unit).exec (system Unit).init (postedInTwo ++ clearAfter ++ dealOne) = some s ∧
      s.calls = [{ session := (), msg_id := 1001, msg_data := [], posted := [1, 2] }] ∧
      ¬ CallsRight s := by
  refine ⟨_, rfl, by decide, fun h => ?_⟩
  have heq : ([] : List Byte) = [1, 2] :=
    h { session := (), msg_id := 1001, msg_data := [], posted := [1, 2] } (by decide)
  cases heq

end BoostNet.LogicSystem
