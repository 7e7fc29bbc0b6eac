/-
How a call of `CSession::HandleRead` ends (Network/asyncServer and asyncServer_ThreadPool):
with a read armed or with `ClearSession`, and which header lengths break that.

A call is the steps from a delivery up to the end of the call. Each pass of the loop either
completes a header, which takes at least one byte, or a body, after which the next pass is
a header; so the unread bytes, then the branch, then the place in the pass go down
(`Session.measure`).

A length below -1 passes the comparison with `MAX_LENGTH`, and `new char[]` throws: the call
ends with no read armed and the session not cleared. A length of -1 is no obstacle to the
flow of control: as everywhere in this model a store out of bounds has no effect.

* `Sound`: what every reachable state has, hostile headers or not.
* `armed_iff`: a call ends with one read armed, or with one `ClearSession`, exactly if no
  header that it completes, with an accepted id, has a length below -1.
-/
import BoostNet.CSessionBounds
import Mathlib.Logic.Relation

set_option autoImplicit false

namespace BoostNet.CSession

/-! ## Calls -/

/-- The calls of `async_read_some` and of `ClearSession` so far. -/
def Session.reads (s : Session) : Nat := s.log.count .read

def Session.clears (s : Session) : Nat := s.log.count .clear

def StepTo (s t : Session) : Prop := s.step = some t

/-- The call is over. -/
def Session.Over (s : Session) : Prop := s.ctl = .await ∨ s.ctl = .stopped

/-- The call that gets `chunk` ends in `t`. -/
def HandleRead (s : Session) (chunk : List Byte) (t : Session) : Prop :=
  Relation.ReflTransGen StepTo (s.deliver chunk) t ∧ t.Over

/-- The call ends, with one read armed and the session not cleared, or the other way round;
and the header it starts with, if it waits for one, is not complete. -/
def KeepsOneRead (s : Session) (chunk : List Byte) : Prop :=
  (s.b_head_parse = false →
    0 ≤ s.recv_head_node.cur_len ∧ s.recv_head_node.cur_len < HEAD_TOTAL_LEN) ∧
  ∃ t, HandleRead s chunk t ∧
    ((t.ctl = .await ∧ t.reads = s.reads + 1 ∧ t.clears = s.clears) ∨
      (t.ctl = .stopped ∧ t.reads = s.reads ∧ t.clears = s.clears + 1))

/-- The next step builds a node whose buffer would have less than 0 bytes. -/
def Session.Throws (s : Session) : Prop :=
  ∃ h ∈ s.nextHeader, h.1 ≤ MAX_LENGTH ∧ h.2 + 1 < 0

/-- No header that the call completes, with an accepted id, has a length below -1. -/
def NoThrow (s : Session) (chunk : List Byte) : Prop :=
  ∀ u, Relation.ReflTransGen StepTo (s.deliver chunk) u → ¬ u.Throws

/-! ## What every reachable state has -/

/-- The head node was cleared in this pass. -/
def Ctl.Cleared : Ctl → Prop
  | .clear_data _ | .clear_len _ | .check _ => True
  | .await | .stopped | .loop _ | .post _ _ | .after_post _ _ => False

/-- The lengths of a node that a header built, a length of -1 included. -/
structure Lengths (m : MsgNode) : Prop where
  total_len : -1 ≤ m.total_len ∧ m.total_len ≤ MAX_LENGTH
  cur_len : 0 ≤ m.cur_len ∧ m.cur_len ≤ MAX_LENGTH

structure Sound (s : Session) : Prop where
  head_cur : 0 ≤ s.recv_head_node.cur_len ∧ s.recv_head_node.cur_len < HEAD_TOTAL_LEN
  nodes : ∀ r ∈ s.recv_nodes, Lengths r.node
  started : s.b_head_parse = true ∨ s.ctl.Posting → s.recv_nodes ≠ []
  unread : ∀ l, s.ctl.locals = some l → l.bytes_transferred ≤ MAX_LENGTH
  more : ∀ l, s.ctl = .loop l → l.bytes_transferred ≠ 0
  head_next : s.ctl.Cleared → s.b_head_parse = false

/-- The call is over. -/
theorem sound_over {s : Session} (hover : s.Over)
    (hcur : 0 ≤ s.recv_head_node.cur_len ∧ s.recv_head_node.cur_len < HEAD_TOTAL_LEN)
    (hnodes : ∀ r ∈ s.recv_nodes, Lengths r.node)
    (hstarted : s.b_head_parse = true → s.recv_nodes ≠ []) : Sound s := by
  rcases hover with hctl | hctl
  · refine ⟨hcur, hnodes, ?_, ?_, ?_, ?_⟩ <;> rw [hctl]
    · exact fun hp => hstarted (hp.resolve_right id)
    · intro l hl
      contradiction
    · intro l hl
      contradiction
    · exact False.elim
  · refine ⟨hcur, hnodes, ?_, ?_, ?_, ?_⟩ <;> rw [hctl]
    · exact fun hp => hstarted (hp.resolve_right id)
    · intro l hl
      contradiction
    · intro l hl
      contradiction
    · exact False.elim

/-- A copy to a node, and `_cur_len += n`. -/
theorem lengths_advance {m : MsgNode} {n : Int} (src : List Byte)
    (htotal : -1 ≤ m.total_len ∧ m.total_len ≤ MAX_LENGTH)
    (hcur : 0 ≤ m.cur_len + n ∧ m.cur_len + n ≤ MAX_LENGTH) :
    Lengths ((m.copy src).advance n) := by
  simp only [MAX_LENGTH] at hcur
  have hshort : toShort (m.cur_len + n) = m.cur_len + n := toShort_of_range (by omega) (by omega)
  refine ⟨htotal, ?_⟩
  simp only [MsgNode.advance, MsgNode.copy, hshort, MAX_LENGTH]
  exact hcur

/-- `bytes_transferred -= n`. -/
theorem consume_eq {l : Loop} (hl : l.bytes_transferred ≤ MAX_LENGTH) {n : Int} (hn : 0 ≤ n)
    (hle : n ≤ l.bytes_transferred) :
    ((l.consume n).bytes_transferred : Int) = l.bytes_transferred - n := by
  simp only [MAX_LENGTH] at hl
  exact toSize_nonneg (by omega) (by omega)

/-! ## A step -/

/-- What is left to do in the call. -/
def Session.measure (s : Session) : Nat :=
  match s.ctl with
  | .await | .stopped => 0
  | .loop l => 6 * l.bytes_transferred + if s.b_head_parse then 6 else 0
  | .post _ l => 6 * l.bytes_transferred + 5
  | .after_post _ l => 6 * l.bytes_transferred + 4
  | .clear_data l => 6 * l.bytes_transferred + 3
  | .clear_len l => 6 * l.bytes_transferred + 2
  | .check l => 6 * l.bytes_transferred + 1

/-- The call is over with a read armed, or with the session cleared, or goes on with less
than `n` to do. -/
def Moves (s t : Session) (n : Nat) : Prop :=
  (t.ctl = .await ∧ t.reads = s.reads + 1 ∧ t.clears = s.clears) ∨
  (t.ctl = .stopped ∧ t.reads = s.reads ∧ t.clears = s.clears + 1) ∨
  (¬ t.Over ∧ t.reads = s.reads ∧ t.clears = s.clears ∧ t.measure < n)

theorem moves_arm {s t : Session} {n : Nat} (hreads : t.reads = s.reads)
    (hclears : t.clears = s.clears) : Moves s t.arm n := by
  refine Or.inl ⟨rfl, ?_, ?_⟩
  · rw [← hreads]
    simp [Session.arm, Session.reads]
  · rw [← hclears]
    simp [Session.arm, Session.clears]

theorem moves_clear {s t : Session} {n : Nat} (hreads : t.reads = s.reads)
    (hclears : t.clears = s.clears) : Moves s t.clear n := by
  refine Or.inr (Or.inl ⟨rfl, ?_, ?_⟩)
  · rw [← hreads]
    simp [Session.clear, Session.reads]
  · rw [← hclears]
    simp [Session.clear, Session.clears]

/-- The call goes on, with the locals `l`. -/
theorem moves_on {s t : Session} {l : Loop} {n : Nat} (hctl : t.ctl.locals = some l)
    (hcur : 0 ≤ t.recv_head_node.cur_len ∧ t.recv_head_node.cur_len < HEAD_TOTAL_LEN)
    (hnodes : ∀ r ∈ t.recv_nodes, Lengths r.node)
    (hstarted : t.b_head_parse = true ∨ t.ctl.Posting → t.recv_nodes ≠ [])
    (hl : l.bytes_transferred ≤ MAX_LENGTH)
    (hmore : t.ctl = .loop l → l.bytes_transferred ≠ 0)
    (hnext : t.ctl.Cleared → t.b_head_parse = false) (hreads : t.reads = s.reads)
    (hclears : t.clears = s.clears) (hlt : t.measure < n) : Sound t ∧ Moves s t n := by
  have hover : ¬ t.Over := by
    rintro (hc | hc)
    · rw [hc] at hctl
      cases hctl
    · rw [hc] at hctl
      cases hctl
  refine ⟨⟨hcur, hnodes, hstarted, fun l' hl' => ?_, fun l' hl' => ?_, hnext⟩,
    .inr (.inr ⟨hover, hreads, hclears, hlt⟩)⟩
  · obtain rfl := Option.some.inj (hctl.symm.trans hl')
    exact hl
  · rw [hl'] at hctl
    obtain rfl : l' = l := Option.some.inj hctl
    exact hmore hl'

/-- The body goes to a new node. A length of -1 is a huge `size_t`, so that what is there is
too little. -/
theorem newNode_moves {s : Session} (h : Sound s) {l : Loop} (hl : l.bytes_transferred ≤ MAX_LENGTH)
    (msg_id : Int) {data_len : Int} (hlen : -1 ≤ data_len) (hmax : data_len ≤ MAX_LENGTH) :
    Sound (s.newNode l msg_id data_len) ∧
      Moves s (s.newNode l msg_id data_len) (6 * l.bytes_transferred + 6) := by
  have hl' : l.bytes_transferred ≤ 2048 := hl
  have hmax' : data_len ≤ 2048 := hmax
  unfold Session.newNode
  rw [if_neg (Int.not_lt.mpr (by omega))]
  split_ifs with hlt
  · -- a part of the body
    refine ⟨sound_over (Or.inl rfl) h.head_cur ?_ (fun _ => by simp [Session.arm]), ?_⟩
    · refine List.forall_mem_cons.mpr ⟨lengths_advance _ ⟨hlen, hmax⟩ ?_, h.nodes⟩
      simp only [MsgNode.new, MAX_LENGTH]
      omega
    · exact moves_arm (by simp [Session.reads, Loop.copied]) (by simp [Session.clears, Loop.copied])
  · -- the whole body: its length is not negative
    have hpos : 0 ≤ data_len := by
      by_contra hneg
      have hhuge := toSize_neg (x := data_len) (by omega) (by omega)
      omega
    have hsize := toSize_nonneg hpos (by omega)
    have hbytes := consume_eq (l := l.skip data_len) (n := data_len) hl hpos (by
      change data_len ≤ (l.bytes_transferred : Int)
      omega)
    have hbytes : (((l.skip data_len).consume data_len).bytes_transferred : Int) =
        l.bytes_transferred - data_len := hbytes
    refine moves_on rfl h.head_cur ?_ (fun _ => by simp) ?_ Ctl.noConfusion False.elim ?_ ?_ ?_
    · have hadv := lengths_advance (m := .new data_len) (n := data_len)
        (s.source l (toSize data_len)) ⟨hlen, hmax⟩ (by simp only [MsgNode.new, MAX_LENGTH]; omega)
      exact List.forall_mem_cons.mpr ⟨⟨hadv.total_len, hadv.cur_len⟩, h.nodes⟩
    · change _ ≤ 2048
      omega
    · simp [Session.reads, Loop.copied]
    · simp [Session.clears, Loop.copied]
    · change 6 * _ + 5 < 6 * l.bytes_transferred + 6
      omega

/-- The header branch, when the length in the header that it completes does not throw. -/
theorem parseHead_moves {s : Session} (h : Sound s) {l : Loop} (hctl : s.ctl = .loop l)
    (hp : s.b_head_parse = false)
    (hno : s.headShort l = false → (s.fillHead l).recv_head_node.header.1 ≤ MAX_LENGTH →
      -1 ≤ (s.fillHead l).recv_head_node.header.2) :
    Sound (s.parseHead l) ∧ Moves s (s.parseHead l) s.measure := by
  obtain ⟨hcur, hcur'⟩ := h.head_cur
  have hl : l.bytes_transferred ≤ MAX_LENGTH := h.unread l (by rw [hctl]; rfl)
  have hl' : l.bytes_transferred ≤ 2048 := hl
  have hshort := headShort_iff hcur hcur' hl
  have hcur4 : s.recv_head_node.cur_len < 4 := hcur'
  have hmeasure : s.measure = 6 * l.bytes_transferred := by
    simp [Session.measure, hctl, hp]
  simp only [HEAD_TOTAL_LEN] at hshort
  unfold Session.parseHead
  split_ifs with hcond
  · -- the header is still incomplete
    have hfour := hshort.mp hcond
    have hsum : toShort (s.recv_head_node.cur_len + l.bytes_transferred) =
        s.recv_head_node.cur_len + l.bytes_transferred := toShort_of_range (by omega) (by omega)
    refine ⟨sound_over (Or.inl rfl) ?_ h.nodes fun hp' => h.started (Or.inl hp'), ?_⟩
    · simp only [Session.arm, MsgNode.advance, MsgNode.copy, hsum, HEAD_TOTAL_LEN]
      omega
    · exact moves_arm (by simp [Session.reads, Loop.copied]) (by simp [Session.clears, Loop.copied])
  · have hfour := mt hshort.mpr hcond
    have hfill : Sound (s.fillHead l) :=
      ⟨h.head_cur, h.nodes, h.started, h.unread, h.more, h.head_next⟩
    have hreads : (s.fillHead l).reads = s.reads := by
      simp [Session.reads, Session.fillHead, Loop.copied]
    have hclears : (s.fillHead l).clears = s.clears := by
      simp [Session.clears, Session.fillHead, Loop.copied]
    -- at least one byte goes to the header
    have hbytes : (((l.skip s.headRemain).consume s.headRemain).bytes_transferred : Int) =
        l.bytes_transferred - s.headRemain := by
      apply consume_eq (l := l.skip s.headRemain) hl
      · simp only [Session.headRemain, HEAD_TOTAL_LEN]
        omega
      · simp only [Session.headRemain, HEAD_TOTAL_LEN, Loop.skip]
        omega
    have hremain : 1 ≤ s.headRemain := by
      simp only [Session.headRemain, HEAD_TOTAL_LEN]
      omega
    unfold Session.headDone
    split_ifs with hid hmax
    · exact ⟨sound_over (Or.inr rfl) hfill.head_cur hfill.nodes
        (fun hp' => hfill.started (Or.inl hp')), moves_clear hreads hclears⟩
    · exact ⟨sound_over (Or.inr rfl) hfill.head_cur hfill.nodes
        (fun hp' => hfill.started (Or.inl hp')), moves_clear hreads hclears⟩
    · have hlen := hno (Bool.not_eq_true _ ▸ hcond) (Int.not_lt.mp hid)
      have hskip : ((l.skip s.headRemain).consume s.headRemain).bytes_transferred ≤
          MAX_LENGTH := by
        simp only [MAX_LENGTH]
        omega
      obtain ⟨hsound, hmoves⟩ := newNode_moves hfill
        hskip (s.fillHead l).recv_head_node.header.1 hlen (Int.not_lt.mp hmax)
      refine ⟨hsound, ?_⟩
      unfold Moves at hmoves ⊢
      rw [hreads, hclears] at hmoves
      rcases hmoves with harm | hclear | ⟨hrun, hr, hc, hlt⟩
      · exact Or.inl harm
      · exact Or.inr (Or.inl hclear)
      · exact Or.inr (Or.inr ⟨hrun, hr, hc, by omega⟩)

/-- The branch that continues a body. -/
theorem parseBody_moves {s : Session} (h : Sound s) {l : Loop} (hctl : s.ctl = .loop l)
    (hp : s.b_head_parse = true) :
    Sound (s.parseBody l) ∧ Moves s (s.parseBody l) s.measure := by
  have hl : l.bytes_transferred ≤ MAX_LENGTH := h.unread l (by rw [hctl]; rfl)
  have hl' : l.bytes_transferred ≤ 2048 := hl
  have hmeasure : s.measure = 6 * l.bytes_transferred + 6 := by
    simp [Session.measure, hctl, hp]
  unfold Session.parseBody
  cases hnodes : s.recv_nodes with
  | nil => exact absurd hnodes (h.started (Or.inl hp))
  | cons r rest =>
      have hall := h.nodes
      rw [hnodes] at hall
      obtain ⟨⟨⟨htotal, htotal'⟩, hcur, hcur'⟩, hrest⟩ := List.forall_mem_cons.mp hall
      have ht2048 : r.node.total_len ≤ 2048 := htotal'
      have hc2048 : r.node.cur_len ≤ 2048 := hcur'
      simp only
      split_ifs with hlt
      · refine ⟨sound_over (Or.inl rfl) h.head_cur ?_ (fun _ => by simp [Session.arm]), ?_⟩
        · exact List.forall_mem_cons.mpr ⟨⟨⟨htotal, htotal'⟩, hcur, hcur'⟩, hrest⟩
        · exact moves_arm (by simp [Session.reads, Loop.copied])
            (by simp [Session.clears, Loop.copied])
      · -- what remains is not negative: a negative number is a huge `size_t`
        have hpos : 0 ≤ r.node.remain := by
          by_contra hneg
          have hhuge := toSize_neg (x := r.node.remain) (by omega)
            (by simp only [MsgNode.remain]; omega)
          omega
        have hsize : (toSize r.node.remain : Int) = r.node.remain :=
          toSize_nonneg hpos (by simp only [MsgNode.remain]; omega)
        have hbytes := consume_eq hl hpos (by omega)
        simp only [MsgNode.remain] at hpos
        refine moves_on rfl h.head_cur ?_ (fun _ => by simp) ?_ Ctl.noConfusion False.elim ?_ ?_ ?_
        · have hadv := lengths_advance (m := r.node) (n := r.node.remain)
            (s.source l (toSize r.node.remain)) ⟨htotal, htotal'⟩
            (by simp only [MsgNode.remain, MAX_LENGTH]; omega)
          exact List.forall_mem_cons.mpr ⟨⟨hadv.total_len, hadv.cur_len⟩, hrest⟩
        · simp only [MAX_LENGTH]
          omega
        · simp [Session.reads, Loop.copied]
        · simp [Session.clears, Loop.copied]
        · change 6 * (l.consume r.node.remain).bytes_transferred + 5 < s.measure
          omega

/-- A step of a call that does not throw. -/
theorem step_moves {s t : Session} (h : Sound s) (hno : ¬ s.Throws) (hstep : s.step = some t) :
    Sound t ∧ Moves s t s.measure := by
  unfold Session.step at hstep
  cases hctl : s.ctl with
  | await => simp [hctl] at hstep
  | stopped => simp [hctl] at hstep
  | loop l =>
      simp only [hctl] at hstep
      rw [if_neg (h.more l hctl)] at hstep
      split_ifs at hstep with hp
      · rw [Option.some.injEq] at hstep
        exact hstep ▸ parseBody_moves h hctl hp
      · rw [Option.some.injEq] at hstep
        have hp : s.b_head_parse = false := Bool.not_eq_true _ ▸ hp
        refine hstep ▸ parseHead_moves h hctl hp fun hshort hid => ?_
        by_contra hlen
        refine hno ⟨_, ?_, hid, by omega⟩
        have hmore := h.more l hctl
        simp [Session.nextHeader, hctl, hmore, hp, hshort]
  | post p l =>
      have hl := h.unread l (by rw [hctl]; rfl)
      have hne := h.started (Or.inr (by rw [hctl]; trivial))
      have hmeasure : s.measure = 6 * l.bytes_transferred + 5 := by simp [Session.measure, hctl]
      simp only [hctl] at hstep
      split at hstep
      case h_1 hnodes => exact absurd hnodes hne
      case h_2 r rest hnodes =>
          rw [Option.some.injEq] at hstep
          subst hstep
          refine moves_on rfl h.head_cur h.nodes (fun _ => hne) hl Ctl.noConfusion False.elim ?_ ?_
            ?_
          · simp [Session.reads]
          · simp [Session.clears]
          · change 6 * l.bytes_transferred + 4 < s.measure
            omega
  | after_post p l =>
      -- `_recv_head_node->Clear()`: the next pass is a header
      have hl := h.unread l (by rw [hctl]; rfl)
      have hne := h.started (Or.inr (by rw [hctl]; trivial))
      have hmeasure : s.measure = 6 * l.bytes_transferred + 4 := by simp [Session.measure, hctl]
      simp only [hctl, Option.some.injEq] at hstep
      subst hstep
      refine moves_on (l := l) ?_ ?_ h.nodes (fun _ => hne) hl ?_ (fun _ => rfl) ?_ ?_ ?_
      · cases p <;> rfl
      · simp only [MsgNode.reset, HEAD_TOTAL_LEN]
        omega
      · cases p <;> exact Ctl.noConfusion
      · simp [Session.reads]
      · simp [Session.clears]
      · cases p
        · change 6 * l.bytes_transferred + 1 < s.measure
          omega
        · change 6 * l.bytes_transferred + 3 < s.measure
          omega
  | clear_data l =>
      have hl := h.unread l (by rw [hctl]; rfl)
      have hne := h.started (Or.inr (by rw [hctl]; trivial))
      have hnext := h.head_next (by rw [hctl]; trivial)
      have hmeasure : s.measure = 6 * l.bytes_transferred + 3 := by simp [Session.measure, hctl]
      simp only [hctl] at hstep
      split at hstep
      case h_1 hnodes => exact absurd hnodes hne
      case h_2 r rest hnodes =>
          have hall := h.nodes
          rw [hnodes] at hall
          obtain ⟨hr, hrest⟩ := List.forall_mem_cons.mp hall
          rw [Option.some.injEq] at hstep
          subst hstep
          refine moves_on rfl h.head_cur ?_ (fun _ => by simp) hl Ctl.noConfusion (fun _ => hnext)
            ?_ ?_ ?_
          · exact List.forall_mem_cons.mpr ⟨⟨hr.total_len, hr.cur_len⟩, hrest⟩
          · simp [Session.reads]
          · simp [Session.clears]
          · change 6 * l.bytes_transferred + 2 < s.measure
            omega
  | clear_len l =>
      have hl := h.unread l (by rw [hctl]; rfl)
      have hne := h.started (Or.inr (by rw [hctl]; trivial))
      have hnext := h.head_next (by rw [hctl]; trivial)
      have hmeasure : s.measure = 6 * l.bytes_transferred + 2 := by simp [Session.measure, hctl]
      simp only [hctl] at hstep
      split at hstep
      case h_1 hnodes => exact absurd hnodes hne
      case h_2 r rest hnodes =>
          have hall := h.nodes
          rw [hnodes] at hall
          obtain ⟨hr, hrest⟩ := List.forall_mem_cons.mp hall
          rw [Option.some.injEq] at hstep
          subst hstep
          refine moves_on rfl h.head_cur ?_ (fun _ => by simp) hl Ctl.noConfusion (fun _ => hnext)
            rfl rfl ?_
          · refine List.forall_mem_cons.mpr ⟨⟨hr.total_len, ?_⟩, hrest⟩
            simp only [MsgNode.reset, MAX_LENGTH]
            omega
          · change 6 * l.bytes_transferred + 1 < s.measure
            omega
  | check l =>
      have hl := h.unread l (by rw [hctl]; rfl)
      have hnext := h.head_next (by rw [hctl]; trivial)
      have hmeasure : s.measure = 6 * l.bytes_transferred + 1 := by simp [Session.measure, hctl]
      simp only [hctl] at hstep
      split_ifs at hstep with hzero
      · rw [Option.some.injEq] at hstep
        subst hstep
        exact ⟨sound_over (Or.inl rfl) h.head_cur h.nodes fun hp => h.started (Or.inl hp),
          moves_arm rfl rfl⟩
      · rw [Option.some.injEq] at hstep
        subst hstep
        refine moves_on rfl h.head_cur h.nodes (fun hp => h.started (hp.imp_right False.elim)) hl
          ?_ False.elim rfl rfl ?_
        · intro _
          omega
        · simp [Session.measure, hctl, hnext]

/-- A step that throws ends the call with neither. -/
theorem step_throws {s t : Session} (h : Sound s) (hthrows : s.Throws) (hstep : s.step = some t) :
    Sound t ∧ t.ctl = .stopped ∧ t.reads = s.reads ∧ t.clears = s.clears := by
  obtain ⟨hd, hmem, hid, hlen⟩ := hthrows
  unfold Session.nextHeader at hmem
  cases hctl : s.ctl with
  | loop l =>
      simp only [hctl] at hmem
      split_ifs at hmem with hcond
      · obtain ⟨hmore, hp, hshort⟩ := hcond
        obtain rfl := Option.some.inj hmem
        simp only [Session.step, hctl] at hstep
        rw [if_neg hmore, if_neg (by simp [hp]), Option.some.injEq] at hstep
        have hmax : ¬ (s.fillHead l).recv_head_node.header.2 > MAX_LENGTH := by
          simp only [MAX_LENGTH]
          omega
        rw [Session.parseHead, if_neg (by simp [hshort]), Session.headDone, if_neg (by omega),
          if_neg hmax, Session.newNode, if_pos hlen] at hstep
        subst hstep
        refine ⟨sound_over (Or.inr rfl) h.head_cur h.nodes fun hp => h.started (Or.inl hp), rfl,
          ?_, ?_⟩
        · simp [Session.reads, Session.fillHead, Loop.copied]
        · simp [Session.clears, Session.fillHead, Loop.copied]
      · contradiction
  | await => simp [hctl] at hmem
  | stopped => simp [hctl] at hmem
  | post p l => simp [hctl] at hmem
  | after_post p l => simp [hctl] at hmem
  | clear_data l => simp [hctl] at hmem
  | clear_len l => simp [hctl] at hmem
  | check l => simp [hctl] at hmem

theorem sound_step {s t : Session} (h : Sound s) (hstep : s.step = some t) : Sound t := by
  by_cases hthrows : s.Throws
  · exact (step_throws h hthrows hstep).1
  · exact (step_moves h hthrows hstep).1

theorem sound_deliver {s : Session} (h : Sound s) {chunk : List Byte}
    (hpos : 0 < chunk.length) (hmax : chunk.length ≤ MAX_LENGTH) : Sound (s.deliver chunk) where
  head_cur := h.head_cur
  nodes := h.nodes
  started hp := h.started (hp.imp_right False.elim)
  unread l hl := by
    obtain rfl : _ = l := Option.some.inj hl
    exact hmax
  more l hl := by
    cases hl
    exact Nat.ne_of_gt hpos
  head_next hc := hc.elim

/-- **Every reachable state is sound**, whatever the peer sends. -/
theorem sound_exec {as : List Action} {s : Session}
    (hrun : system.exec system.init as = some s) : Sound s := by
  refine system.exec_inv (P := Sound) ?_ ?_ hrun
  · intro s a t h hact
    cases a with
    | step => exact sound_step h hact
    | error =>
        simp only [system, Session.act] at hact
        split_ifs at hact with hctl
        rw [Option.some.injEq] at hact
        subst hact
        exact sound_over (Or.inr rfl) h.head_cur h.nodes fun hp => h.started (Or.inl hp)
    | deliver chunk =>
        simp only [system, Session.act] at hact
        split_ifs at hact with hchunk
        rw [Option.some.injEq] at hact
        exact hact ▸ sound_deliver h hchunk.2.1 hchunk.2.2
  · refine sound_over (Or.inl rfl) ?_ ?_ ?_
    · decide
    · intro r hr
      contradiction
    · intro hp
      contradiction

/-! ## A whole call -/

/-- What is running has a next step. -/
theorem exists_step {s : Session} (h : ¬ s.Over) : ∃ t, s.step = some t := by
  unfold Session.step
  cases hctl : s.ctl with
  | await => exact absurd (Or.inl hctl) h
  | stopped => exact absurd (Or.inr hctl) h
  | loop l =>
      simp only
      split_ifs <;> exact ⟨_, rfl⟩
  | post p l => cases s.recv_nodes <;> exact ⟨_, rfl⟩
  | after_post p l => exact ⟨_, rfl⟩
  | clear_data l => cases s.recv_nodes <;> exact ⟨_, rfl⟩
  | clear_len l => cases s.recv_nodes <;> exact ⟨_, rfl⟩
  | check l =>
      simp only
      split_ifs <;> exact ⟨_, rfl⟩

theorem step_over {s : Session} (h : s.Over) : s.step = none := by
  rcases h with hctl | hctl <;> simp [Session.step, hctl]

/-- From a state of a call that never throws. -/
theorem call_ends {s : Session} (h : Sound s) (hrun : ¬ s.Over)
    (hno : ∀ u, Relation.ReflTransGen StepTo s u → ¬ u.Throws) :
    ∃ t, Relation.ReflTransGen StepTo s t ∧ t.Over ∧
      ((t.ctl = .await ∧ t.reads = s.reads + 1 ∧ t.clears = s.clears) ∨
        (t.ctl = .stopped ∧ t.reads = s.reads ∧ t.clears = s.clears + 1)) := by
  induction hm : s.measure using Nat.strongRecOn generalizing s with
  | ind m ih =>
      obtain ⟨t, hstep⟩ := exists_step hrun
      obtain ⟨hsound, hmoves⟩ := step_moves h (hno s Relation.ReflTransGen.refl) hstep
      rcases hmoves with harm | hclear | ⟨hrun', hr, hc, hlt⟩
      · exact ⟨t, Relation.ReflTransGen.single hstep, Or.inl harm.1, Or.inl harm⟩
      · exact ⟨t, Relation.ReflTransGen.single hstep, Or.inr hclear.1, Or.inr hclear⟩
      · obtain ⟨u, hu, hover, hends⟩ := ih t.measure (hm ▸ hlt) hsound hrun'
          (fun v hv => hno v (Relation.ReflTransGen.head hstep hv)) rfl
        rw [hr, hc] at hends
        exact ⟨u, Relation.ReflTransGen.head hstep hu, hover, hends⟩

/-- Up to its last step a call arms no read and clears nothing. -/
theorem counts_running {s u : Session} (h : Sound s) (hu : Relation.ReflTransGen StepTo s u)
    (hrun : ¬ u.Over) : Sound u ∧ u.reads = s.reads ∧ u.clears = s.clears := by
  induction hu with
  | refl => exact ⟨h, rfl, rfl⟩
  | @tail v u hv hstep ih =>
      have hv' : ¬ v.Over := fun hover => by
        have hnone := step_over hover
        rw [StepTo, hnone] at hstep
        contradiction
      obtain ⟨hsound, hreads, hclears⟩ := ih hv'
      by_cases hthrows : v.Throws
      · exact absurd (Or.inr (step_throws hsound hthrows hstep).2.1) hrun
      · obtain ⟨hsound', hmoves⟩ := step_moves hsound hthrows hstep
        rcases hmoves with ⟨hctl, -⟩ | ⟨hctl, -⟩ | ⟨-, hr, hc, -⟩
        · exact absurd (Or.inl hctl) hrun
        · exact absurd (Or.inr hctl) hrun
        · exact ⟨hsound', hr.trans hreads, hc.trans hclears⟩

/-- A call has one end. -/
theorem end_unique {s t t' : Session} (ht : Relation.ReflTransGen StepTo s t) (hover : t.Over)
    (ht' : Relation.ReflTransGen StepTo s t') (hover' : t'.Over) : t = t' := by
  have hunique : Relator.RightUnique StepTo := fun a b c hb hc =>
    Option.some.inj (hb.symm.trans hc)
  have hlast : ∀ {a b : Session}, a.Over → Relation.ReflTransGen StepTo a b → a = b := by
    intro a b ha hab
    rcases Relation.ReflTransGen.cases_head hab with heq | ⟨c, hac, -⟩
    · exact heq
    · rw [StepTo, step_over ha] at hac
      contradiction
  rcases Relation.ReflTransGen.total_of_right_unique hunique ht ht' with hab | hba
  · exact hlast hover hab
  · exact (hlast hover' hba).symm

/-- From a sound state a call ends as it should if and only if it does not throw. -/
theorem Sound.keepsOneRead_iff {s : Session} (hs : Sound s) {chunk : List Byte}
    (hpos : 0 < chunk.length) (hmax : chunk.length ≤ MAX_LENGTH) :
    KeepsOneRead s chunk ↔ NoThrow s chunk := by
  have hdeliver := sound_deliver hs hpos hmax
  have hrunning : ¬ (s.deliver chunk).Over := by rintro (hc | hc) <;> contradiction
  constructor
  · rintro ⟨-, t, ⟨ht, hover⟩, hends⟩ u hu hthrows
    -- the call ends where it throws
    have hrunu : ¬ u.Over := by
      intro hover
      obtain ⟨hd, hmem, -⟩ := hthrows
      rcases hover with hc | hc <;> simp [Session.nextHeader, hc] at hmem
    obtain ⟨hsound, hreads, hclears⟩ := counts_running hdeliver hu hrunu
    obtain ⟨v, hstep⟩ := exists_step hrunu
    obtain ⟨-, hstopped, hr, hc⟩ := step_throws hsound hthrows hstep
    obtain rfl := end_unique ht hover (hu.tail hstep) (Or.inr hstopped)
    have hreads' : t.reads = s.reads := hr.trans hreads
    have hclears' : t.clears = s.clears := hc.trans hclears
    rcases hends with ⟨hawait, -⟩ | ⟨-, -, hclear⟩
    · rw [hawait] at hstopped
      contradiction
    · omega
  · intro hno
    obtain ⟨t, ht, hover, hends⟩ := call_ends hdeliver hrunning hno
    exact ⟨fun _ => hs.head_cur, t, ⟨ht, hover⟩, hends⟩

/-! ## The result -/

/-- **`HandleRead` after any run.** With any chunk that a read may deliver the call ends with
one read armed and the session not cleared, or cleared once and no read armed, and the header
that it may wait for is incomplete, exactly if no header that it completes, with an accepted
id, has a length below -1. -/
theorem armed_iff (as : List Action) (s : Session) (hrun : system.exec system.init as = some s)
    (chunk : List Byte) (hpos : 0 < chunk.length) (hmax : chunk.length ≤ MAX_LENGTH) :
    KeepsOneRead s chunk ↔ NoThrow s chunk :=
  (sound_exec hrun).keepsOneRead_iff hpos hmax

/-- Header and body in one chunk, on a fresh session. -/
theorem armed_iff_oneMessage :
    KeepsOneRead system.init [0, 7, 0, 1, 42] ↔ NoThrow system.init [0, 7, 0, 1, 42] :=
  armed_iff [] system.init rfl [0, 7, 0, 1, 42] (by decide) (by decide)

/-- A header of four bytes, with the id 7 and the length -2: neither a read nor a
`ClearSession`. -/
theorem armed_broken : ¬ KeepsOneRead system.init [0, 7, 255, 254] := by
  intro hkeeps
  have hsound : Sound system.init := @sound_exec [] _ rfl
  have hno := (hsound.keepsOneRead_iff (by decide) (by decide)).mp hkeeps
  refine hno _ Relation.ReflTransGen.refl ⟨(7, -2), ?_, ?_, ?_⟩
  · decide
  · decide
  · decide

end BoostNet.CSession
