/-
The bounds of `CSession::HandleRead` (Network/asyncServer and asyncServer_ThreadPool)
against any peer: what its copies read and where they write.

The length in a header is a signed short and is compared with `MAX_LENGTH` only, so a
negative one passes: a node with a negative `_total_len` is built, and what is left of
the chunk is copied into a buffer of no bytes.

* `bounds_iff`: over every stream, every segmentation and every failure of a read, a
  run stays in bounds exactly if no header with an accepted id announces a negative
  length. The invariant is `Wf`.
* `bounds_broken`: five bytes from a peer that break them.
-/
import BoostNet.CSession

set_option autoImplicit false

namespace BoostNet.CSession

/-! ## What is in bounds, and the condition -/

/-- The access reads what was received in this chunk and writes inside its buffer. -/
def Event.InRange : Event → Prop
  | .copy start n received pos size =>
      n = 0 ∨ (0 ≤ start ∧ start + n ≤ received ∧ 0 ≤ pos ∧ pos + n ≤ size)
  | .store pos size => 0 ≤ pos ∧ pos < size
  | .fill n size => n ≤ size
  | .build total_len => 0 ≤ total_len
  | .null_node => False
  | .post _ _ | .read | .clear => True

/-- Every access so far was in range, and no node was built with a negative length. -/
def Session.InBounds (s : Session) : Prop := ∀ e ∈ s.log, e.InRange

/-- The id and the length in the header that the next step completes, if it does. -/
def Session.nextHeader (s : Session) : Option (Int × Int) :=
  match s.ctl with
  | .loop l =>
      if l.bytes_transferred ≠ 0 ∧ s.b_head_parse = false ∧ s.headShort l = false then
        some (s.fillHead l).recv_head_node.header
      else none
  | .await | .post _ _ | .after_post _ _ | .clear_data _ | .clear_len _ | .check _
  | .stopped => none

/-- The length in a header with an accepted id is not negative. -/
def NoNegativeLength (s : Session) (a : Action) : Prop :=
  a = .step → ∀ h ∈ s.nextHeader, h.1 ≤ MAX_LENGTH → 0 ≤ h.2

instance (s : Session) (a : Action) : Decidable (NoNegativeLength s a) :=
  inferInstanceAs (Decidable (_ → _))

/-! ## The invariant -/

structure NodeOk (m : MsgNode) : Prop where
  cur_len : 0 ≤ m.cur_len ∧ m.cur_len ≤ m.total_len
  total_len : m.total_len ≤ MAX_LENGTH

structure LoopOk (l : Loop) : Prop where
  copy_len : 0 ≤ l.copy_len
  unread : l.copy_len + l.bytes_transferred ≤ l.received
  received : l.received ≤ MAX_LENGTH

/-- The locals of the call that runs. -/
def Ctl.locals : Ctl → Option Loop
  | .await | .stopped => none
  | .loop l | .post _ l | .after_post _ l | .clear_data l | .clear_len l | .check l => some l

/-- A message is being posted or was just posted. -/
def Ctl.Posting : Ctl → Prop
  | .post _ _ | .after_post _ _ | .clear_data _ | .clear_len _ => True
  | .await | .stopped | .loop _ | .check _ => False

structure Wf (s : Session) : Prop where
  head_len : s.recv_head_node.total_len = HEAD_TOTAL_LEN
  head_cur : 0 ≤ s.recv_head_node.cur_len ∧ s.recv_head_node.cur_len < HEAD_TOTAL_LEN
  nodes : ∀ r ∈ s.recv_nodes, NodeOk r.node
  started : s.b_head_parse = true ∨ s.ctl.Posting → s.recv_nodes ≠ []
  loop : ∀ l, s.ctl.locals = some l → LoopOk l
  safe : s.InBounds

/-- The log stays in bounds with what a step in bounds adds. -/
theorem inBounds_append {s : Session} (h : s.InBounds) {es : List Event}
    (hes : ∀ e ∈ es, e.InRange) : ∀ e ∈ s.log ++ es, e.InRange := by
  intro e he
  rcases List.mem_append.mp he with he | he
  · exact h e he
  · exact hes e he

/-- The call returns with a read armed. -/
theorem wf_arm {s : Session} (h : Wf s) : Wf s.arm where
  head_len := h.head_len
  head_cur := h.head_cur
  nodes := h.nodes
  started := by
    rintro (hp | hp)
    · exact h.started (Or.inl hp)
    · exact hp.elim
  loop := fun l hl => by cases hl
  safe := inBounds_append h.safe (by simp [Event.InRange])

/-- `Clear` keeps the node as large as it is. -/
theorem wf_clear {s : Session} (h : Wf s) : Wf s.clear where
  head_len := h.head_len
  head_cur := h.head_cur
  nodes := h.nodes
  started := by
    rintro (hp | hp)
    · exact h.started (Or.inl hp)
    · exact hp.elim
  loop := fun l hl => by cases hl
  safe := inBounds_append h.safe (by simp [Event.InRange])

/-- As much of the chunk is left as was not consumed. -/
theorem loopOk_consume {l : Loop} (h : LoopOk l) {n : Int} (hn : 0 ≤ n)
    (hle : n ≤ l.bytes_transferred) : LoopOk (l.consume n) := by
  obtain ⟨hc, hu, hr⟩ := h
  have hsize := toSize_nonneg (x := l.bytes_transferred - n) (by omega)
    (by simp only [MAX_LENGTH] at hr; omega)
  exact ⟨hc, by simp only [Loop.consume]; omega, hr⟩

/-- And the place in the chunk stays inside of it. -/
theorem loopOk_skip {l : Loop} (h : LoopOk l) {n : Int} (hn : 0 ≤ n)
    (hle : n ≤ l.bytes_transferred) : LoopOk ((l.skip n).consume n) := by
  obtain ⟨hc, hu, hr⟩ := h
  have hsize := toSize_nonneg (x := l.bytes_transferred - n) (by omega)
    (by simp only [MAX_LENGTH] at hr; omega)
  refine ⟨?_, ?_, hr⟩
  · simp only [Loop.consume, Loop.skip]
    omega
  · simp only [Loop.consume, Loop.skip]
    omega

/-- A copy of at most the unread bytes to where the node has room for them. -/
theorem copied_inRange {l : Loop} (h : LoopOk l) {n : Nat} {m : MsgNode}
    (hn : n ≤ l.bytes_transferred) (hpos : 0 ≤ m.cur_len)
    (hroom : m.cur_len + n ≤ m.total_len + 1) : (l.copied n m).InRange := by
  obtain ⟨hc, hu, hr⟩ := h
  exact Or.inr ⟨hc, by omega, hpos, hroom⟩

/-! ### The branches of the loop -/

theorem nodeOk_new {n : Int} (h : 0 ≤ n) (h' : n ≤ MAX_LENGTH) : NodeOk (.new n) :=
  ⟨⟨Int.le_refl 0, h⟩, h'⟩

/-- `_cur_len += n` does not wrap while the body has room for it. -/
theorem nodeOk_advance {m : MsgNode} (h : NodeOk m) {n : Int} (hn : 0 ≤ n)
    (hle : m.cur_len + n ≤ m.total_len) (src : List Byte) :
    NodeOk ((m.copy src).advance n) := by
  obtain ⟨⟨hc, hc'⟩, ht⟩ := h
  simp only [MAX_LENGTH] at ht
  have hshort : toShort (m.cur_len + n) = m.cur_len + n := toShort_of_range (by omega) (by omega)
  refine ⟨?_, by simp only [MAX_LENGTH]; exact ht⟩
  show 0 ≤ toShort (m.cur_len + n) ∧ toShort (m.cur_len + n) ≤ m.total_len
  rw [hshort]
  omega

/-- A node of a length that was checked is large enough for what is copied to it. -/
theorem wf_newNode {s : Session} (h : Wf s) {l : Loop} (hl : LoopOk l) {msg_id data_len : Int}
    (hlen : 0 ≤ data_len) (hmax : data_len ≤ MAX_LENGTH) : Wf (s.newNode l msg_id data_len) := by
  have hnode := nodeOk_new hlen hmax
  have hmax' : data_len ≤ 2048 := hmax
  have hsize : (toSize data_len : Int) = data_len := toSize_nonneg hlen (by omega)
  have hstore : (Event.store data_len (data_len + 1)).InRange := ⟨hlen, by omega⟩
  have hcopy : ∀ n : Nat, n ≤ l.bytes_transferred → n ≤ toSize data_len →
      (l.copied n (.new data_len)).InRange := by
    intro n hn hn'
    exact copied_inRange hl hn (Int.le_refl 0) (by simp only [MsgNode.new]; omega)
  unfold Session.newNode
  rw [if_neg (by omega)]
  split_ifs with hlt
  · -- a part of the body: fewer bytes than the node has room for
    refine wf_arm ⟨h.head_len, h.head_cur, ?_, fun _ => by simp, h.loop, ?_⟩
    · refine List.forall_mem_cons.mpr ⟨?_, h.nodes⟩
      exact nodeOk_advance hnode (by omega) (by simp only [MsgNode.new]; omega) _
    · apply inBounds_append h.safe
      simp only [List.forall_mem_cons]
      exact ⟨hlen, hstore, hcopy _ (Nat.le_refl _) (Nat.le_of_lt hlt), List.forall_mem_nil _⟩
  · -- the whole body, and the zero behind it
    refine ⟨h.head_len, h.head_cur, ?_, fun _ => by simp, ?_, ?_⟩
    · refine List.forall_mem_cons.mpr ⟨?_, h.nodes⟩
      have hadv := nodeOk_advance hnode hlen (by simp only [MsgNode.new]; omega)
        (s.source l (toSize data_len))
      exact ⟨hadv.cur_len, hadv.total_len⟩
    · intro l' hl'
      cases hl'
      exact loopOk_skip hl hlen (by omega)
    · apply inBounds_append h.safe
      simp only [List.forall_mem_cons]
      exact ⟨hlen, hstore, hcopy _ (Nat.le_of_not_lt hlt) (Nat.le_refl _), hstore,
        List.forall_mem_nil _⟩

/-- The header branch, when the header it may complete announces no negative length. -/
theorem wf_parseHead {s : Session} (h : Wf s) {l : Loop} (hl : LoopOk l)
    (hG : s.headShort l = false → (s.fillHead l).recv_head_node.header.1 ≤ MAX_LENGTH →
      0 ≤ (s.fillHead l).recv_head_node.header.2) : Wf (s.parseHead l) := by
  obtain ⟨hc, hu, hr⟩ := hl
  obtain ⟨hcur, hcur'⟩ := h.head_cur
  have hlen := h.head_len
  have hshort := headShort_iff (l := l) hcur hcur' (by omega)
  simp only [HEAD_TOTAL_LEN, MAX_LENGTH] at hcur' hlen hr hshort
  have hremain : (toSize s.headRemain : Int) = s.headRemain :=
    toSize_nonneg (by simp only [Session.headRemain, HEAD_TOTAL_LEN]; omega)
      (by simp only [Session.headRemain, HEAD_TOTAL_LEN]; omega)
  simp only [Session.headRemain, HEAD_TOTAL_LEN] at hremain
  unfold Session.parseHead
  split_ifs with hcond
  · -- the header is still incomplete
    have hfour := hshort.mp hcond
    have hsum : toShort (s.recv_head_node.cur_len + l.bytes_transferred) =
        s.recv_head_node.cur_len + l.bytes_transferred := toShort_of_range (by omega) (by omega)
    refine wf_arm ⟨h.head_len, ?_, h.nodes, h.started, h.loop, inBounds_append h.safe ?_⟩
    · show 0 ≤ toShort (s.recv_head_node.cur_len + l.bytes_transferred) ∧
        toShort (s.recv_head_node.cur_len + l.bytes_transferred) < HEAD_TOTAL_LEN
      rw [hsum]
      simp only [HEAD_TOTAL_LEN]
      omega
    · simp only [List.forall_mem_cons]
      refine ⟨copied_inRange ⟨hc, hu, hr⟩ (Nat.le_refl _) hcur (by omega), List.forall_mem_nil _⟩
  · -- the header is complete
    have hfour := mt hshort.mpr hcond
    have hle : toSize s.headRemain ≤ l.bytes_transferred := by
      simp only [Session.headRemain, HEAD_TOTAL_LEN]
      omega
    have hfill : Wf (s.fillHead l) := by
      refine ⟨h.head_len, h.head_cur, h.nodes, h.started, h.loop, inBounds_append h.safe ?_⟩
      simp only [List.forall_mem_cons]
      refine ⟨copied_inRange ⟨hc, hu, hr⟩ hle hcur ?_, List.forall_mem_nil _⟩
      simp only [Session.headRemain, HEAD_TOTAL_LEN]
      omega
    have hl' : LoopOk ((l.skip s.headRemain).consume s.headRemain) := by
      refine loopOk_skip ⟨hc, hu, hr⟩ ?_ ?_
      · simp only [Session.headRemain, HEAD_TOTAL_LEN]
        omega
      · simp only [Session.headRemain, HEAD_TOTAL_LEN] at hle ⊢
        omega
    unfold Session.headDone
    split_ifs with hid hmax
    · exact wf_clear hfill
    · exact wf_clear hfill
    · exact wf_newNode hfill hl' (hG (by simpa using hcond) (Int.not_lt.mp hid))
        (Int.not_lt.mp hmax)

/-- A body gets no more bytes than its node has room for. -/
theorem wf_parseBody {s : Session} (h : Wf s) (hp : s.b_head_parse = true) {l : Loop}
    (hl : LoopOk l) : Wf (s.parseBody l) := by
  have hne := h.started (Or.inl hp)
  unfold Session.parseBody
  cases hnodes : s.recv_nodes with
  | nil => exact absurd hnodes hne
  | cons r rest =>
      have hall := h.nodes
      rw [hnodes] at hall
      obtain ⟨hr, hrest⟩ := List.forall_mem_cons.mp hall
      obtain ⟨⟨hcur, hcur'⟩, htotal⟩ := hr
      have htotal' : r.node.total_len ≤ 2048 := htotal
      have hsize : (toSize r.node.remain : Int) = r.node.remain :=
        toSize_nonneg (by simp only [MsgNode.remain]; omega)
          (by simp only [MsgNode.remain]; omega)
      simp only [MsgNode.remain] at hsize
      have hcopy : ∀ n : Nat, n ≤ l.bytes_transferred → n ≤ toSize r.node.remain →
          (l.copied n r.node).InRange := by
        intro n hn hn'
        simp only [MsgNode.remain] at hn'
        exact copied_inRange hl hn hcur (by omega)
      simp only
      split_ifs with hlt
      · -- the body stays incomplete, and `_cur_len` as it is
        refine wf_arm ⟨h.head_len, h.head_cur, ?_, fun _ => by simp, h.loop,
          inBounds_append h.safe ?_⟩
        · exact List.forall_mem_cons.mpr ⟨⟨⟨hcur, hcur'⟩, htotal⟩, hrest⟩
        · simp only [List.forall_mem_cons]
          exact ⟨hcopy _ (Nat.le_refl _) (Nat.le_of_lt hlt), List.forall_mem_nil _⟩
      · -- the rest of the body, and the zero behind it
        refine ⟨h.head_len, h.head_cur, ?_, fun _ => by simp, ?_, inBounds_append h.safe ?_⟩
        · have hadv := nodeOk_advance ⟨⟨hcur, hcur'⟩, htotal⟩ (n := r.node.remain)
            (by simp only [MsgNode.remain]; omega) (by simp only [MsgNode.remain]; omega)
            (s.source l (toSize r.node.remain))
          exact List.forall_mem_cons.mpr ⟨⟨hadv.cur_len, hadv.total_len⟩, hrest⟩
        · intro l' hl'
          cases hl'
          apply loopOk_consume hl (by simp only [MsgNode.remain]; omega)
          simp only [MsgNode.remain] at hlt ⊢
          omega
        · simp only [List.forall_mem_cons]
          refine ⟨hcopy _ (Nat.le_of_not_lt hlt) (Nat.le_refl _), ⟨by omega, by omega⟩,
            List.forall_mem_nil _⟩

/-- A step that completes no header with a negative length keeps all sizes as they should be. -/
theorem wf_step {s t : Session} (h : Wf s) (hG : NoNegativeLength s .step)
    (hstep : s.step = some t) : Wf t := by
  unfold Session.step at hstep
  split at hstep
  · cases hstep
  · cases hstep
  · next l hctl =>
      have hl := h.loop l (by rw [hctl]; rfl)
      -- an iteration of the loop
      split_ifs at hstep with hzero hp
      · cases hstep
        exact ⟨h.head_len, h.head_cur, h.nodes, fun hp => h.started (hp.imp_right False.elim),
          (fun l' hl' => by cases hl'), h.safe⟩
      · cases hstep
        exact wf_parseBody h hp hl
      · cases hstep
        refine wf_parseHead h hl fun hcond hid => hG rfl _ ?_ hid
        simp [Session.nextHeader, hctl, hzero, hp, hcond]
  · next p l hctl =>
      -- `PostMsgToQue`
      have hl := h.loop l (by rw [hctl]; rfl)
      have hne := h.started (Or.inr (by rw [hctl]; trivial))
      split at hstep
      · next hnodes => exact absurd hnodes hne
      · cases hstep
        refine ⟨h.head_len, h.head_cur, h.nodes, fun _ => hne, ?_, inBounds_append h.safe ?_⟩
        · intro l' hl'
          cases hl'
          exact hl
        · simp [Event.InRange]
  · next p l hctl =>
      have hl := h.loop l (by rw [hctl]; rfl)
      have hne := h.started (Or.inr (by rw [hctl]; trivial))
      -- `_recv_head_node->Clear()`
      cases hstep
      refine ⟨h.head_len, ⟨Int.le_refl 0, by simp [HEAD_TOTAL_LEN, MsgNode.reset]⟩, h.nodes,
        fun _ => hne, ?_, inBounds_append h.safe ?_⟩
      · intro l' hl'
        cases p <;> cases hl' <;> exact hl
      · have hlen := h.head_len
        simp only [HEAD_TOTAL_LEN] at hlen
        simp only [List.forall_mem_cons, hlen]
        exact ⟨by show ((toSize 4 : Nat) : Int) ≤ 4 + 1; decide, List.forall_mem_nil _⟩
  · next l hctl =>
      have hl := h.loop l (by rw [hctl]; rfl)
      have hne := h.started (Or.inr (by rw [hctl]; trivial))
      split at hstep
      · next hnodes => exact absurd hnodes hne
      · next r rest hnodes =>
          cases hstep
          have hall := h.nodes
          rw [hnodes] at hall
          obtain ⟨⟨hcur, htotal⟩, hrest⟩ := List.forall_mem_cons.mp hall
          have htotal' : r.node.total_len ≤ 2048 := htotal
          -- the `memset` of `_recv_msg_node->Clear()`
          have hsize := toSize_nonneg (x := r.node.total_len) (by omega) (by omega)
          refine ⟨h.head_len, h.head_cur, List.forall_mem_cons.mpr ⟨⟨hcur, htotal⟩, hrest⟩,
            fun _ => by simp, ?_, inBounds_append h.safe ?_⟩
          · intro l' hl'
            cases hl'
            exact hl
          · simp only [List.forall_mem_cons]
            exact ⟨by simp only [Event.InRange]; omega, List.forall_mem_nil _⟩
  · next l hctl =>
      have hl := h.loop l (by rw [hctl]; rfl)
      have hne := h.started (Or.inr (by rw [hctl]; trivial))
      split at hstep
      · next hnodes => exact absurd hnodes hne
      · next r rest hnodes =>
          cases hstep
          have hall := h.nodes
          rw [hnodes] at hall
          obtain ⟨⟨hcur, htotal⟩, hrest⟩ := List.forall_mem_cons.mp hall
          refine ⟨h.head_len, h.head_cur, List.forall_mem_cons.mpr ⟨⟨⟨Int.le_refl 0, ?_⟩, htotal⟩,
            hrest⟩, fun _ => by simp, ?_, h.safe⟩
          · exact Int.le_trans hcur.1 hcur.2
          · intro l' hl'
            cases hl'
            exact hl
  · next l hctl =>
      have hl := h.loop l (by rw [hctl]; rfl)
      split_ifs at hstep
      · cases hstep
        exact wf_arm h
      · cases hstep
        refine ⟨h.head_len, h.head_cur, h.nodes, fun hp => h.started (hp.imp_right False.elim),
          ?_, h.safe⟩
        intro l' hl'
        cases hl'
        exact hl

/-- So does a read, which brings a chunk of `MAX_LENGTH` bytes at most. -/
theorem wf_act {s t : Session} {a : Action} (h : Wf s) (hG : NoNegativeLength s a)
    (hstep : s.act a = some t) : Wf t := by
  cases a with
  | step => exact wf_step h hG hstep
  | error =>
      simp only [Session.act] at hstep
      split_ifs at hstep
      cases hstep
      exact wf_clear h
  | deliver chunk =>
      simp only [Session.act] at hstep
      split_ifs at hstep with hchunk
      cases hstep
      obtain ⟨-, -, hlen⟩ := hchunk
      refine ⟨h.head_len, h.head_cur, h.nodes, fun hp => h.started (hp.imp_right False.elim),
        ?_, h.safe⟩
      intro l hl
      cases hl
      exact ⟨Int.le_refl 0, by simp only; omega, hlen⟩

theorem wf_init : Wf system.init where
  head_len := rfl
  head_cur := by decide
  nodes r hr := by cases hr
  started := by rintro (h | h) <;> cases h
  loop l hl := by cases hl
  safe e he := by cases he

/-! ## The trap -/

/-- A node of negative length is built. -/
theorem broken_of_negative {s t : Session} {a : Action} (hG : ¬ NoNegativeLength s a)
    (hstep : s.act a = some t) : ¬ t.InBounds := by
  simp only [NoNegativeLength, Classical.not_imp, not_forall, Int.not_le] at hG
  obtain ⟨rfl, hd, hmem, hid, hneg⟩ := hG
  unfold Session.nextHeader at hmem
  split at hmem
  · next l hctl =>
      split_ifs at hmem with hcond
      · obtain ⟨hpos, hp, hshort⟩ := hcond
        obtain rfl := Option.some.inj hmem
        simp only [Session.act, Session.step, hctl] at hstep
        rw [if_neg hpos, if_neg (by simp [hp])] at hstep
        cases hstep
        -- a negative length passes the comparison with `MAX_LENGTH`
        have hmax : ¬ (s.fillHead l).recv_head_node.header.2 > MAX_LENGTH := by
          simp only [MAX_LENGTH]
          omega
        intro hsafe
        refine absurd (hsafe (.build (s.fillHead l).recv_head_node.header.2) ?_)
          (Int.not_le.mpr hneg)
        rw [Session.parseHead, if_neg (by simp [hshort]), Session.headDone, if_neg (by omega),
          if_neg hmax]
        unfold Session.newNode
        split_ifs <;> simp [Session.arm]
      · cases hmem
  all_goals cases hmem

/-! ### The history only grows -/

theorem log_arm (s : Session) : s.log <+: s.arm.log := List.prefix_append _ _

theorem log_newNode (s : Session) (l : Loop) (msg_id data_len : Int) :
    s.log <+: (s.newNode l msg_id data_len).log := by
  unfold Session.newNode
  split_ifs
  · exact List.prefix_append _ _
  · simp [Session.arm]
  · exact List.prefix_append _ _

theorem log_headDone (s : Session) (l : Loop) : s.log <+: (s.headDone l).log := by
  unfold Session.headDone
  split_ifs
  · exact List.prefix_append _ _
  · exact List.prefix_append _ _
  · exact log_newNode s l _ _

theorem log_parseHead (s : Session) (l : Loop) : s.log <+: (s.parseHead l).log := by
  unfold Session.parseHead
  split_ifs
  · simp [Session.arm]
  · exact (List.prefix_append _ _).trans (log_headDone (s.fillHead l) _)

theorem log_parseBody (s : Session) (l : Loop) : s.log <+: (s.parseBody l).log := by
  unfold Session.parseBody
  split
  · exact List.prefix_append _ _
  · split_ifs
    · simp [Session.arm]
    · exact List.prefix_append _ _

/-- What has happened stays in the log; this is why one access out of bounds is enough. -/
theorem log_step {s t : Session} (hstep : s.step = some t) : s.log <+: t.log := by
  unfold Session.step at hstep
  split at hstep
  · cases hstep
  · cases hstep
  · next l hctl =>
      split_ifs at hstep
      · cases hstep
        exact List.prefix_rfl
      · cases hstep
        exact log_parseBody s l
      · cases hstep
        exact log_parseHead s l
  · split at hstep <;> cases hstep <;> exact List.prefix_append _ _
  · cases hstep
    exact List.prefix_append _ _
  · split at hstep <;> cases hstep <;> exact List.prefix_append _ _
  · split at hstep
    · cases hstep
      exact List.prefix_append _ _
    · cases hstep
      exact List.prefix_rfl
  · split_ifs at hstep
    · cases hstep
      exact log_arm s
    · cases hstep
      exact List.prefix_rfl

/-- The same for any action. -/
theorem log_act {s t : Session} {a : Action} (hstep : s.act a = some t) : s.log <+: t.log := by
  cases a with
  | step => exact log_step hstep
  | error =>
      simp only [Session.act] at hstep
      split_ifs at hstep
      cases hstep
      exact List.prefix_append _ _
  | deliver chunk =>
      simp only [Session.act] at hstep
      split_ifs at hstep
      cases hstep
      exact List.prefix_rfl

/-- What was out of bounds stays so. -/
theorem broken_act {s t : Session} {a : Action} (hs : ¬ s.InBounds) (hstep : s.act a = some t) :
    ¬ t.InBounds :=
  fun ht => hs fun e he => ht e ((log_act hstep).mem he)

/-! ## The result -/

/-- **`HandleRead` against any peer**, over every run: all accesses are in bounds and no node has a
negative length, exactly if no header with an accepted id announces one. The test of the length has
an upper bound only, and a `short` that is negative passes it. -/
theorem bounds_iff (as : List Action) (s : Session)
    (hrun : system.exec system.init as = some s) :
    system.Along Session.InBounds system.init as ↔
      system.Always NoNegativeLength system.init as := by
  constructor
  · intro halong
    exact system.always_of_trap (T := fun s => ¬ s.InBounds)
      (fun _ _ _ h hG hstep => wf_act h hG hstep)
      (fun _ _ _ _ hG hstep => broken_of_negative hG hstep)
      (fun _ _ _ hs hstep => broken_act hs hstep) wf_init hrun
      (not_not_intro (halong.last system hrun))
  · intro hG
    exact system.along_of_always (fun _ h => h.safe) (fun _ _ _ h hG hstep => wf_act h hG hstep)
      wf_init hG

/-- A message of one byte and half of the next header. -/
def oneMessage : List Action :=
  [.deliver (storeField 7 ++ storeField 1 ++ [42] ++ storeField 8), .step, .step, .step, .step,
    .step]

theorem bounds_iff_oneMessage : system.Along Session.InBounds system.init oneMessage :=
  (bounds_iff oneMessage _ rfl).mpr (by decide)

/-- A header with the length -1, and one byte. -/
def negativeLength : List Action := [.deliver (storeField 7 ++ storeField (-1) ++ [42]), .step]

/-- A node without room is built, a byte before it is written, and the byte at hand is
copied past it. -/
theorem bounds_broken :
    ∃ s, system.exec system.init negativeLength = some s ∧
      .build (-1) ∈ s.log ∧ .store (-1) 0 ∈ s.log ∧ .copy 4 1 5 0 0 ∈ s.log ∧
      ¬ s.InBounds := by
  refine ⟨_, rfl, by decide, by decide, by decide, fun h => ?_⟩
  have hneg : (0 : Int) ≤ -1 := h (.build (-1)) (by decide)
  omega

end BoostNet.CSession
