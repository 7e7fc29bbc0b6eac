/-
`CSession::HandleRead` against a decoder of length-prefixed frames: a whole call on a
chunk does to the session what the decoder does on certain bytes.

They are the bytes of the chunk, except where the call continues a body. There a chunk
that does not complete the body is copied and forgotten, since `_cur_len` stays, and
after one that does, what follows is read from the beginning of the chunk, since
`copy_len` stays. `taken` says so.

* `handleRead_refines`: one call.
* `receive_refines`: a sequence of calls, as long as a read is armed.
-/
import BoostNet.CSession
import BoostNet.Framing

set_option autoImplicit false

namespace BoostNet.CSession

open Codec

/-! ## Whole calls -/

/-- At most `k` steps of the call that runs. -/
def Session.run : Nat → Session → Session
  | 0, s => s
  | k + 1, s => match s.step with
    | none => s
    | some t => t.run k

/-- A call of `HandleRead` to its end; `receive_returns` says that the steps are enough. -/
def Session.handleRead (s : Session) (chunk : List Byte) : Session :=
  (s.deliver chunk).run (4 * chunk.length + 2)

/-- What a read can give. -/
structure Chunk where
  bytes : List Byte
  nonempty : bytes ≠ []
  length_le : bytes.length ≤ MAX_LENGTH

/-- One call of `HandleRead` for each chunk, as long as a read is armed. -/
def Session.receive : Session → List Chunk → Session
  | s, [] => s
  | s, c :: cs => if s.ctl = .await then (s.handleRead c.bytes).receive cs else s

/-- What was handed to `PostMsgToQue`. -/
def Event.posted : Event → Option (Int × List Byte)
  | .post msg_id body => some (msg_id, body)
  | .copy _ _ _ _ _ | .store _ _ | .fill _ _ | .build _ | .null_node | .read | .clear => none

def Session.posts (s : Session) : List (Int × List Byte) := s.log.filterMap Event.posted

/-- Steps in two parts. -/
theorem run_add (s : Session) (j k : Nat) : s.run (j + k) = (s.run j).run k := by
  induction j generalizing s with
  | zero => rw [Nat.zero_add]; rfl
  | succ j ih =>
      rw [Nat.succ_add, Session.run, Session.run]
      cases hstep : s.step with
      | none =>
          cases k with
          | zero => rfl
          | succ k => simp only [Session.run, hstep]
      | some t => exact ih t

theorem run_one {s t : Session} (h : s.step = some t) : s.run 1 = t := by
  rw [Session.run, h]
  rfl

/-- A call that has returned does not go on. -/
theorem run_returned {s : Session} (h : s.step = none) (k : Nat) : s.run k = s := by
  cases k with
  | zero => rfl
  | succ k => rw [Session.run, h]

/-- More steps than a call has change nothing. -/
theorem run_of_le {s : Session} {j k : Nat} (h : (s.run j).step = none) (hle : j ≤ k) :
    s.run k = s.run j := by
  obtain ⟨i, rfl⟩ := Nat.exists_eq_add_of_le hle
  rw [run_add, run_returned h]

/-! ## The header as a codec -/

def encodeHeader (msg_id : Int) (n : Nat) : List Byte := storeField msg_id ++ storeField n

def parseHeader : List Byte → Option (Int × Nat)
  | [b0, b1, b2, b3] =>
      if loadField b0 b1 ≤ MAX_LENGTH ∧ 0 ≤ loadField b2 b3 ∧ loadField b2 b3 ≤ MAX_LENGTH then
        some (loadField b0 b1, (loadField b2 b3).toNat)
      else none
  | _ => none

/-- The headers of messages. A negative length is not one. -/
def codec : Codec Byte Int where
  headLen := HEAD_TOTAL_LEN
  headLen_pos := by decide
  Accepts msg_id n := -32768 ≤ msg_id ∧ msg_id ≤ MAX_LENGTH ∧ n ≤ MAX_LENGTH
  encode := encodeHeader
  parse := parseHeader
  encode_length _ _ := rfl
  parse_eq hd hlen msg_id n := by
    obtain ⟨b0, b1, b2, b3, rfl⟩ : ∃ b0 b1 b2 b3, hd = [b0, b1, b2, b3] := by
      match hd, hlen with
      | [b0, b1, b2, b3], _ => exact ⟨b0, b1, b2, b3, rfl⟩
    have hmax : MAX_LENGTH = 2048 := rfl
    simp only [parseHeader, encodeHeader]
    constructor
    · intro h
      split_ifs at h with hok
      · obtain ⟨rfl, rfl⟩ := Prod.mk.inj (Option.some.inj h)
        have hid := loadField_range b0 b1
        rw [Int.toNat_of_nonneg hok.2.1, store_load, store_load]
        exact ⟨⟨hid.1, hok.1, by omega⟩, rfl⟩
    · rintro ⟨⟨hid, hid', hn⟩, heq⟩
      obtain ⟨hl, hr⟩ := List.append_inj
        (show storeField msg_id ++ storeField n = [b0, b1] ++ [b2, b3] from heq.symm) rfl
      rw [load_store hid (by omega) hl, load_store (by omega) (by omega) hr,
        if_pos ⟨hid', by omega, by omega⟩, Int.toNat_natCast]

/-! ## Nodes and the bytes in them -/

/-- The node is filled with `acc` and has room for the rest. -/
structure MsgNode.Holds (m : MsgNode) (acc : List Byte) : Prop where
  cur_len : m.cur_len = acc.length
  size : (m.data.length : Int) = m.total_len + 1
  room : (acc.length : Int) ≤ m.total_len
  bytes : m.data.take acc.length = acc

theorem holds_new {n : Int} (h : 0 ≤ n) : (MsgNode.new n).Holds [] where
  cur_len := rfl
  size := by simp only [MsgNode.new, List.length_replicate]; omega
  room := h
  bytes := rfl

/-- What is copied to a node stands behind what it holds. -/
theorem MsgNode.Holds.take_copy {m : MsgNode} {acc : List Byte} (h : m.Holds acc)
    {src : List Byte} (hroom : acc.length + src.length ≤ m.total_len) :
    (m.copy src).data.take (acc.length + src.length) = acc ++ src := by
  have hsize := h.size
  show (overwrite m.data m.cur_len src).take _ = _
  rw [h.cur_len, take_overwrite (by omega), h.bytes]

/-- `memcpy` without `_cur_len += n`: the bytes are there and do not count. -/
theorem MsgNode.Holds.copy {m : MsgNode} {acc : List Byte} (h : m.Holds acc)
    {src : List Byte} (hroom : acc.length + src.length ≤ m.total_len) : (m.copy src).Holds acc where
  cur_len := h.cur_len
  size := by
    show ((overwrite m.data m.cur_len src).length : Int) = m.total_len + 1
    rw [overwrite_length, h.size]
  room := h.room
  bytes := by
    have htake := congrArg (List.take acc.length) (h.take_copy hroom)
    rwa [List.take_take, Nat.min_eq_left (Nat.le_add_right _ _), List.take_left] at htake

/-- `memcpy` and `_cur_len += n`. -/
theorem MsgNode.Holds.copy_advance {m : MsgNode} {acc : List Byte} (h : m.Holds acc)
    (src : List Byte) (hroom : acc.length + src.length ≤ m.total_len)
    (hmax : m.total_len ≤ MAX_LENGTH) : ((m.copy src).advance src.length).Holds (acc ++ src) where
  cur_len := by
    have hcur := h.cur_len
    simp only [MAX_LENGTH] at hmax
    show toShort (m.cur_len + src.length) = _
    rw [toShort_of_range (by omega) (by omega), List.length_append]
    omega
  size := (h.copy hroom).size
  room := by rw [List.length_append]; exact_mod_cast hroom
  bytes := by rw [List.length_append]; exact h.take_copy hroom

/-- `_data[_total_len] = 0` is behind the bytes. -/
theorem MsgNode.Holds.terminate {m : MsgNode} {acc : List Byte} (h : m.Holds acc) :
    m.terminate.Holds acc where
  cur_len := h.cur_len
  size := by
    show ((overwrite m.data m.total_len [0]).length : Int) = m.total_len + 1
    rw [overwrite_length, h.size]
  room := h.room
  bytes := by
    have hsize := h.size
    have hroom := h.room
    obtain ⟨n, hn⟩ := Int.eq_ofNat_of_zero_le (show 0 ≤ m.total_len by omega)
    show (overwrite m.data m.total_len [0]).take acc.length = acc
    -- the zero goes to the last byte, which holds no part of the body
    rw [hn, overwrite_eq (by rw [List.length_singleton]; omega), List.append_assoc,
      List.take_append_of_le_length (by rw [List.length_take]; omega), List.take_take,
      Nat.min_eq_left (by omega), h.bytes]

theorem MsgNode.Holds.clear {m : MsgNode} {acc : List Byte} (h : m.Holds acc) :
    m.erase.reset.Holds [] where
  cur_len := rfl
  size := by
    show ((zero m.data (toSize m.total_len)).length : Int) = m.total_len + 1
    rw [zero_length, h.size]
  room := Int.le_trans (Int.natCast_nonneg _) h.room
  bytes := rfl

/-- A complete node, with the zero behind it, is the body. -/
theorem MsgNode.Holds.string {m : MsgNode} {acc : List Byte} (h : m.Holds acc) :
    m.string = acc := by
  rw [MsgNode.string, h.cur_len, Int.toNat_natCast, h.bytes]

/-- The header in a node with four bytes. -/
theorem parseHeader_eq {m : MsgNode} {hd : List Byte} (h : m.data.take 4 = hd)
    (hlen : hd.length = 4) :
    parseHeader hd =
      if m.header.1 ≤ MAX_LENGTH ∧ 0 ≤ m.header.2 ∧ m.header.2 ≤ MAX_LENGTH then
        some (m.header.1, m.header.2.toNat)
      else none := by
  match hd, hlen with
  | [b0, b1, b2, b3], _ =>
    have hget : ∀ i, i < 4 → m.data.getD i 0 = [b0, b1, b2, b3].getD i 0 := by
      intro i hi
      rw [← h, List.getD_eq_getElem?_getD, List.getD_eq_getElem?_getD, List.getElem?_take_of_lt hi]
    simp only [MsgNode.header, hget 0 (by omega), hget 1 (by omega), hget 2 (by omega),
      hget 3 (by omega)]
    rfl

/-! ## The unread part of a chunk -/

/-- `R` is what the call has not consumed. -/
structure Unread (data : List Byte) (l : Loop) (R : List Byte) : Prop where
  copy_len : 0 ≤ l.copy_len
  count : l.bytes_transferred = R.length
  bytes : (data.drop l.copy_len.toNat).take R.length = R
  le : R.length ≤ MAX_LENGTH

/-- What is copied is what comes next in the chunk. -/
theorem Unread.source {s : Session} {l : Loop} {R : List Byte} (h : Unread s.data l R) {k : Nat}
    (hk : k ≤ R.length) : s.source l k = R.take k := by
  conv_rhs => rw [← h.bytes]
  rw [List.take_take, Nat.min_eq_left hk]
  rfl

/-- `bytes_transferred -= n` at a chunk of which `k` bytes are left out in front. -/
theorem Unread.consume {data : List Byte} {l : Loop} {R : List Byte} (h : Unread data l R)
    {n k : Nat} (hn : n ≤ R.length) (hk : k ≤ n) :
    Unread data ((l.skip k).consume n) ((R.drop k).take (R.length - n)) := by
  have hcount := h.count
  have hle := h.le
  have hpos := h.copy_len
  simp only [MAX_LENGTH] at hle
  have hlen : ((R.drop k).take (R.length - n)).length = R.length - n := by
    rw [List.length_take, List.length_drop]
    omega
  refine ⟨?_, ?_, ?_, ?_⟩
  · show 0 ≤ l.copy_len + k
    omega
  · rw [hlen, ← hcount]
    show toSize ((l.bytes_transferred : Int) - n) = _
    unfold toSize
    omega
  · -- what is read from now on begins `k` bytes later
    have hstart : (l.copy_len + k).toNat = l.copy_len.toNat + k := by omega
    have hdrop : ((data.drop l.copy_len.toNat).drop k).take (R.length - k) = R.drop k := by
      rw [← List.drop_take, h.bytes]
    show (data.drop (l.copy_len + k).toNat).take _ = _
    rw [hlen, hstart, ← List.drop_drop, ← hdrop, List.take_take, Nat.min_eq_left (by omega)]
  · rw [hlen]
    simp only [MAX_LENGTH]
    omega

/-! ## The session and the decoder -/

/-- The newest node is for a message of `n` bytes, of which it holds `acc`. -/
def Session.NodeHolds (s : Session) (msg_id : Int) (n : Nat) (acc : List Byte) : Prop :=
  ∃ r rest, s.recv_nodes = r :: rest ∧ r.msg_id = msg_id ∧ r.node.total_len = n ∧
    r.node.Holds acc

/-- The header node is there, and the session was not cleared. -/
structure Session.Open (s : Session) : Prop where
  head_len : s.recv_head_node.total_len = HEAD_TOTAL_LEN
  head : ∃ hd, s.recv_head_node.Holds hd
  uncleared : .clear ∉ s.log

structure Session.InHead (s : Session) (acc : List Byte) : Prop where
  parsing : s.b_head_parse = false
  ok : s.Open
  head : s.recv_head_node.Holds acc
  lt : acc.length < HEAD_TOTAL_LEN

structure Session.InBody (s : Session) (msg_id : Int) (n : Nat) (acc : List Byte) : Prop where
  parsing : s.b_head_parse = true
  ok : s.Open
  node : s.NodeHolds msg_id n acc
  lt : acc.length < n
  le : n ≤ MAX_LENGTH

/-- No message will come: nothing is armed, or the body that is awaited has a negative
length. -/
def Session.Silent (s : Session) : Prop :=
  s.ctl = .stopped ∨ (s.ctl = .await ∧ s.b_head_parse = true ∧
    ∃ r rest, s.recv_nodes = r :: rest ∧ r.node.remain < 0 ∧ -65536 ≤ r.node.remain)

/-- Between two calls, the session is where the decoder is. -/
def Session.At (s : Session) : Dec Byte Int → Prop
  | .head acc => s.ctl = .await ∧ s.InHead acc
  | .body msg_id n acc => s.ctl = .await ∧ s.InBody msg_id n acc
  | .dead => s.Silent

/-- The first read waits for a header. -/
theorem at_init : Session.At {} .start :=
  ⟨rfl, rfl, ⟨rfl, ⟨[], holds_new (by decide)⟩, List.not_mem_nil⟩, holds_new (by decide),
    by decide⟩

/-- A session that waits for a read is not in a call. -/
theorem Session.At.returned {s : Session} {d : Dec Byte Int} (h : s.At d) : s.step = none := by
  have hctl : s.ctl = .await ∨ s.ctl = .stopped := by
    cases d with
    | head acc => exact Or.inl h.1
    | body msg_id n acc => exact Or.inl h.1
    | dead => exact h.elim Or.inr fun h => Or.inl h.1
  rcases hctl with hctl | hctl <;> simp only [Session.step, hctl]

/-- The call that brought `s` to `t` did what the decoder did. -/
structure Done (s t : Session) (p : Dec Byte Int × List (Int × List Byte)) : Prop where
  state : t.At p.1
  posts : t.posts = s.posts ++ p.2

/-! ### The end of a message -/

theorem posts_append {s : Session} {es : List Event} (h : ∀ e ∈ es, e.posted = none) :
    Session.posts { s with log := s.log ++ es } = s.posts := by
  rw [Session.posts, List.filterMap_append, List.filterMap_eq_nil_iff.mpr h, List.append_nil]
  rfl

theorem Session.Open.arm {s : Session} (h : s.Open) : s.arm.Open :=
  ⟨h.head_len, h.head, by simp [Session.arm, h.uncleared]⟩

theorem posts_arm (s : Session) : s.arm.posts = s.posts :=
  posts_append (s := s) (by simp [Event.posted])

/-- How many steps there are from `PostMsgToQue` to the end of the message. -/
def Path.steps : Path → Nat
  | .header => 2
  | .continuation => 4

/-- From `PostMsgToQue` on: a header is awaited, and the rest of the chunk is not touched. -/
theorem run_post {s : Session} (h : s.Open) {p : Path} {l : Loop} (hctl : s.ctl = .post p l)
    {r : RecvNode} {rest : List RecvNode} (hnodes : s.recv_nodes = r :: rest) :
    (s.run p.steps).InHead [] ∧ (s.run p.steps).posts = s.posts ++ [(r.msg_id, r.node.string)] ∧
      (s.run p.steps).ctl = .check l ∧ (s.run p.steps).data = s.data := by
  obtain ⟨hlen, ⟨hd, hhd⟩, hopen⟩ := h
  cases p with
  | header =>
      simp only [Path.steps, Session.run, Session.step, hctl, hnodes]
      refine ⟨⟨rfl, ⟨hlen, ⟨[], hhd.clear⟩, by simp [hopen]⟩, hhd.clear, by decide⟩, ?_,
        trivial, trivial⟩
      simp [Session.posts, Event.posted]
  | continuation =>
      simp only [Path.steps, Session.run, Session.step, hctl, hnodes]
      refine ⟨⟨rfl, ⟨hlen, ⟨[], hhd.clear⟩, by simp [hopen]⟩, hhd.clear, by decide⟩, ?_,
        trivial, trivial⟩
      simp [Session.posts, Event.posted]

/-- The steps from a message's post to the end of the call, given those for the rest `R` of
the chunk. -/
theorem run_message {s : Session} (h : s.Open) {p : Path} {l : Loop} (hctl : s.ctl = .post p l)
    {msg_id : Int} {n : Nat} {body : List Byte} (hnode : s.NodeHolds msg_id n body)
    {R : List Byte} (hR : Unread s.data l R)
    (hloop : ∀ t : Session, t.ctl = .loop l → t.InHead [] → Unread t.data l R → R ≠ [] →
      ∃ j ≤ 4 * R.length, Done t (t.run j) (codec.feed .start R)) :
    ∃ j ≤ p.steps + 1 + 4 * R.length, Done s (s.run j)
      ((codec.feed .start R).1, (msg_id, body) :: (codec.feed .start R).2) := by
  obtain ⟨r, rest, hnodes, rfl, -, hholds⟩ := hnode
  obtain ⟨hhead, hposts, hcheck, hdata⟩ := run_post h hctl hnodes
  rw [hholds.string] at hposts
  by_cases hnil : R = []
  · -- the chunk is used up
    subst hnil
    have hzero : l.bytes_transferred = 0 := hR.count
    have hstep : (s.run p.steps).step = some (s.run p.steps).arm := by
      simp only [Session.step, hcheck]
      rw [if_pos (Nat.le_of_eq hzero)]
    refine ⟨p.steps + 1, by simp, ?_⟩
    rw [run_add, run_one hstep]
    exact ⟨⟨rfl, hhead.parsing, hhead.ok.arm, hhead.head, hhead.lt⟩, by rw [posts_arm, hposts]; rfl⟩
  · have hpos : 0 < R.length := List.length_pos_iff.mpr hnil
    have hstep : (s.run p.steps).step = some { s.run p.steps with ctl := .loop l } := by
      simp only [Session.step, hcheck]
      rw [if_neg (by rw [hR.count]; omega)]
    obtain ⟨j, hj, hdone⟩ := hloop { s.run p.steps with ctl := .loop l } rfl
      ⟨hhead.parsing, ⟨hhead.ok.head_len, hhead.ok.head, hhead.ok.uncleared⟩, hhead.head, hhead.lt⟩
      (by rwa [hdata]) hnil
    refine ⟨p.steps + (1 + j), by omega, ?_⟩
    rw [run_add, run_add, run_one hstep]
    refine ⟨hdone.state, ?_⟩
    rw [hdone.posts, show Session.posts { s.run p.steps with ctl := .loop l } =
      (s.run p.steps).posts from rfl, hposts, List.append_assoc]
    rfl

/-! ### A message from its header on -/

/-- The node of a message whose body is not all there. -/
theorem newNode_short {s : Session} (h : s.Open) {l : Loop} {msg_id : Int} {n : Nat}
    (hn : n ≤ MAX_LENGTH) {R : List Byte} (hR : Unread s.data l R) (hlt : R.length < n) :
    (s.newNode l msg_id n).At (.body msg_id n R) ∧ (s.newNode l msg_id n).posts = s.posts := by
  have hmax : MAX_LENGTH = 2048 := rfl
  have hcount := hR.count
  have hsize : toSize n = n := toSize_ofNat (by omega)
  rw [Session.newNode, if_neg (by omega), if_pos (by omega)]
  -- the new node is filled with all that is left of the chunk
  have hholds := (holds_new (Int.natCast_nonneg n)).copy_advance R
    (by simp only [MsgNode.new]; simp; omega) (by simp only [MsgNode.new]; omega)
  have hsource : s.source l l.bytes_transferred = R := by
    rw [hR.source (Nat.le_of_eq hcount), hcount, List.take_length]
  constructor
  · refine ⟨rfl, rfl, Session.Open.arm ⟨h.head_len, h.head, ?_⟩, ⟨_, _, rfl, rfl, rfl, ?_⟩, hlt, hn⟩
    · simp [h.uncleared, Loop.copied]
    · rw [hsource, hcount]
      exact hholds
  · rw [posts_arm]
    exact posts_append (s := s) (by simp [Event.posted, Loop.copied])

/-- The node of a message whose body is all there. -/
theorem newNode_full {s : Session} (h : s.Open) {l : Loop} (msg_id : Int) {n : Nat}
    (hn : n ≤ MAX_LENGTH) {R : List Byte} (hR : Unread s.data l R) (hle : n ≤ R.length) :
    (s.newNode l msg_id n).Open ∧ (s.newNode l msg_id n).NodeHolds msg_id n (R.take n) ∧
      (s.newNode l msg_id n).ctl = .post .header ((l.skip n).consume n) ∧
      (s.newNode l msg_id n).data = s.data ∧ (s.newNode l msg_id n).posts = s.posts := by
  have hmax : MAX_LENGTH = 2048 := rfl
  have hcount := hR.count
  have hsize : toSize n = n := toSize_ofNat (by omega)
  have hlen : (R.take n).length = n := by rw [List.length_take, Nat.min_eq_left hle]
  -- the new node is filled with the first `n` bytes, which are the body
  have hholds := (holds_new (Int.natCast_nonneg n)).copy_advance (R.take n)
    (by simp only [MsgNode.new, hlen]; simp) (by simp only [MsgNode.new]; omega)
  rw [List.nil_append, hlen] at hholds
  rw [Session.newNode, if_neg (by omega), if_neg (by omega), hsize]
  refine ⟨⟨h.head_len, h.head, ?_⟩, ⟨_, _, rfl, rfl, rfl, ?_⟩, rfl, rfl, ?_⟩
  · simp [h.uncleared, Loop.copied]
  · rw [hR.source hle]
    exact hholds.terminate
  · exact posts_append (s := s) (by simp [Event.posted, Loop.copied])

theorem remain_new (n k : Int) (src : List Byte) :
    (((MsgNode.new n).copy src).advance k).remain = n - toShort k := by
  show n - toShort (0 + k) = _
  rw [Int.zero_add]

/-- A header that is not accepted: the session is cleared, the allocation throws, or the
node has a negative length. -/
theorem headDone_rejected {s : Session} {l : Loop} {R : List Byte} (hR : Unread s.data l R)
    (hrange : -32768 ≤ s.recv_head_node.header.2)
    (hbad : ¬ (s.recv_head_node.header.1 ≤ MAX_LENGTH ∧ 0 ≤ s.recv_head_node.header.2 ∧
      s.recv_head_node.header.2 ≤ MAX_LENGTH)) :
    (s.headDone l).Silent ∧ (s.headDone l).posts = s.posts := by
  have hmax : MAX_LENGTH = 2048 := rfl
  have hcount := hR.count
  have hle := hR.le
  unfold Session.headDone
  split_ifs with hid hlen
  · exact ⟨Or.inl rfl, posts_append (s := s) (by simp [Event.posted])⟩
  · exact ⟨Or.inl rfl, posts_append (s := s) (by simp [Event.posted])⟩
  · -- only a negative length passes both comparisons
    have hneg : s.recv_head_node.header.2 < 0 := by omega
    have hsize := toSize_neg hneg (by omega)
    unfold Session.newNode
    split_ifs with hthrow hlt
    · exact ⟨Or.inl rfl, posts_append (s := s) (by simp [Event.posted])⟩
    · constructor
      · refine Or.inr ⟨rfl, rfl, _, _, rfl, ?_⟩
        rw [remain_new, toShort_of_range (by omega) (by omega)]
        omega
      · rw [posts_arm]
        exact posts_append (s := s) (by simp [Event.posted, Loop.copied])
    · omega

/-- With what is taken, the rest is still to be read. -/
theorem Unread.skip {data : List Byte} {l : Loop} {R : List Byte} (h : Unread data l R) {k : Nat}
    (hk : k ≤ R.length) : Unread data ((l.skip k).consume k) (R.drop k) := by
  have hunread := h.consume hk (Nat.le_refl k)
  rwa [List.take_of_length_le (Nat.le_of_eq List.length_drop)] at hunread

/-- The missing bytes of the header are at hand. -/
theorem fillHead_holds {s : Session} {acc : List Byte} (h : s.InHead acc) {l : Loop}
    {R : List Byte} (hR : Unread s.data l R) (hle : HEAD_TOTAL_LEN ≤ acc.length + R.length) :
    (s.fillHead l).recv_head_node.data.take 4 = acc ++ R.take (HEAD_TOTAL_LEN - acc.length) ∧
      (s.fillHead l).Open ∧ (s.fillHead l).posts = s.posts := by
  have hfour : HEAD_TOTAL_LEN = 4 := rfl
  have hlt := h.lt
  have hremain : s.headRemain = (HEAD_TOTAL_LEN - acc.length : Nat) := by
    rw [Session.headRemain, h.head.cur_len]
    omega
  have hsource : s.source l (toSize s.headRemain) = R.take (HEAD_TOTAL_LEN - acc.length) := by
    rw [hremain, toSize_ofNat (by omega), hR.source (by omega)]
  have hlen : acc.length + (R.take (HEAD_TOTAL_LEN - acc.length)).length = 4 := by
    rw [List.length_take]
    omega
  -- the copy ends where the header does
  have hroom : (acc.length : Int) + (R.take (HEAD_TOTAL_LEN - acc.length)).length ≤
      s.recv_head_node.total_len := by
    rw [h.ok.head_len]
    omega
  refine ⟨?_, ⟨h.ok.head_len, ⟨acc, ?_⟩, ?_⟩, ?_⟩
  · show (s.recv_head_node.copy (s.source l (toSize s.headRemain))).data.take 4 = _
    rw [hsource, ← hlen]
    exact h.head.take_copy hroom
  · show (s.recv_head_node.copy (s.source l (toSize s.headRemain))).Holds acc
    rw [hsource]
    exact h.head.copy hroom
  · simp [Session.fillHead, h.ok.uncleared, Loop.copied]
  · exact posts_append (s := s) (by simp [Event.posted, Loop.copied])

/-- The header branch, when the header is complete and accepted. -/
theorem headDone_accepted {s : Session} {l : Loop} {hd : List Byte}
    (hhd : s.recv_head_node.data.take 4 = hd) (hlen : hd.length = 4) {msg_id : Int} {n : Nat}
    (hparse : codec.parse hd = some (msg_id, n)) :
    s.headDone l = s.newNode l msg_id n ∧ n ≤ MAX_LENGTH := by
  have hmax : MAX_LENGTH = 2048 := rfl
  have heq : parseHeader hd = some (msg_id, n) := hparse
  rw [parseHeader_eq hhd hlen] at heq
  split_ifs at heq with hok
  obtain ⟨hid, hn⟩ := Prod.mk.inj (Option.some.inj heq)
  rw [Session.headDone, if_neg (by omega), if_neg (by omega), hid,
    show s.recv_head_node.header.2 = n by omega]
  exact ⟨rfl, by omega⟩

/-- From a complete header on, given the steps for what follows the message. -/
theorem run_headDone {s : Session} (h : s.Open) {l : Loop} {hd : List Byte}
    (hhd : s.recv_head_node.data.take 4 = hd) (hlen : hd.length = 4) {R : List Byte}
    (hR : Unread s.data l R)
    (hloop : ∀ (t : Session) (l : Loop) (Q : List Byte), t.ctl = .loop l → t.InHead [] →
      Unread t.data l Q → Q ≠ [] → Q.length ≤ R.length →
      ∃ j ≤ 4 * Q.length, Done t (t.run j) (codec.feed .start Q)) :
    ∃ j ≤ 3 + 4 * R.length, Done s ((s.headDone l).run j)
      ((codec.feed (codec.headDone hd).1 R).1,
        (codec.headDone hd).2.toList ++ (codec.feed (codec.headDone hd).1 R).2) := by
  cases hparse : codec.parse hd with
  | none =>
      -- a header that the decoder rejects
      have hbad : ¬ (s.recv_head_node.header.1 ≤ MAX_LENGTH ∧ 0 ≤ s.recv_head_node.header.2 ∧
          s.recv_head_node.header.2 ≤ MAX_LENGTH) := by
        intro hok
        have heq : parseHeader hd = none := hparse
        rw [parseHeader_eq hhd hlen, if_pos hok] at heq
        cases heq
      obtain ⟨hsilent, hposts⟩ := headDone_rejected hR (loadField_range _ _).1 hbad
      refine ⟨0, Nat.zero_le _, ?_⟩
      rw [Codec.headDone, hparse, feed_dead]
      exact ⟨hsilent, by rw [Session.run, hposts]; exact (List.append_nil _).symm⟩
  | some header =>
      obtain ⟨msg_id, n⟩ := header
      obtain ⟨heq, hn⟩ := headDone_accepted (l := l) hhd hlen hparse
      rw [heq]
      rcases Nat.lt_or_ge R.length n with hlt | hge
      · -- the call ends inside the body
        obtain ⟨hat, hposts⟩ := newNode_short h hn hR hlt
        obtain ⟨hfeed, hnone⟩ := codec.feed_headDone_short hparse hlt
        refine ⟨0, Nat.zero_le _, ?_⟩
        rw [hfeed, hnone]
        exact ⟨hat, by rw [Session.run, hposts]; exact (List.append_nil _).symm⟩
      · -- the message is complete
        obtain ⟨hopen, hnode, hctl, hdata, hposts⟩ := newNode_full h msg_id hn hR hge
        obtain ⟨hfst, hsnd⟩ := codec.feed_headDone_full hparse hge
        rw [hfst, hsnd]
        have hrest := hR.skip hge
        rw [← hdata] at hrest
        have hdrop : (R.drop n).length = R.length - n := List.length_drop
        obtain ⟨j, hj, hdone⟩ := run_message hopen hctl hnode hrest
          fun t ht hhead hQ hne => hloop t _ _ ht hhead hQ hne (by omega)
        simp only [Path.steps] at hj
        exact ⟨j, by omega, hdone.state, by rw [hdone.posts, hposts]⟩

/-- **The loop from a header on**: the rest of the call does what the decoder does on the
rest of the chunk. The induction is on what is left of it. -/
theorem run_head {R : List Byte} {s : Session} {l : Loop} {acc : List Byte}
    (hctl : s.ctl = .loop l) (h : s.InHead acc) (hR : Unread s.data l R) (hne : R ≠ []) :
    ∃ j ≤ 4 * R.length, Done s (s.run j) (codec.feed (.head acc) R) := by
  induction hk : R.length using Nat.strong_induction_on generalizing R s l acc with
  | _ k ih =>
    subst hk
    have hfour : HEAD_TOTAL_LEN = 4 := rfl
    have hmax : MAX_LENGTH = 2048 := rfl
    have hcount := hR.count
    have hle := hR.le
    have hlt := h.lt
    have hcur := h.head.cur_len
    have hpos : 0 < R.length := List.length_pos_iff.mpr hne
    have hstep : s.step = some (s.parseHead l) := by
      simp only [Session.step, hctl]
      rw [if_neg (by omega), if_neg (by simp [h.parsing])]
    have hshort := headShort_iff (s := s) (l := l) (by omega) (by omega) (by omega)
    by_cases hfew : acc.length + R.length < HEAD_TOTAL_LEN
    · -- the header stays incomplete
      refine ⟨1, by omega, ?_⟩
      have hroom : (acc.length : Int) + R.length ≤ s.recv_head_node.total_len := by
        rw [h.ok.head_len]
        omega
      have hholds := h.head.copy_advance R hroom (by rw [h.ok.head_len]; omega)
      rw [run_one hstep, codec.feed_head_short hfew, Session.parseHead,
        if_pos (hshort.mpr (by omega)), hcount, hR.source (Nat.le_refl _), List.take_length]
      refine ⟨⟨rfl, h.parsing, Session.Open.arm ⟨h.ok.head_len, ⟨_, hholds⟩, ?_⟩, hholds, ?_⟩, ?_⟩
      · simp [h.ok.uncleared, Loop.copied]
      · rwa [List.length_append]
      · rw [posts_arm, List.append_nil]
        exact posts_append (s := s) (by simp [Event.posted, Loop.copied])
    · -- the header is complete
      obtain ⟨hhd, hopen, hposts⟩ := fillHead_holds h hR (by omega)
      have hlen : (acc ++ R.take (HEAD_TOTAL_LEN - acc.length)).length = 4 := by
        rw [List.length_append, List.length_take]
        omega
      have hR' := hR.skip (k := HEAD_TOTAL_LEN - acc.length) (by omega)
      have hremain : s.headRemain = (HEAD_TOTAL_LEN - acc.length : Nat) := by
        rw [Session.headRemain, hcur]
        omega
      have hparseHead : s.parseHead l = (s.fillHead l).headDone
          ((l.skip (HEAD_TOTAL_LEN - acc.length : Nat)).consume
            (HEAD_TOTAL_LEN - acc.length : Nat)) := by
        rw [Session.parseHead, if_neg (mt hshort.mp (by omega)), hremain]
      have hdrop : (R.drop (HEAD_TOTAL_LEN - acc.length)).length =
          R.length - (HEAD_TOTAL_LEN - acc.length) := List.length_drop
      obtain ⟨j, hj, hdone⟩ := run_headDone hopen hhd hlen hR'
        fun t l' Q ht hhead hQ hne' hQle => ih Q.length (by omega) ht hhead hQ hne' rfl
      refine ⟨1 + j, by omega, ?_⟩
      rw [run_add, run_one hstep, hparseHead,
        codec.feed_head_split h.lt (show HEAD_TOTAL_LEN ≤ acc.length + R.length by omega)]
      exact ⟨hdone.state, by rw [hdone.posts, hposts]; rfl⟩

/-! ## A call -/

/-- The bytes that a call on `chunk` decodes. -/
def taken : Dec Byte Int → List Byte → List Byte
  | .body _ n acc, chunk =>
      if chunk.length < n - acc.length then []
      else chunk.take (n - acc.length) ++ chunk.take (chunk.length - (n - acc.length))
  | .head _, chunk | .dead, chunk => chunk

/-- A new chunk is all to be read. -/
theorem unread_deliver (s : Session) (c : Chunk) :
    Unread (s.deliver c.bytes).data
      { bytes_transferred := c.bytes.length, received := c.bytes.length } c.bytes where
  copy_len := Int.le_refl 0
  count := rfl
  bytes := List.take_left
  le := c.length_le

/-- The first step of a call that finds a body begun. -/
theorem step_body {s : Session} {l : Loop} (hctl : s.ctl = .loop l) (hpos : 0 < l.bytes_transferred)
    (hparse : s.b_head_parse = true) : s.step = some (s.parseBody l) := by
  simp only [Session.step, hctl]
  rw [if_neg (by omega), if_pos hparse]

/-- A chunk that does not complete the body leaves the node as it was. -/
theorem parseBody_short {s : Session} {msg_id : Int} {n : Nat} {acc : List Byte}
    (h : s.InBody msg_id n acc) {l : Loop} {R : List Byte} (hR : Unread s.data l R)
    (hlt : acc.length + R.length < n) :
    (s.parseBody l).At (.body msg_id n acc) ∧ (s.parseBody l).posts = s.posts := by
  have hmax : MAX_LENGTH = 2048 := rfl
  have hcount := hR.count
  have hle := h.le
  obtain ⟨r, rest, hnodes, rfl, htotal, hholds⟩ := h.node
  have hcur := hholds.cur_len
  have hremain : r.node.remain = (n - acc.length : Nat) := by
    rw [MsgNode.remain, htotal, hcur]
    omega
  have hshort : l.bytes_transferred < toSize r.node.remain := by
    rw [hremain, toSize_ofNat (by omega)]
    omega
  have hcopy : (r.node.copy R).Holds acc := hholds.copy (by rw [htotal]; omega)
  simp only [Session.parseBody, hnodes]
  rw [if_pos hshort, hcount, hR.source (Nat.le_refl _), List.take_length]
  constructor
  · refine ⟨rfl, h.parsing, Session.Open.arm ⟨h.ok.head_len, h.ok.head, ?_⟩,
      ⟨_, _, rfl, rfl, htotal, hcopy⟩, h.lt, h.le⟩
    simp [h.ok.uncleared, Loop.copied]
  · rw [posts_arm]
    exact posts_append (s := s) (by simp [Event.posted, Loop.copied])

/-- A chunk that completes the body. What is unread is its beginning. -/
theorem parseBody_full {s : Session} {msg_id : Int} {n : Nat} {acc : List Byte}
    (h : s.InBody msg_id n acc) {l : Loop} {R : List Byte} (hR : Unread s.data l R)
    (hge : n ≤ acc.length + R.length) :
    (s.parseBody l).Open ∧
      (s.parseBody l).NodeHolds msg_id n (acc ++ R.take (n - acc.length)) ∧
      (s.parseBody l).ctl = .post .continuation (l.consume (n - acc.length : Nat)) ∧
      (s.parseBody l).data = s.data ∧ (s.parseBody l).posts = s.posts := by
  have hmax : MAX_LENGTH = 2048 := rfl
  have hcount := hR.count
  have hle := h.le
  have hlt := h.lt
  obtain ⟨r, rest, hnodes, rfl, htotal, hholds⟩ := h.node
  have hcur := hholds.cur_len
  have hremain : r.node.remain = (n - acc.length : Nat) := by
    rw [MsgNode.remain, htotal, hcur]
    omega
  have hsize : toSize r.node.remain = n - acc.length := by
    rw [hremain, toSize_ofNat (by omega)]
  have hlen : (R.take (n - acc.length)).length = n - acc.length := by
    rw [List.length_take]
    omega
  -- the copy ends where the body does
  have hfull := (hholds.copy_advance (R.take (n - acc.length))
    (by rw [htotal, hlen]; omega) (by rw [htotal]; omega)).terminate
  rw [hlen] at hfull
  simp only [Session.parseBody, hnodes]
  rw [if_neg (by omega), hsize, hR.source (by omega), hremain]
  refine ⟨⟨h.ok.head_len, h.ok.head, ?_⟩, ⟨_, _, rfl, rfl, htotal, hfull⟩, rfl, rfl, ?_⟩
  · simp [h.ok.uncleared, Loop.copied]
  · exact posts_append (s := s) (by simp [Event.posted, Loop.copied])

/-- A body of negative length is never complete. -/
theorem parseBody_silent {s : Session} (hparse : s.b_head_parse = true) {r : RecvNode}
    {rest : List RecvNode} (hnodes : s.recv_nodes = r :: rest) (hneg : r.node.remain < 0)
    (hge : -65536 ≤ r.node.remain) {l : Loop} {R : List Byte} (hR : Unread s.data l R) :
    (s.parseBody l).Silent ∧ (s.parseBody l).posts = s.posts := by
  have hmax : MAX_LENGTH = 2048 := rfl
  have hcount := hR.count
  have hle := hR.le
  have hsize := toSize_neg hneg hge
  simp only [Session.parseBody, hnodes]
  rw [if_pos (by omega)]
  refine ⟨Or.inr ⟨rfl, hparse, _, _, rfl, hneg, hge⟩, ?_⟩
  rw [posts_arm]
  exact posts_append (s := s) (by simp [Event.posted, Loop.copied])

/-- **One call of `HandleRead`** does what the decoder does on `taken`. -/
theorem handleRead_refines {s : Session} {d : Dec Byte Int} (h : s.At d) (hctl : s.ctl = .await)
    (c : Chunk) : Done s (s.handleRead c.bytes) (codec.feed d (taken d c.bytes)) := by
  have hR := unread_deliver s c
  have hpos : 0 < c.bytes.length := List.length_pos_iff.mpr c.nonempty
  -- it is enough that the call is over after at most as many steps as it is given
  suffices hsome : ∃ j ≤ 4 * c.bytes.length + 2,
      Done s ((s.deliver c.bytes).run j) (codec.feed d (taken d c.bytes)) by
    obtain ⟨j, hj, hdone⟩ := hsome
    rw [Session.handleRead, run_of_le hdone.state.returned hj]
    exact hdone
  cases d with
  | head acc =>
      obtain ⟨-, hparse, hok, hholds, hlt⟩ := h
      obtain ⟨j, hj, hdone⟩ := run_head (s := s.deliver c.bytes) rfl
        ⟨hparse, ⟨hok.head_len, hok.head, hok.uncleared⟩, hholds, hlt⟩ hR c.nonempty
      exact ⟨j, by omega, hdone.state, hdone.posts⟩
  | body msg_id n acc =>
      obtain ⟨-, hparse, hok, hnode, hlt, hle⟩ := h
      have hbody : (s.deliver c.bytes).InBody msg_id n acc :=
        ⟨hparse, ⟨hok.head_len, hok.head, hok.uncleared⟩, hnode, hlt, hle⟩
      have hstep := step_body (s := s.deliver c.bytes) rfl hpos hparse
      rw [taken]
      split_ifs with hshort
      · -- the body stays incomplete and the chunk is forgotten
        obtain ⟨hat, hposts⟩ := parseBody_short hbody hR (by omega)
        refine ⟨1, by omega, ?_⟩
        rw [run_one hstep]
        exact ⟨hat, hposts.trans (List.append_nil _).symm⟩
      · -- the body is complete, and the chunk is read again from its beginning
        obtain ⟨hopen, hnode', hctl', hdata, hposts⟩ := parseBody_full hbody hR (by omega)
        have hrest := hR.consume (n := n - acc.length) (k := 0) (by omega) (Nat.zero_le _)
        rw [List.drop_zero, ← hdata] at hrest
        have hlen : (c.bytes.take (c.bytes.length - (n - acc.length))).length =
            c.bytes.length - (n - acc.length) := by
          rw [List.length_take]
          omega
        obtain ⟨j, hj, hdone⟩ := run_message hopen hctl' hnode' hrest
          fun t ht hhead hQ hne => run_head ht hhead hQ hne
        simp only [Path.steps] at hj
        refine ⟨1 + j, by omega, ?_⟩
        have hfeed : codec.feed (.body msg_id n acc) (c.bytes.take (n - acc.length)) = _ :=
          codec.feed_body_full hlt (by rw [List.length_take]; omega)
        rw [run_add, run_one hstep, feed_append, hfeed]
        exact ⟨hdone.state, by rw [hdone.posts, hposts]; rfl⟩
  | dead =>
      obtain hstop | ⟨-, hparse, r, rest, hnodes, hneg, hge⟩ := h
      · rw [hctl] at hstop
        cases hstop
      · have hstep := step_body (s := s.deliver c.bytes) rfl hpos hparse
        obtain ⟨hsilent, hposts⟩ := parseBody_silent (s := s.deliver c.bytes) hparse hnodes hneg
          hge hR
        refine ⟨1, by omega, ?_⟩
        rw [run_one hstep, feed_dead]
        exact ⟨hsilent, hposts.trans (List.append_nil _).symm⟩

/-! ## A sequence of calls -/

/-- The bytes that calls on the chunks decode. -/
def takenAll : Dec Byte Int → List Chunk → List Byte
  | _, [] => []
  | d, c :: cs => taken d c.bytes ++ takenAll (codec.feed d (taken d c.bytes)).1 cs

/-- **A sequence of calls** does what the decoder does on `takenAll`. -/
theorem receive_refines {s : Session} {d : Dec Byte Int} (h : s.At d) (cs : List Chunk) :
    Done s (s.receive cs) (codec.feed d (takenAll d cs)) := by
  induction cs generalizing s d with
  | nil => exact ⟨h, (List.append_nil _).symm⟩
  | cons c cs ih =>
      rw [takenAll, feed_append, Session.receive]
      split_ifs with hctl
      · have hcall := handleRead_refines h hctl c
        have hrest := ih hcall.state
        exact ⟨hrest.state, by rw [hrest.posts, hcall.posts, List.append_assoc]⟩
      · -- no read is armed
        have hdead : d = .dead := by
          cases d with
          | head acc => exact absurd h.1 hctl
          | body msg_id n acc => exact absurd h.1 hctl
          | dead => rfl
        subst hdead
        simp only [feed_dead]
        exact ⟨h, (List.append_nil _).symm⟩

/-- Every call returns. -/
theorem receive_returns (cs : List Chunk) : (Session.receive {} cs).step = none :=
  (receive_refines at_init cs).state.returned

end BoostNet.CSession
