/-
`CSession::HandleRead` of Network/asyncServer and Network/asyncServer_ThreadPool (the
two differ in the executor of the next read only), with the nodes it fills: the
parser of messages `id, length, body` behind a TCP read of any size.

A call of `HandleRead` is a chunk of the stream, and the call runs in steps, so that
other threads can act between them: an iteration of the `while` loop up to
`PostMsgToQue`, that call, and the statements after it one by one. `Ctl` is where the
call is, `Loop` its locals; in `await` a read is armed and no call is running. The
two branches of the loop post on two paths, and `Path` says which.

`_recv_msg_node` is the newest of the nodes ever built; the older ones are kept,
since a posted node lives on in the logic thread's queue. Of each node it is
remembered whether `Clear` has been done to it. `log` is the history of what a call
does: its copies and stores with the bounds they must respect, the nodes it builds,
the messages it posts, the reads it arms and `ClearSession`. Copies from and to
`_recv_head_node` at the constant offsets of the header fields are not logged.

A store out of bounds has no effect here; the log shows it. `new char[n]` with a
negative `n` throws, and nothing catches it.
-/
import BoostNet.Bytes
import BoostNet.Lts

set_option autoImplicit false

namespace BoostNet.CSession

def MAX_LENGTH : Nat := 1024 * 2

def HEAD_TOTAL_LEN : Nat := 4

/-! ## Nodes -/

/-- `MsgNode`; `_data` is its buffer of `_total_len + 1` bytes. -/
structure MsgNode where
  cur_len : Int
  total_len : Int
  data : List Byte
  deriving DecidableEq

/-- `MsgNode`'s constructor: the buffer is zero. -/
def MsgNode.new (total_len : Int) : MsgNode where
  cur_len := 0
  total_len := total_len
  data := List.replicate (total_len + 1).toNat 0

/-- `memcpy(_data + _cur_len, src, ...)`. -/
def MsgNode.copy (m : MsgNode) (src : List Byte) : MsgNode :=
  { m with data := overwrite m.data m.cur_len src }

/-- `_cur_len += n`. -/
def MsgNode.advance (m : MsgNode) (n : Int) : MsgNode :=
  { m with cur_len := toShort (m.cur_len + n) }

/-- `_data[_total_len] = 0`. -/
def MsgNode.terminate (m : MsgNode) : MsgNode :=
  { m with data := overwrite m.data m.total_len [0] }

/-- The `memset` of `Clear`. -/
def MsgNode.erase (m : MsgNode) : MsgNode :=
  { m with data := zero m.data (toSize m.total_len) }

/-- The other half of `Clear`. -/
def MsgNode.reset (m : MsgNode) : MsgNode := { m with cur_len := 0 }

/-- `std::string(_data, _cur_len)`. -/
def MsgNode.string (m : MsgNode) : List Byte := m.data.take m.cur_len.toNat

/-- `remain_msg`. -/
def MsgNode.remain (m : MsgNode) : Int := m.total_len - m.cur_len

/-- `RecvNode`. `erased` and `reset` say which half of `Clear` was done to it. -/
structure RecvNode where
  node : MsgNode
  msg_id : Int
  erased : Bool := false
  reset : Bool := false
  deriving DecidableEq

/-! ## The history -/

inductive Event where
  /-- A `memcpy` of `n` bytes from `_data + start`, where `received` bytes were read, to
  offset `pos` of a buffer of `size` bytes. -/
  | copy (start : Int) (n received : Nat) (pos size : Int)
  /-- A store at `pos` of a buffer of `size` bytes. -/
  | store (pos size : Int)
  /-- A `memset` of `n` bytes of a buffer of `size` bytes. -/
  | fill (n : Nat) (size : Int)
  /-- A `RecvNode` is built. -/
  | build (total_len : Int)
  /-- `_recv_msg_node` is null. -/
  | null_node
  /-- `PostMsgToQue`, with the node's content at that moment. -/
  | post (msg_id : Int) (body : List Byte)
  /-- `async_read_some`. -/
  | read
  /-- `ClearSession`. -/
  | clear
  deriving DecidableEq

/-! ## The session -/

/-- Which branch of the loop posts. -/
inductive Path where
  | header
  | continuation
  deriving DecidableEq

/-- The locals of a call, and how many bytes it was given. -/
structure Loop where
  copy_len : Int := 0
  bytes_transferred : Nat
  received : Nat
  deriving DecidableEq

inductive Ctl where
  | await
  | loop (l : Loop)
  | post (p : Path) (l : Loop)
  | after_post (p : Path) (l : Loop)
  | clear_data (l : Loop)
  | clear_len (l : Loop)
  | check (l : Loop)
  /-- The call has returned, or thrown, and no read is armed. -/
  | stopped
  deriving DecidableEq

structure Session where
  data : List Byte := List.replicate MAX_LENGTH 0
  b_head_parse : Bool := false
  recv_head_node : MsgNode := .new HEAD_TOTAL_LEN
  /-- The nodes built, the newest first. -/
  recv_nodes : List RecvNode := []
  ctl : Ctl := .await
  log : List Event := []
  deriving DecidableEq

/-- `memset(_data, 0, MAX_LENGTH)` and `async_read_some`; the call returns. -/
def Session.arm (s : Session) : Session :=
  { s with data := List.replicate MAX_LENGTH 0, ctl := .await, log := s.log ++ [.read] }

/-- `ClearSession`; the call returns. -/
def Session.clear (s : Session) : Session :=
  { s with ctl := .stopped, log := s.log ++ [.clear] }

/-- The bytes at `_data + copy_len`. -/
def Session.source (s : Session) (l : Loop) (n : Nat) : List Byte :=
  (s.data.drop l.copy_len.toNat).take n

/-- The event of copying `n` of them to a node. -/
def Loop.copied (l : Loop) (n : Nat) (m : MsgNode) : Event :=
  .copy l.copy_len n l.received m.cur_len (m.total_len + 1)

/-- `bytes_transferred -= n`. -/
def Loop.consume (l : Loop) (n : Int) : Loop :=
  { l with bytes_transferred := toSize (l.bytes_transferred - n) }

/-- `copy_len += n`. -/
def Loop.skip (l : Loop) (n : Int) : Loop := { l with copy_len := l.copy_len + n }

/-- The id and the length in a complete header. -/
def MsgNode.header (m : MsgNode) : Int × Int :=
  (loadField (m.data.getD 0 0) (m.data.getD 1 0), loadField (m.data.getD 2 0) (m.data.getD 3 0))

/-- The header branch from `std::make_shared<RecvNode>(data_len, msg_id)` on. -/
def Session.newNode (s : Session) (l : Loop) (msg_id data_len : Int) : Session :=
  if data_len + 1 < 0 then { s with ctl := .stopped, log := s.log ++ [.build data_len] }
  else if l.bytes_transferred < toSize data_len then
    Session.arm { s with
      b_head_parse := true
      recv_nodes := {
        node := ((MsgNode.new data_len).copy (s.source l l.bytes_transferred)).advance
          l.bytes_transferred
        msg_id := msg_id } :: s.recv_nodes
      log := s.log ++ [.build data_len, .store data_len (data_len + 1),
        l.copied l.bytes_transferred (.new data_len)] }
  else
    { s with
      recv_nodes := {
        node := (((MsgNode.new data_len).copy (s.source l (toSize data_len))).advance
          data_len).terminate
        msg_id := msg_id } :: s.recv_nodes
      ctl := .post .header ((l.skip data_len).consume data_len)
      log := s.log ++ [.build data_len, .store data_len (data_len + 1),
        l.copied (toSize data_len) (.new data_len), .store data_len (data_len + 1)] }

/-- The header branch after the header is complete. -/
def Session.headDone (s : Session) (l : Loop) : Session :=
  if s.recv_head_node.header.1 > MAX_LENGTH then s.clear
  else if s.recv_head_node.header.2 > MAX_LENGTH then s.clear
  else s.newNode l s.recv_head_node.header.1 s.recv_head_node.header.2

/-- The header is incomplete even with the bytes at hand. -/
def Session.headShort (s : Session) (l : Loop) : Bool :=
  (l.bytes_transferred + toSize s.recv_head_node.cur_len) % 2 ^ 64 < HEAD_TOTAL_LEN

/-- The header is incomplete when its four bytes are not there. -/
theorem headShort_iff {s : Session} {l : Loop} (h : 0 ≤ s.recv_head_node.cur_len)
    (h' : s.recv_head_node.cur_len < HEAD_TOTAL_LEN) (hl : l.bytes_transferred ≤ MAX_LENGTH) :
    s.headShort l = true ↔
      s.recv_head_node.cur_len + l.bytes_transferred < (HEAD_TOTAL_LEN : Int) := by
  simp only [HEAD_TOTAL_LEN, MAX_LENGTH] at h' hl
  have hsize := toSize_nonneg h (by omega)
  show decide ((l.bytes_transferred + toSize s.recv_head_node.cur_len) % 2 ^ 64 < 4) = true ↔ _
  rw [decide_eq_true_iff, HEAD_TOTAL_LEN]
  omega

/-- `head_remain`. -/
def Session.headRemain (s : Session) : Int := HEAD_TOTAL_LEN - s.recv_head_node.cur_len

/-- The missing part of the header is copied. -/
def Session.fillHead (s : Session) (l : Loop) : Session :=
  { s with
    recv_head_node := s.recv_head_node.copy (s.source l (toSize s.headRemain))
    log := s.log ++ [l.copied (toSize s.headRemain) s.recv_head_node] }

/-- The header branch of the loop. -/
def Session.parseHead (s : Session) (l : Loop) : Session :=
  if s.headShort l then
    Session.arm { s with
      recv_head_node := (s.recv_head_node.copy (s.source l l.bytes_transferred)).advance
        l.bytes_transferred
      log := s.log ++ [l.copied l.bytes_transferred s.recv_head_node] }
  else (s.fillHead l).headDone ((l.skip s.headRemain).consume s.headRemain)

/-- The branch of the loop that continues a body. It leaves `_cur_len` as it is when the
body is still incomplete, and `copy_len` when it is complete. -/
def Session.parseBody (s : Session) (l : Loop) : Session :=
  match s.recv_nodes with
  | [] => { s with ctl := .stopped, log := s.log ++ [.null_node] }
  | r :: rest =>
      if l.bytes_transferred < toSize r.node.remain then
        Session.arm { s with
          recv_nodes := { r with node := r.node.copy (s.source l l.bytes_transferred) } :: rest
          log := s.log ++ [l.copied l.bytes_transferred r.node] }
      else
        { s with
          recv_nodes := { r with
            node := ((r.node.copy (s.source l (toSize r.node.remain))).advance
              r.node.remain).terminate } :: rest
          ctl := .post .continuation (l.consume r.node.remain)
          log := s.log ++ [l.copied (toSize r.node.remain) r.node,
            .store r.node.total_len (r.node.total_len + 1)] }

/-- One step of a call. -/
def Session.step (s : Session) : Option Session :=
  match s.ctl with
  | .await | .stopped => none
  | .loop l =>
      if l.bytes_transferred = 0 then some { s with ctl := .stopped }
      else if s.b_head_parse then some (s.parseBody l)
      else some (s.parseHead l)
  | .post p l =>
      match s.recv_nodes with
      | [] => some { s with ctl := .stopped, log := s.log ++ [.null_node] }
      | r :: _ => some { s with
          ctl := .after_post p l
          log := s.log ++ [.post r.msg_id r.node.string] }
  | .after_post p l =>
      some { s with
        b_head_parse := false
        recv_head_node := s.recv_head_node.erase.reset
        ctl := match p with
          | .header => .check l
          | .continuation => .clear_data l
        log := s.log ++ [.fill (toSize s.recv_head_node.total_len)
          (s.recv_head_node.total_len + 1)] }
  | .clear_data l =>
      match s.recv_nodes with
      | [] => some { s with ctl := .stopped, log := s.log ++ [.null_node] }
      | r :: rest => some { s with
          recv_nodes := { r with node := r.node.erase, erased := true } :: rest
          ctl := .clear_len l
          log := s.log ++ [.fill (toSize r.node.total_len) (r.node.total_len + 1)] }
  | .clear_len l =>
      match s.recv_nodes with
      | [] => some { s with ctl := .stopped, log := s.log ++ [.null_node] }
      | r :: rest => some { s with
          recv_nodes := { r with node := r.node.reset, reset := true } :: rest
          ctl := .check l }
  | .check l =>
      if l.bytes_transferred ≤ 0 then some s.arm else some { s with ctl := .loop l }

/-- A read has completed with the bytes of `chunk`. -/
def Session.deliver (s : Session) (chunk : List Byte) : Session :=
  { s with
    data := chunk ++ s.data.drop chunk.length
    ctl := .loop { bytes_transferred := chunk.length, received := chunk.length } }

/-! ## One session under any peer -/

inductive Action where
  /-- The armed read completes. -/
  | deliver (chunk : List Byte)
  /-- The armed read fails. -/
  | error
  | step
  deriving DecidableEq

def Session.act (s : Session) : Action → Option Session
  | .deliver chunk =>
      if s.ctl = .await ∧ 0 < chunk.length ∧ chunk.length ≤ MAX_LENGTH then some (s.deliver chunk)
      else none
  | .error => if s.ctl = .await then some s.clear else none
  | .step => s.step

/-- The session after `Start`. -/
def system : Lts Session Action where
  init := {}
  step := Session.act

end BoostNet.CSession
