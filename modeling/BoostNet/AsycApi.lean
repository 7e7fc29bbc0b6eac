/-
The writes of `Session` in Network/asycApi: `WriteToSocket` and `WriteCallback`.

`WriteToSocket` queues its message, and starts an `async_write_some` of it unless one is
outstanding, which `_send_pending` says. The socket takes as many bytes of a write as it likes, and
`WriteCallback` then writes what is left of the message, or the next one. A completion and its
callback are one step here, like a call of `WriteToSocket`; `accepted` is what the socket has
taken, `called` are the messages in the order of the calls. The first write of a message is of
the argument `buf` itself, whose contents are taken to stay what they are.

Lengths are `int` in a node and `std::size_t` elsewhere. What is not defined, a write from before
the message or a callback with an empty queue, is `none`.

* `write_stream`: with messages of less than `2 ^ 31` bytes the socket gets a prefix of them, one
  write is outstanding at most, `_send_pending` says whether there is one, and its callback is
  defined. `write_stream_drained`: once there is none the socket has everything.
* `write_truncated`: a message of `2 ^ 32` bytes has the length 0 in its node, and the rest of it
  is lost behind a partial write.
-/
import BoostNet.Lts
import BoostNet.SendRead

set_option autoImplicit false

namespace BoostNet.AsycApi

open SendRead (toInt)

/-! ## Messages and the session -/

structure MsgNode where
  total_len : Int
  cur_len : Int
  msg : List Byte

/-- `MsgNode(msg, total_len)`, whose `new char[_total_len]` throws where the length is negative. -/
def MsgNode.new (msg : List Byte) (total_len : Int) : Option MsgNode :=
  if total_len < 0 then none else some ⟨total_len, 0, msg.take total_len.toNat⟩

/-- `buffer(_msg + _cur_len, _total_len - _cur_len)` -/
def MsgNode.buffer (n : MsgNode) : Option (List Byte) :=
  if n.cur_len < 0 then none else some (n.msg.drop n.cur_len.toNat)

/-- `_cur_len += bytes_tranferred` -/
def MsgNode.advance (n : MsgNode) (bytes_tranferred : Nat) : MsgNode :=
  { n with cur_len := toInt (n.cur_len + bytes_tranferred) }

/-- `writes` are the outstanding writes. -/
structure Session where
  send_queue : List MsgNode := []
  send_pending : Bool := false
  writes : List (List Byte) := []
  accepted : List Byte := []
  called : List (List Byte) := []

/-- The node is queued, and its message written if no write is outstanding. Without a node the
call has thrown. -/
def Session.emplace (s : Session) (buf : List Byte) : Option MsgNode → Session
  | none => s
  | some node =>
      let s := { s with send_queue := s.send_queue ++ [node] }
      if s.send_pending then s
      else { s with writes := s.writes ++ [buf], send_pending := true }

def Session.WriteToSocket (s : Session) (buf : List Byte) : Session :=
  { s with called := s.called ++ [buf] }.emplace buf (MsgNode.new buf (toInt buf.length))

/-- `async_write_some` of what is left of a message. -/
def Session.async_write_some (s : Session) (node : MsgNode) : Option Session :=
  node.buffer.map fun b => { s with writes := s.writes ++ [b] }

/-- What `WriteCallback` does once `_cur_len` of the front is moved. -/
def Session.proceed (s : Session) (send_data : MsgNode) (rest : List MsgNode) : Option Session :=
  if send_data.cur_len < send_data.total_len then
    { s with send_queue := send_data :: rest }.async_write_some send_data
  else
    match rest with
    | [] => some { s with send_queue := [], send_pending := false }
    | next :: more => { s with send_queue := next :: more }.async_write_some next

def Session.WriteCallback (s : Session) (bytes_tranferred : Nat) : Option Session :=
  match s.send_queue with
  | [] => none
  | front :: rest => s.proceed (front.advance bytes_tranferred) rest

inductive Action where
  | write (buf : List Byte)
  /-- The `k`-th outstanding write completes without an error, with `bytes` bytes. -/
  | complete (k bytes : Nat)

def Session.step (s : Session) : Action → Option Session
  | .write buf => some (s.WriteToSocket buf)
  | .complete k bytes =>
      match s.writes[k]? with
      | none => none
      | some b =>
          if bytes ≤ b.length then
            { s with writes := s.writes.eraseIdx k, accepted := s.accepted ++ b.take bytes
              }.WriteCallback bytes
          else none

def system : Lts Session Action where
  init := {}
  step := Session.step

/-! ## The properties -/

/-- The socket has a prefix of the messages, and `_send_pending` says whether the one write that
there may be is outstanding. -/
structure Session.Streams (s : Session) : Prop where
  prefix_called : s.accepted <+: s.called.flatten
  one_write : s.writes.length ≤ 1
  pending : s.send_pending = true ↔ s.writes.length = 1

/-- Whatever the socket has taken of an outstanding write, its callback is defined. -/
def Session.Defined (s : Session) : Prop :=
  ∀ k b bytes, s.writes[k]? = some b → bytes ≤ b.length →
    ∃ t, s.step (.complete k bytes) = some t

/-- The length of a message is an `int`. -/
def Fits (_ : Session) : Action → Prop
  | .write buf => buf.length < 2 ^ 31
  | .complete _ _ => True

/-! ## The invariant -/

/-- A node of a message that fits, of which `c` bytes are written. -/
structure NodeOk (n : MsgNode) (c : Nat) : Prop where
  total_len : n.total_len = n.msg.length
  fits : n.msg.length < 2 ^ 31
  cur_len : n.cur_len = c
  written : c ≤ n.msg.length

/-- Nothing is queued, and everything is accepted. -/
structure Idle (s : Session) : Prop where
  send_queue : s.send_queue = []
  writes : s.writes = []
  send_pending : s.send_pending = false
  accepted : s.accepted = s.called.flatten

/-- What is left of the front is being written, and the rest is queued. -/
structure Busy (s : Session) (front : MsgNode) (rest : List MsgNode) (c : Nat) : Prop where
  send_queue : s.send_queue = front :: rest
  front_ok : NodeOk front c
  rest_ok : ∀ n ∈ rest, NodeOk n 0
  writes : s.writes = [front.msg.drop c]
  send_pending : s.send_pending = true
  accepted : s.accepted ++ (front.msg.drop c ++ rest.flatMap MsgNode.msg) = s.called.flatten

def Inv (s : Session) : Prop := Idle s ∨ ∃ front rest c, Busy s front rest c

variable {s t : Session}

/-- Below $2^{31}$ the conversion to `int` changes nothing. -/
theorem toInt_of_lt {n : Nat} (h : n < 2 ^ 31) : toInt n = n :=
  Int.bmod_eq_of_le (by omega) (by omega)

/-- A buffer that fits gets a node with all of its bytes. -/
theorem new_of_fits {buf : List Byte} (h : buf.length < 2 ^ 31) :
    MsgNode.new buf (toInt buf.length) = some ⟨buf.length, 0, buf⟩ := by
  have hneg : ¬ (buf.length : Int) < 0 := by omega
  rw [toInt_of_lt h, MsgNode.new, if_neg hneg, Int.toNat_natCast, List.take_length]

/-- What is left to write is the message from `_cur_len` on. -/
theorem NodeOk.buffer {n : MsgNode} {c : Nat} (h : NodeOk n c) :
    n.buffer = some (n.msg.drop c) := by
  have hneg : ¬ (c : Int) < 0 := by omega
  rw [MsgNode.buffer, h.cur_len, if_neg hneg, Int.toNat_natCast]

/-- The bytes that were written are a beginning of what was sent. -/
theorem Inv.streams (h : Inv s) : s.Streams := by
  rcases h with hidle | ⟨front, rest, c, hbusy⟩
  · exact
      { prefix_called := by rw [hidle.accepted]
        one_write := by rw [hidle.writes]; exact Nat.zero_le 1
        pending := by simp [hidle.send_pending, hidle.writes] }
  · exact
      { prefix_called := ⟨_, hbusy.accepted⟩
        one_write := by rw [hbusy.writes]; exact Nat.le_refl 1
        pending := by simp [hbusy.send_pending, hbusy.writes] }

/-- With no write outstanding all messages have been accepted. -/
theorem Inv.drained (h : Inv s) (hnone : s.writes = []) : s.accepted = s.called.flatten := by
  rcases h with hidle | ⟨front, rest, c, hbusy⟩
  · exact hidle.accepted
  · rw [hbusy.writes] at hnone
    cases hnone

/-! ## The steps -/

/-- The session is idle, and the message is written at once. -/
theorem Idle.emplace {node : MsgNode} (h : Idle s) (hnode : NodeOk node 0) :
    Busy ({ s with called := s.called ++ [node.msg] }.emplace node.msg (some node)) node [] 0 := by
  simp only [Session.emplace, h.send_pending, Bool.false_eq_true, if_false]
  exact
    { send_queue := by rw [h.send_queue]; rfl
      front_ok := hnode
      rest_ok := nofun
      writes := by rw [h.writes]; rfl
      send_pending := rfl
      accepted := by simp [h.accepted] }

/-- A write is outstanding, and the message waits behind the others. -/
theorem Busy.emplace {front node : MsgNode} {rest : List MsgNode} {c : Nat}
    (h : Busy s front rest c) (hnode : NodeOk node 0) :
    Busy ({ s with called := s.called ++ [node.msg] }.emplace node.msg (some node))
      front (rest ++ [node]) c := by
  simp only [Session.emplace, h.send_pending, if_true]
  exact
    { send_queue := by rw [h.send_queue]; rfl
      front_ok := h.front_ok
      rest_ok := by
        intro n hn
        rcases List.mem_append.mp hn with hold | hnew
        · exact h.rest_ok n hold
        · rw [List.mem_singleton.mp hnew]
          exact hnode
      writes := h.writes
      send_pending := rfl
      accepted := by simp [← h.accepted] }

/-- A message joins the queue, or is written at once when nothing is pending. -/
theorem inv_write (h : Inv s) {buf : List Byte} (hfits : buf.length < 2 ^ 31) :
    Inv (s.WriteToSocket buf) := by
  have hnode : NodeOk ⟨buf.length, 0, buf⟩ 0 := ⟨rfl, hfits, rfl, Nat.zero_le _⟩
  rw [Session.WriteToSocket, new_of_fits hfits]
  rcases h with hidle | ⟨front, rest, c, hbusy⟩
  · exact .inr ⟨_, _, _, hidle.emplace hnode⟩
  · exact .inr ⟨_, _, _, hbusy.emplace hnode⟩

/-- The front has been written as far as `c + bytes`. -/
theorem NodeOk.advance {n : MsgNode} {c : Nat} (h : NodeOk n c) (bytes : Nat)
    (hle : c + bytes ≤ n.msg.length) : NodeOk (n.advance bytes) (c + bytes) := by
  have hlt : c + bytes < 2 ^ 31 := Nat.lt_of_le_of_lt hle h.fits
  have hcast : (c : Int) + bytes = ((c + bytes : Nat) : Int) := by omega
  rw [MsgNode.advance, h.cur_len, hcast, toInt_of_lt hlt]
  exact ⟨h.total_len, h.fits, rfl, hle⟩

/-- The write is started with the rest of the node. -/
theorem NodeOk.async_write_some {n : MsgNode} {c : Nat} (h : NodeOk n c) (s : Session) :
    s.async_write_some n = some { s with writes := s.writes ++ [n.msg.drop c] } := by
  rw [Session.async_write_some, h.buffer, Option.map_some]

/-- The callback of a write of the front, of which `c` bytes are now written: the rest of the
message is written, or the message that follows. -/
theorem NodeOk.proceed {send_data : MsgNode} {rest : List MsgNode} {c : Nat}
    (h : NodeOk send_data c) (hrest : ∀ n ∈ rest, NodeOk n 0) (hpending : s.send_pending = true)
    (hwrites : s.writes = [])
    (haccepted : s.accepted ++ (send_data.msg.drop c ++ rest.flatMap MsgNode.msg) =
      s.called.flatten) :
    ∃ t, s.proceed send_data rest = some t ∧ Inv t := by
  unfold Session.proceed
  rw [h.cur_len, h.total_len]
  by_cases hmore : (c : Int) < send_data.msg.length
  · rw [if_pos hmore, h.async_write_some, hwrites]
    exact ⟨_, rfl, .inr ⟨send_data, rest, c, rfl, h, hrest, rfl, hpending, haccepted⟩⟩
  · rw [if_neg hmore]
    have hdone : send_data.msg.drop c = [] := List.drop_of_length_le (by omega)
    rw [hdone, List.nil_append] at haccepted
    cases rest with
    | nil => exact ⟨_, rfl, .inl ⟨rfl, hwrites, rfl, (List.append_nil _).symm.trans haccepted⟩⟩
    | cons next more =>
        have hnext : NodeOk next 0 := hrest next List.mem_cons_self
        dsimp only
        rw [hnext.async_write_some, hwrites]
        exact ⟨_, rfl, .inr ⟨next, more, 0, rfl, hnext,
          fun n hn => hrest n (List.mem_cons_of_mem next hn), rfl, hpending, haccepted⟩⟩

/-- The outstanding write completes with `bytes` bytes. -/
theorem Busy.completes {front : MsgNode} {rest : List MsgNode} {c bytes : Nat}
    (h : Busy s front rest c) (hbytes : bytes ≤ (front.msg.drop c).length) :
    ∃ t, { s with writes := [], accepted := s.accepted ++ (front.msg.drop c).take bytes
            }.WriteCallback bytes = some t ∧ Inv t := by
  have hlen : (front.msg.drop c).length = front.msg.length - c := List.length_drop
  have hwritten := h.front_ok.written
  have hnode := h.front_ok.advance bytes (by omega)
  have hsplit : (front.msg.drop c).take bytes ++ front.msg.drop (c + bytes) =
      front.msg.drop c := by
    rw [← List.drop_drop, List.take_append_drop]
  have haccepted := h.accepted
  rw [← hsplit, List.append_assoc, ← List.append_assoc] at haccepted
  unfold Session.WriteCallback
  simp only [h.send_queue]
  exact hnode.proceed h.rest_ok h.send_pending rfl haccepted

/-- The handler of a write: it goes on with the rest, or with the next node of the queue. -/
theorem inv_complete (h : Inv s) {k bytes : Nat} {b : List Byte} (hb : s.writes[k]? = some b)
    (hbytes : bytes ≤ b.length) : ∃ t, s.step (.complete k bytes) = some t ∧ Inv t := by
  simp only [Session.step]
  rcases h with hidle | ⟨front, rest, c, hbusy⟩
  · rw [hidle.writes] at hb
    cases hb
  · rw [hbusy.writes] at hb ⊢
    cases k with
    | succ k => cases hb
    | zero =>
        obtain rfl := Option.some.inj hb
        dsimp only [List.getElem?_cons_zero]
        rw [if_pos hbytes]
        exact hbusy.completes hbytes

/-- The two kinds of steps together. -/
theorem inv_step {a : Action} (h : Inv s) (hfits : Fits s a) (ht : system.step s a = some t) :
    Inv t := by
  cases a with
  | write buf =>
      obtain rfl := Option.some.inj ht
      exact inv_write h hfits
  | complete k bytes =>
      have hstep : s.step (.complete k bytes) = some t := ht
      cases hb : s.writes[k]? with
      | none => simp [Session.step, hb] at hstep
      | some b =>
          by_cases hbytes : bytes ≤ b.length
          · obtain ⟨u, hu, hinv⟩ := inv_complete h hb hbytes
            rw [hu] at hstep
            exact Option.some.inj hstep ▸ hinv
          · simp [Session.step, hb, hbytes] at hstep

/-- No read of the code is out of its buffer. -/
theorem Inv.defined (h : Inv s) : s.Defined := by
  intro k b bytes hb hbytes
  obtain ⟨t, ht, -⟩ := inv_complete h hb hbytes
  exact ⟨t, ht⟩

/-- Nothing was sent. -/
theorem inv_init : Inv system.init := .inl ⟨rfl, rfl, rfl, rfl⟩

/-- **Partial writes keep the stream.** In every state of a run whose messages have less than `2 ^
31` bytes, where no callback is undefined either. The lengths are `int`s in `MsgNode` and `size_t`s
in asio, and agree below that. -/
theorem write_stream (as : List Action) (hfits : system.Always Fits system.init as) :
    system.Along (fun s => s.Streams ∧ s.Defined) system.init as :=
  system.along_of_always (fun _ h => ⟨Inv.streams h, Inv.defined h⟩)
    (fun _ _ _ h hfits ht => inv_step h hfits ht) inv_init hfits

theorem write_stream_pieces :
    system.Along (fun s => s.Streams ∧ s.Defined) system.init
      [.write [1, 2], .complete 0 1, .write [3], .complete 0 0, .complete 0 1, .complete 0 1] :=
  write_stream _ (system.always_of_forall (by simp [Fits]) _)

/-- Once no write is outstanding the socket has all messages. -/
theorem write_stream_drained {as : List Action} (hfits : system.Always Fits system.init as)
    (hrun : system.exec system.init as = some s) (hnone : s.writes = []) :
    s.accepted = s.called.flatten :=
  (system.exec_inv_of_always (fun _ _ _ h hfits ht => inv_step h hfits ht) inv_init hfits
    hrun).drained hnone

/-! ## Longer messages -/

/-- A message of `2 ^ 32` bytes is done with after the first write of it, however short. -/
theorem write_truncated (rest : List Byte) (hlen : rest.length + 2 = 2 ^ 32) :
    system.exec system.init
        [.write (0 :: 0 :: rest), .complete 0 1, .write [1], .complete 0 1] =
      some { accepted := [0, 1], called := [0 :: 0 :: rest, [1]] } := by
  have hint : toInt (0 :: 0 :: rest).length = 0 := by
    rw [List.length_cons, List.length_cons, hlen]
    rfl
  have hlong : system.step system.init (.write (0 :: 0 :: rest)) =
      some ⟨[⟨0, 0, []⟩], true, [0 :: 0 :: rest], [], [0 :: 0 :: rest]⟩ := by
    dsimp only [system, Session.step, Session.WriteToSocket]
    rw [hint]
    rfl
  -- one byte is more than the length in the node, and the message is popped
  have hpop : system.step ⟨[⟨0, 0, []⟩], true, [0 :: 0 :: rest], [], [0 :: 0 :: rest]⟩
      (.complete 0 1) = some ⟨[], false, [], [0], [0 :: 0 :: rest]⟩ := rfl
  rw [Lts.exec_cons, hlong, Option.bind_some, Lts.exec_cons, hpop, Option.bind_some]
  rfl

theorem write_stream_counterexample :
    ¬ ∀ as : List Action, system.Along Session.Streams system.init as := by
  intro hall
  obtain ⟨rest, hlen⟩ : ∃ rest : List Byte, rest.length + 2 = 2 ^ 32 :=
    ⟨List.replicate (2 ^ 32 - 2) 0, by rw [List.length_replicate]; rfl⟩
  have hstreams : Session.Streams _ := Lts.Along.last _ (hall _) (write_truncated _ hlen)
  obtain ⟨tail, htail⟩ := hstreams.prefix_called
  simp at htail

end BoostNet.AsycApi
