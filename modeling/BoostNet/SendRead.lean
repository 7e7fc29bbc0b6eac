/-
What the two servers send, and what their readers make of it: `SendNode` and
`CSession::Send` with `HandleReadHead` and `HandleReadMsg` in Network/asyncServer, and
`SendNode` with the coroutine of `CSession::Start` in Network/coroutineServer.

A message on the wire is its id, the length of its body, each a short in network order,
and the body. The two constructors of `SendNode` differ in the bytes of the id only, so
they are one definition, `build`, with these bytes as a parameter. A constructor may
throw, since `new char[n]` does when `n` is negative, and it may write or read outside
its buffers, where the behaviour is not defined; `Built` keeps the three apart.

`async_read` completes with all the bytes it was asked for or with an error, so a reader
is a function of the bytes the peer has sent. `src` is the memory at `msg` that may be
read.

* `decode_send_iff`: coroutineServer's reader gets the id and the body that were sent
  exactly if the two bytes of the id are equal, because its `SendNode` copies the id in
  host order.
* `send_readable_iff`: what `CSession::Send` of asyncServer enqueues can be read exactly
  up to `MAX_LENGTH` bytes, because nothing on the way from `std::size_t` to `short`
  checks the length.
-/
import BoostNet.CSession

set_option autoImplicit false

namespace BoostNet.SendRead

open CSession (MsgNode MAX_LENGTH HEAD_TOTAL_LEN)

/-! ## Writers -/

/-- Conversion to `int`. -/
def toInt (x : Int) : Int := x.bmod 4294967296

/-- A conversion to `int` on the way to `short` changes nothing. -/
theorem toShort_toInt (x : Int) : toShort (toInt x) = toShort x := by
  exact Int.bmod_bmod_of_dvd (by decide)

def HEAD_ID_LEN : Nat := 2

def MAX_SENDQUE : Nat := 1000

/-- `SendNode`. -/
structure SendNode where
  node : MsgNode
  msg_id : Int
  deriving DecidableEq

/-- How a constructor ends. -/
inductive Built where
  | node (n : SendNode)
  | thrown
  | undefined
  deriving DecidableEq

/-- What a constructor copies to its buffer: the id, the length, and the body. -/
def assemble (id body : List Byte) (total_len max_len : Int) : MsgNode :=
  { MsgNode.new total_len with
    data := overwrite (overwrite (overwrite (MsgNode.new total_len).data 0 id)
      HEAD_ID_LEN (storeField max_len)) HEAD_TOTAL_LEN body }

/-- `SendNode`'s constructor, with `id` for the bytes it copies to the front. Of its
copies the last one reaches furthest. -/
def build (id src : List Byte) (max_len msg_id : Int) : Built :=
  if toShort (max_len + HEAD_TOTAL_LEN) + 1 < 0 then .thrown
  else if toShort (max_len + HEAD_TOTAL_LEN) + 1 < HEAD_TOTAL_LEN + toSize max_len ∨
      src.length < toSize max_len then .undefined
  else
    .node {
      node := assemble id (src.take (toSize max_len)) (toShort (max_len + HEAD_TOTAL_LEN)) max_len
      msg_id := msg_id }

/-- The bytes that `async_write` is given. -/
def SendNode.wire (n : SendNode) : List Byte := n.node.data.take (toSize n.node.total_len)

/-! ## Readers -/

/-- What a reader makes of the bytes of a connection. -/
inductive Received where
  /-- The `RecvNode`, and the bytes that were not read. -/
  | message (msg_id : Int) (body rest : List Byte)
  /-- A read fails. -/
  | error
  /-- The header is refused. -/
  | invalid
  /-- A read of no bytes is taken for the end of the connection. -/
  | closed
  | thrown
  | undefined
  deriving DecidableEq

/-- The header node once its bytes are read. -/
def readHead (stream : List Byte) : MsgNode :=
  (MsgNode.new HEAD_TOTAL_LEN).copy (stream.take HEAD_TOTAL_LEN)

/-- The body of a message of `total_len` bytes, once it is read and terminated. -/
def readBody (total_len : Int) (stream : List Byte) : List Byte :=
  (((MsgNode.new total_len).copy (stream.take (toSize total_len))).terminate).data.take
    (toSize total_len)

namespace asyncServer

/-- `SendNode`'s constructor. -/
def new (src : List Byte) (total_len msg_id : Int) : Built :=
  build (storeField msg_id) src total_len msg_id

/-- How `Send` ends. `write` says that it has started an `async_write`. -/
inductive Sent where
  | full
  | enqueued (n : SendNode) (write : Bool)
  | thrown
  | undefined
  deriving DecidableEq

/-- `Send(char*, int, short)`. -/
def Send_raw (send_que : List SendNode) (src : List Byte) (length msg_id : Int) : Sent :=
  if toInt send_que.length > MAX_SENDQUE then .full
  else
    match new src (toShort length) msg_id with
    | .node n => .enqueued n send_que.isEmpty
    | .thrown => .thrown
    | .undefined => .undefined

/-- `Send(std::string, short)`. The string ends with a zero. -/
def Send (send_que : List SendNode) (msg : List Byte) (msg_id : Int) : Sent :=
  Send_raw send_que (msg ++ [0]) (toInt msg.length) msg_id

/-- `HandleReadMsg`. -/
def HandleReadMsg (msg_id data_len : Int) (stream : List Byte) : Received :=
  if stream.length < toSize data_len then .error
  else .message msg_id (readBody data_len stream) (stream.drop (toSize data_len))

/-- `HandleReadHead`, and `HandleReadMsg` after it. -/
def HandleReadHead (stream : List Byte) : Received :=
  if stream.length < HEAD_TOTAL_LEN then .error
  else if (readHead stream).header.2 > MAX_LENGTH then .invalid
  else if (readHead stream).header.2 + 1 < 0 then .thrown
  else if (readHead stream).header.2 < 0 then .undefined
  else HandleReadMsg (readHead stream).header.1 (readHead stream).header.2
    (stream.drop HEAD_TOTAL_LEN)

end asyncServer

namespace coroutineServer

/-- `SendNode`'s constructor. It computes `msg_id_net` and copies `msg_id`. -/
def new (src : List Byte) (max_len msg_id : Int) : Built :=
  build (store_short (BitVec.ofInt 16 msg_id)) src max_len msg_id

/-- The second half of the loop of `Start`: the body. -/
def readMsg (msg_id msg_length : Int) (stream : List Byte) : Received :=
  if stream.length < toSize msg_length then .error
  else if msg_length = 0 then .closed
  else .message msg_id (readBody msg_length stream) (stream.drop (toSize msg_length))

/-- One turn of the loop of `Start`. -/
def Start (stream : List Byte) : Received :=
  if stream.length < HEAD_TOTAL_LEN then .error
  else if (readHead stream).header.1 > MAX_LENGTH then .invalid
  else if (readHead stream).header.2 > MAX_LENGTH then .invalid
  else if (readHead stream).header.2 + 1 < 0 then .thrown
  else if (readHead stream).header.2 < 0 then .undefined
  else readMsg (readHead stream).header.1 (readHead stream).header.2
    (stream.drop HEAD_TOTAL_LEN)

end coroutineServer

/-! ## A message that is built and read -/

theorem storeField_length (x : Int) : (storeField x).length = 2 := rfl

/-- The buffer of a message, when it has the size for it. -/
theorem assemble_data {id body : List Byte} (hid : id.length = HEAD_ID_LEN) {n : Nat}
    (hn : body.length = n) (max_len : Int) :
    (assemble id body (n + 4 : Nat) max_len).data =
      id ++ (storeField max_len ++ (body ++ [0])) := by
  have hbuf : (MsgNode.new (n + 4 : Nat)).data =
      [] ++ ([0, 0] ++ ([0, 0] ++ (List.replicate n 0 ++ [0]))) := by
    show List.replicate ((n + 4 : Nat) + 1 : Int).toNat 0 = _
    rw [show ((n + 4 : Nat) + 1 : Int).toNat = 4 + (n + 1) by omega, List.replicate_add,
      List.replicate_succ' (n := n)]
    rfl
  have hid_copy : overwrite (MsgNode.new (n + 4 : Nat)).data 0 id =
      id ++ ([0, 0] ++ (List.replicate n 0 ++ [0])) := by
    rw [hbuf]
    exact overwrite_append rfl hid.symm
  have hlen_copy : overwrite (id ++ ([0, 0] ++ (List.replicate n 0 ++ [0]))) HEAD_ID_LEN
      (storeField max_len) = id ++ (storeField max_len ++ (List.replicate n 0 ++ [0])) :=
    overwrite_append hid rfl
  have hbody_copy : overwrite ((id ++ storeField max_len) ++ (List.replicate n 0 ++ [0]))
      HEAD_TOTAL_LEN body = (id ++ storeField max_len) ++ (body ++ [0]) := by
    refine overwrite_append ?_ (by rw [hn, List.length_replicate])
    rw [List.length_append, hid]
    rfl
  rw [assemble, hid_copy, hlen_copy, ← List.append_assoc, hbody_copy, List.append_assoc]

/-- **What a constructor builds** from a body that fits a `short` together with the
header. -/
theorem build_eq (id : List Byte) {src body : List Byte} (msg_id : Int)
    (hid : id.length = HEAD_ID_LEN)
    (hsrc : src.take body.length = body) (hlen : body.length + HEAD_TOTAL_LEN < 32768) :
    ∃ n, build id src body.length msg_id = .node n ∧
      n.wire = id ++ (storeField body.length ++ body) := by
  have hle : body.length ≤ src.length := by
    rw [← hsrc, List.length_take]
    omega
  have hhead : HEAD_TOTAL_LEN = 4 := rfl
  have htotal : toShort (body.length + (HEAD_TOTAL_LEN : Nat)) = (body.length + 4 : Nat) :=
    toShort_of_range (by omega) (by omega)
  have hsize : toSize body.length = body.length := toSize_ofNat (by omega)
  rw [build, htotal, hsize, if_neg (by omega), if_neg (by omega), hsrc]
  refine ⟨_, rfl, ?_⟩
  show (assemble id body (body.length + 4 : Nat) body.length).data.take
    (toSize (body.length + 4 : Nat)) = _
  rw [assemble_data hid rfl, toSize_ofNat (by omega), ← List.append_assoc, ← List.append_assoc,
    ← List.append_assoc]
  apply List.take_left'
  simp only [List.length_append, hid, storeField_length, HEAD_ID_LEN]
  omega

/-- The header that is read is the one that was written. -/
theorem readHead_header {b0 b1 : Byte} {x : Int} (hmin : -32768 ≤ x) (hmax : x < 32768)
    (rest : List Byte) :
    (readHead ([b0, b1] ++ (storeField x ++ rest))).header = (loadField b0 b1, x) := by
  obtain ⟨b2, b3, hx⟩ : ∃ b2 b3, storeField x = [b2, b3] := ⟨_, _, rfl⟩
  have hdata : (readHead ([b0, b1] ++ (storeField x ++ rest))).data = [b0, b1, b2, b3, 0] := by
    rw [hx]
    rfl
  rw [MsgNode.header, hdata]
  show (loadField b0 b1, loadField b2 b3) = _
  rw [load_store hmin hmax hx]

/-- The body that is read is the one that was written. -/
theorem readBody_append {body : List Byte} (hlen : body.length < 32768) (rest : List Byte) :
    readBody body.length (body ++ rest) = body := by
  have hsize : toSize body.length = body.length := toSize_ofNat (by omega)
  have hbuf : (MsgNode.new body.length).data = [] ++ (List.replicate body.length 0 ++ [0]) := by
    show List.replicate ((body.length : Int) + 1).toNat 0 = _
    rw [show ((body.length : Int) + 1).toNat = body.length + 1 by omega, List.replicate_succ']
    rfl
  have hcopy : overwrite (MsgNode.new body.length).data (0 : Nat) body = [] ++ (body ++ [0]) := by
    rw [hbuf]
    exact overwrite_append rfl (List.length_replicate)
  have hend : overwrite (body ++ ([0] ++ [])) body.length [0] = body ++ ([0] ++ []) :=
    overwrite_append rfl rfl
  rw [readBody, hsize, List.take_left]
  show (overwrite (overwrite (MsgNode.new body.length).data (0 : Nat) body) body.length [0]).take
    body.length = body
  rw [hcopy]
  show (overwrite (body ++ ([0] ++ [])) body.length [0]).take body.length = body
  rw [hend, List.take_left]

/-- The length in a header of a message that is not too long. -/
theorem length_range {body : List Byte} (hlen : body.length ≤ MAX_LENGTH) :
    (body.length : Int) ≤ MAX_LENGTH ∧ (body.length : Int) < 32768 := by
  simp only [MAX_LENGTH] at hlen ⊢
  omega

/-- A header is there, and the body is behind it. -/
theorem head_append (b0 b1 : Byte) (x : Int) (rest : List Byte) :
    ¬ ([b0, b1] ++ (storeField x ++ rest)).length < HEAD_TOTAL_LEN ∧
      ([b0, b1] ++ (storeField x ++ rest)).drop HEAD_TOTAL_LEN = rest := by
  refine ⟨?_, rfl⟩
  simp only [List.length_append, storeField_length, List.length_cons, List.length_nil,
    HEAD_TOTAL_LEN]
  omega

/-! ## coroutineServer -/

namespace coroutineServer

/-- What `Start` makes of a message with the id in the two bytes `b0` and `b1`. -/
theorem Start_eq {b0 b1 : Byte} {body : List Byte} (hid : loadField b0 b1 ≤ MAX_LENGTH)
    (hpos : 0 < body.length) (hlen : body.length ≤ MAX_LENGTH) (rest : List Byte) :
    Start ([b0, b1] ++ (storeField body.length ++ (body ++ rest))) =
      .message (loadField b0 b1) body rest := by
  obtain ⟨hmax, hshort⟩ := length_range hlen
  obtain ⟨hhead, hdrop⟩ := head_append b0 b1 body.length (body ++ rest)
  have hsize : toSize body.length = body.length := toSize_ofNat (by omega)
  rw [Start, if_neg hhead, readHead_header (by omega) hshort, hdrop, if_neg (by omega),
    if_neg (by omega), if_neg (by omega), if_neg (by omega), readMsg, hsize, if_neg (by simp),
    if_neg (by omega), readBody_append (by omega), List.drop_left]

/-- Nor is an id refused that is read as one that was sent. -/
theorem Start_message {b0 b1 : Byte} {body : List Byte} (hpos : 0 < body.length)
    (hlen : body.length ≤ MAX_LENGTH) {msg_id : Int} (hid : msg_id ≤ MAX_LENGTH) :
    Start ([b0, b1] ++ (storeField body.length ++ body)) = .message msg_id body [] ↔
      loadField b0 b1 = msg_id := by
  obtain ⟨hmax, hshort⟩ := length_range hlen
  by_cases hle : loadField b0 b1 ≤ MAX_LENGTH
  · have hstart := Start_eq hle hpos hlen []
    rw [List.append_nil] at hstart
    rw [hstart, Received.message.injEq]
    exact ⟨fun h => h.1, fun h => ⟨h, rfl, rfl⟩⟩
  · obtain ⟨hhead, -⟩ := head_append b0 b1 body.length body
    rw [Start, if_neg hhead, readHead_header (by omega) hshort, if_pos (by omega)]
    constructor
    · intro h
      cases h
    · intro h
      exact absurd hid (h ▸ hle)

/-- When a turn of `Start` posts a message, and which. -/
theorem Start_eq_message_iff {stream body rest : List Byte} {msg_id : Int} :
    Start stream = .message msg_id body rest ↔
      HEAD_TOTAL_LEN + toSize (readHead stream).header.2 ≤ stream.length ∧
      (readHead stream).header.1 ≤ MAX_LENGTH ∧
      ((readHead stream).header.2 ≤ MAX_LENGTH ∧ 0 < (readHead stream).header.2) ∧
      msg_id = (readHead stream).header.1 ∧
      body = readBody (readHead stream).header.2 (stream.drop HEAD_TOTAL_LEN) ∧
      rest = (stream.drop HEAD_TOTAL_LEN).drop (toSize (readHead stream).header.2) := by
  constructor
  · intro h
    unfold Start readMsg at h
    split_ifs at h with hhead hid hlong hthrown hneg hshort hzero
    rw [List.length_drop] at hshort
    cases h
    exact ⟨by omega, by omega, ⟨by omega, by omega⟩, rfl, rfl, rfl⟩
  · rintro ⟨hlen, hid, ⟨hlong, hpos⟩, rfl, rfl, rfl⟩
    rw [Start, if_neg (by omega), if_neg (by omega), if_neg (by omega), if_neg (by omega),
      if_neg (by omega), readMsg, if_neg (by rw [List.length_drop]; omega), if_neg (by omega)]

theorem Start_rest_lt {stream body rest : List Byte} {msg_id : Int}
    (h : Start stream = .message msg_id body rest) : rest.length < stream.length := by
  obtain ⟨hlen, -, -, -, -, rfl⟩ := Start_eq_message_iff.mp h
  have hhead : HEAD_TOTAL_LEN = 4 := rfl
  rw [List.length_drop, List.length_drop]
  omega

/-- A message that is there is read whatever follows it. -/
theorem Start_append {stream body rest : List Byte} {msg_id : Int}
    (h : Start stream = .message msg_id body rest) (more : List Byte) :
    Start (stream ++ more) = .message msg_id body (rest ++ more) := by
  obtain ⟨hlen, hid, hlong, rfl, rfl, rfl⟩ := Start_eq_message_iff.mp h
  have hhead : readHead (stream ++ more) = readHead stream := by
    rw [readHead, readHead, List.take_append_of_le_length (by omega)]
  have hdrop : (stream ++ more).drop HEAD_TOTAL_LEN = stream.drop HEAD_TOTAL_LEN ++ more :=
    List.drop_append_of_le_length (by omega)
  have hbody : toSize (readHead stream).header.2 ≤ (stream.drop HEAD_TOTAL_LEN).length := by
    rw [List.length_drop]
    omega
  rw [Start_eq_message_iff, hhead, hdrop, List.length_append]
  refine ⟨by omega, hid, hlong, rfl, ?_, ?_⟩
  · rw [readBody, readBody, List.take_append_of_le_length hbody]
  · rw [List.drop_append_of_le_length hbody]

/-- **The reader gets what was sent** exactly if the two bytes of the id are equal, for every id and
every body. `SendNode` computes `msg_id_net` and copies `msg_id`, so that an id goes over the net in
host order. -/
theorem decode_send_iff (msg_id : Int) (body more : List Byte) (hmin : -32768 ≤ msg_id)
    (hid : msg_id ≤ MAX_LENGTH) (hpos : 0 < body.length) (hlen : body.length ≤ MAX_LENGTH) :
    (∃ n, new (body ++ more) body.length msg_id = .node n ∧
        Start n.wire = .message msg_id body []) ↔
      (BitVec.ofInt 16 msg_id).extractLsb' 0 8 = (BitVec.ofInt 16 msg_id).extractLsb' 8 8 := by
  have hint : (BitVec.ofInt 16 msg_id).toInt = msg_id := by
    simp only [MAX_LENGTH] at hid
    rw [BitVec.toInt_ofInt]
    exact Int.bmod_eq_of_le (by omega) (by omega)
  have hsrc : (body ++ more).take body.length = body := List.take_left
  obtain ⟨n, hn, hwire⟩ := build_eq (store_short (BitVec.ofInt 16 msg_id)) msg_id rfl hsrc (by
    simp only [MAX_LENGTH, HEAD_TOTAL_LEN] at hlen ⊢
    omega)
  have hread : Start n.wire = .message msg_id body [] ↔
      network_to_host_short (BitVec.ofInt 16 msg_id) = BitVec.ofInt 16 msg_id := by
    rw [hwire, store_short, Start_message hpos hlen hid, loadField, load_store_short]
    constructor
    · intro h
      exact BitVec.eq_of_toInt_eq (h.trans hint.symm)
    · intro h
      rw [h, hint]
  rw [← network_to_host_short_eq_iff, ← hread]
  constructor
  · rintro ⟨m, hm, hmsg⟩
    obtain rfl : n = m := Built.node.inj (hn.symm.trans hm)
    exact hmsg
  · intro h
    exact ⟨n, hn, h⟩

/-- An id of two equal bytes. -/
theorem decode_send_iff_equalBytes :
    ∃ n, new [42] 1 257 = .node n ∧ Start n.wire = .message 257 [42] [] :=
  (decode_send_iff 257 [42] [] (by decide) (by decide) (by decide) (by decide)).mpr (by decide)

/-- `MSG_HELLO_WORLD` is read as another id. -/
theorem decode_hello_world :
    ∃ n, new [42] 1 1001 = .node n ∧ Start n.wire = .message (-5885) [42] [] ∧
      Start n.wire ≠ .message 1001 [42] [] :=
  ⟨_, rfl, rfl, by decide⟩

end coroutineServer

/-! ## asyncServer -/

namespace asyncServer

/-- What the reader makes of a message that is not too long. -/
theorem HandleReadHead_eq (b0 b1 : Byte) {body : List Byte} (hlen : body.length ≤ MAX_LENGTH)
    (rest : List Byte) :
    HandleReadHead ([b0, b1] ++ (storeField body.length ++ (body ++ rest))) =
      .message (loadField b0 b1) body rest := by
  obtain ⟨hmax, hshort⟩ := length_range hlen
  obtain ⟨hhead, hdrop⟩ := head_append b0 b1 body.length (body ++ rest)
  have hsize : toSize body.length = body.length := toSize_ofNat (by omega)
  rw [HandleReadHead, if_neg hhead, readHead_header (by omega) hshort, hdrop, if_neg (by omega),
    if_neg (by omega), if_neg (by omega), HandleReadMsg, hsize, if_neg (by simp),
    readBody_append (by omega), List.drop_left]

/-- A message that is too long is refused. -/
theorem HandleReadHead_long (b0 b1 : Byte) {body : List Byte} (hlong : MAX_LENGTH < body.length)
    (hlen : body.length < 32768) :
    HandleReadHead ([b0, b1] ++ (storeField body.length ++ body)) = .invalid := by
  obtain ⟨hhead, -⟩ := head_append b0 b1 body.length body
  rw [HandleReadHead, if_neg hhead, readHead_header (by omega) (by omega), if_pos (by omega)]

/-! ### How the constructor ends, by the length modulo 2 ^ 16 -/

/-- The length and the header fit a `short`: so many bytes are sent. -/
theorem new_node (msg : List Byte) (msg_id : Int) {r : Nat} (hr : msg.length % 65536 = r)
    (hle : r ≤ 32763) :
    ∃ n, new (msg ++ [0]) (toShort msg.length) msg_id = .node n ∧
      n.wire = storeField msg_id ++ (storeField r ++ msg.take r) := by
  have hshort : toShort msg.length = r := by
    obtain ⟨hlo, hhi, k, hk⟩ := toShort_cases msg.length
    omega
  have htake : (msg.take r).length = r := by
    rw [List.length_take]
    omega
  have hsrc : (msg ++ [0]).take (msg.take r).length = msg.take r := by
    rw [htake]
    exact List.take_append_of_le_length (by omega)
  obtain ⟨n, hn, hwire⟩ := build_eq (storeField msg_id) msg_id rfl hsrc (by
    rw [htake]
    simp only [HEAD_TOTAL_LEN]
    omega)
  rw [htake] at hn hwire
  exact ⟨n, by rw [new, hshort]; exact hn, hwire⟩

/-- The size of the buffer is negative. -/
theorem new_thrown {msg : List Byte} (msg_id : Int) (hlo : 32764 ≤ msg.length % 65536)
    (hhi : msg.length % 65536 ≤ 65530) :
    new (msg ++ [0]) (toShort msg.length) msg_id = .thrown := by
  obtain ⟨hlo', hhi', k, hk⟩ := toShort_cases msg.length
  obtain ⟨hlo'', hhi'', k', hk'⟩ := toShort_cases (toShort msg.length + HEAD_TOTAL_LEN)
  have hhead : HEAD_TOTAL_LEN = 4 := rfl
  rw [new, build, if_pos (by omega)]

/-- The length is negative and the size of the buffer is not. -/
theorem new_undefined {msg : List Byte} (msg_id : Int) (hlo : 65531 ≤ msg.length % 65536) :
    new (msg ++ [0]) (toShort msg.length) msg_id = .undefined := by
  obtain ⟨hlo', hhi', k, hk⟩ := toShort_cases msg.length
  obtain ⟨hlo'', hhi'', k', hk'⟩ := toShort_cases (toShort msg.length + HEAD_TOTAL_LEN)
  have hsize := toSize_neg (x := toShort msg.length) (by omega) (by omega)
  have hhead : HEAD_TOTAL_LEN = 4 := rfl
  rw [new, build, if_neg (by omega), if_pos (Or.inl (by omega))]

/-- Whatever was enqueued is read back as it was given to `Send`. Undefined behaviour
promises nothing. -/
def Sent.Readable (msg_id : Int) (msg : List Byte) : Sent → Prop
  | .enqueued n _ => HandleReadHead n.wire = .message msg_id msg []
  | .full | .thrown => True
  | .undefined => False

/-- **What `Send` enqueues can be read** exactly if the queue is full and nothing is enqueued, or
the message is not too long, or the constructor throws, for every message of any length. Send bounds
nothing but its queue: a length above the reader's maximum, or one that a `short` cannot hold, is
enqueued as any other. -/
theorem send_readable_iff (send_que : List SendNode) (msg : List Byte) (msg_id : Int)
    (hmin : -32768 ≤ msg_id) (hmax : msg_id < 32768) :
    (Send send_que msg msg_id).Readable msg_id msg ↔
      toInt send_que.length > MAX_SENDQUE ∨ msg.length ≤ MAX_LENGTH ∨
        32764 ≤ msg.length % 65536 ∧ msg.length % 65536 ≤ 65530 := by
  rw [Send, Send_raw, toShort_toInt]
  by_cases hfull : toInt send_que.length > MAX_SENDQUE
  · rw [if_pos hfull]
    exact ⟨fun _ => Or.inl hfull, fun _ => trivial⟩
  rw [if_neg hfull]
  have hmaxlen : MAX_LENGTH = 2048 := rfl
  rcases Nat.lt_or_ge 32763 (msg.length % 65536) with hlong | hr
  · by_cases hthrow : msg.length % 65536 ≤ 65530
    · rw [new_thrown msg_id hlong hthrow]
      exact ⟨fun _ => Or.inr (Or.inr ⟨hlong, hthrow⟩), fun _ => trivial⟩
    · rw [new_undefined msg_id (by omega)]
      constructor
      · exact False.elim
      · rintro (h | h | h)
        · exact hfull h
        · omega
        · omega
  · -- a node is enqueued, and what is read of it is decided by its length
    obtain ⟨n, hn, hwire⟩ := new_node msg msg_id rfl hr
    have htake : (msg.take (msg.length % 65536)).length = msg.length % 65536 := by
      rw [List.length_take]
      omega
    rw [hn]
    show HandleReadHead n.wire = _ ↔ _
    rw [hwire]
    obtain ⟨b0, b1, hid⟩ : ∃ b0 b1, storeField msg_id = [b0, b1] := ⟨_, _, rfl⟩
    rw [hid]
    by_cases hread : msg.length % 65536 ≤ MAX_LENGTH
    · have heq := HandleReadHead_eq b0 b1 (htake.trans_le hread) []
      rw [htake, List.append_nil] at heq
      rw [heq, load_store hmin hmax hid, Received.message.injEq]
      constructor
      · rintro ⟨-, hmsg, -⟩
        have hlen := congrArg List.length hmsg
        omega
      · rintro (h | h | h)
        · exact absurd h hfull
        · exact ⟨rfl, List.take_of_length_le (by omega), rfl⟩
        · omega
    · have hinv := HandleReadHead_long b0 b1 (htake.symm ▸ (by omega) :
        MAX_LENGTH < (msg.take (msg.length % 65536)).length) (by omega)
      rw [htake] at hinv
      rw [hinv]
      constructor
      · intro h
        cases h
      · rintro (h | h | h)
        · exact absurd h hfull
        · omega
        · omega

/-- A short message on an empty queue. -/
theorem send_readable_iff_short :
    (Send [] [42] (-1)).Readable (-1) [42] :=
  (send_readable_iff [] [42] (-1) (by decide) (by decide)).mpr (Or.inr (Or.inl (by decide)))

/-- A message of one byte too many is enqueued and refused. -/
theorem send_long :
    ∃ n, Send [] (List.replicate 2049 0) 1001 = .enqueued n true ∧
      HandleReadHead n.wire = .invalid ∧
      ¬ (Send [] (List.replicate 2049 0) 1001).Readable 1001 (List.replicate 2049 0) := by
  have hlen : (List.replicate 2049 (0 : Byte)).length = 2049 := List.length_replicate
  obtain ⟨n, hn, hwire⟩ := new_node (List.replicate 2049 0) 1001 (r := 2049) (by rw [hlen])
    (by decide)
  have hsend : Send [] (List.replicate 2049 0) 1001 = .enqueued n true := by
    rw [Send, Send_raw, toShort_toInt, if_neg (by decide), hn]
    rfl
  have hread : HandleReadHead n.wire = .invalid := by
    obtain ⟨b0, b1, hid⟩ : ∃ b0 b1, storeField 1001 = [b0, b1] := ⟨_, _, rfl⟩
    have hlong : HandleReadHead ([b0, b1] ++ (storeField (List.replicate 2049 (0 : Byte)).length ++
        List.replicate 2049 0)) = .invalid :=
      HandleReadHead_long b0 b1 (by rw [hlen]; decide) (by rw [hlen]; decide)
    rw [hwire, hid, List.take_of_length_le (by rw [hlen])]
    rw [hlen] at hlong
    exact hlong
  refine ⟨n, hsend, hread, ?_⟩
  rw [hsend]
  intro h
  exact absurd (hread.symm.trans h) (by decide)

end asyncServer

end BoostNet.SendRead
