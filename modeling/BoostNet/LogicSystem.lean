/-
`LogicSystem` of Network/asyncServer: the queue between the network threads and the
logic thread, `PostMsgToQue` at its one end and `DealMsg` at the other.

Any number of sessions run `HandleRead` (`CSession`), and their steps interleave with
those of `DealMsg`. A queued `LogicNode` points to the session and to the node that the
session has built, so what `DealMsg` reads is the node as it is then. The arguments of
the callback are read in two steps, `_cur_len` and then the bytes.

`DealMsg` holds `_mutex` from the wait to the end of an iteration, and `PostMsgToQue`
while it pushes, so the push is one step, taken when the mutex is free. A wait may
return at any time, woken or not, so `notify_one` is not a step. The callbacks' own work
is left out.
-/
import Mathlib.Logic.Function.Basic
import BoostNet.CSession

set_option autoImplicit false

namespace BoostNet.LogicSystem

open CSession

/-! ## The queue -/

def MSG_HELLO_WORD : Int := 1001

/-- `_fun_callback.find(msg_id)` finds a callback. -/
def registered (msg_id : Int) : Bool := msg_id == MSG_HELLO_WORD

/-- `LogicNode`. The node is given by its place among the nodes of the session, the
oldest first. `path` and `posted` remember which `PostMsgToQue` it was, and the node at
that moment. -/
structure LogicNode (ι : Type*) where
  session : ι
  recvnode : Nat
  path : Path
  posted : MsgNode
  deriving DecidableEq

/-- What `PostMsgToQue` pushes, if the step is that call. -/
def posting {ι : Type*} (i : ι) (s : Session) (a : CSession.Action) : Option (LogicNode ι) :=
  match a, s.ctl, s.recv_nodes with
  | .step, .post p _, r :: rest =>
      some { session := i, recvnode := rest.length, path := p, posted := r.node }
  | _, _, _ => none

/-- `_recvnode`. -/
def recvNode (s : Session) (k : Nat) : Option RecvNode := s.recv_nodes.reverse[k]?

/-! ## The logic thread -/

/-- Where `DealMsg` is. The flag says that the queue is drained after a stop. -/
inductive Worker where
  | lock
  | predicate
  | waiting
  | b_stop
  | front (drain : Bool)
  | cur_len (drain : Bool)
  | data (drain : Bool) (n : Int)
  | pop (drain : Bool)
  | exited
  deriving DecidableEq

/-- `DealMsg` holds `_mutex`. -/
def Worker.locked : Worker → Bool
  | .lock | .waiting | .exited => false
  | .predicate | .b_stop | .front _ | .cur_len _ | .data _ _ | .pop _ => true

/-- A call of a callback, and the body that was posted. -/
structure Call (ι : Type*) where
  session : ι
  msg_id : Int
  msg_data : List Byte
  posted : List Byte
  deriving DecidableEq

/-! ## The system -/

structure Sys (ι : Type*) where
  sessions : ι → Session
  msg_que : List (LogicNode ι)
  b_stop : Bool
  worker : Worker
  calls : List (Call ι)

variable {ι : Type*} [DecidableEq ι]

/-- A step of a session. -/
def Sys.session (s : Sys ι) (i : ι) (a : CSession.Action) : Option (Sys ι) :=
  if (posting i (s.sessions i) a).isSome ∧ s.worker.locked then none
  else ((s.sessions i).act a).map fun t => { s with
    sessions := Function.update s.sessions i t
    msg_que := s.msg_que ++ (posting i (s.sessions i) a).toList }

/-- The node in front of the queue. -/
def Sys.front (s : Sys ι) : Option (LogicNode ι × RecvNode) :=
  match s.msg_que with
  | [] => none
  | e :: _ => (recvNode (s.sessions e.session) e.recvnode).map fun r => (e, r)

/-- A step of `DealMsg`. -/
def Sys.dealMsg (s : Sys ι) : Option (Sys ι) :=
  match s.worker with
  | .lock => some { s with worker := .predicate }
  | .predicate =>
      if s.msg_que = [] ∧ s.b_stop = false then some { s with worker := .waiting }
      else some { s with worker := .b_stop }
  | .waiting => some { s with worker := .predicate }
  | .b_stop => some { s with worker := .front s.b_stop }
  | .front drain =>
      match s.front with
      | none => if drain ∧ s.msg_que = [] then some { s with worker := .exited } else none
      | some (_, r) =>
          if registered r.msg_id then some { s with worker := .cur_len drain }
          else some { s with worker := .pop drain }
  | .cur_len drain => s.front.map fun (_, r) => { s with worker := .data drain r.node.cur_len }
  | .data drain n => s.front.map fun (e, r) => { s with
      worker := .pop drain
      calls := s.calls ++ [{
        session := e.session
        msg_id := r.msg_id
        msg_data := r.node.data.take n.toNat
        posted := e.posted.string }] }
  | .pop drain =>
      some { s with
        msg_que := s.msg_que.tail
        worker := if drain then .front true else .lock }
  | .exited => none

inductive Action (ι : Type*) where
  | session (i : ι) (a : CSession.Action)
  | worker
  /-- `_b_stop = true` in the destructor. -/
  | stop
  deriving DecidableEq

def Sys.act (s : Sys ι) : Action ι → Option (Sys ι)
  | .session i a => s.session i a
  | .worker => s.dealMsg
  | .stop => some { s with b_stop := true }

variable (ι) in
/-- The sessions after `Start`, and the logic thread. -/
def system : Lts (Sys ι) (Action ι) where
  init := {
    sessions := fun _ => {}
    msg_que := []
    b_stop := false
    worker := .lock
    calls := [] }
  step := Sys.act

end BoostNet.LogicSystem
