/-
Network/coroutineServer as a whole: what a client sends, and what it is answered.

The parts are those of `SendRead`, `LogicStop` and `SendPipeline`. The coroutine of
`CSession::Start` reads the messages of a connection one after the other and posts each of them;
the worker of `LogicSystem` takes them from `_msg_que` and calls `HelloWorldCallBack`, inside
`_mutex`, and that calls `CSession::Send`; `HandleWrite` goes on with what is queued. A session
lives on one `io_context`, which one thread runs: the read handlers and the write handlers of all
sessions with this home take turns. `AsioIOServicePool` has one thread; here there may be any
number.

`json` is what `Json::Reader`, `asInt` and `toStyledString` make of the body: the text of the
answer and the id, or nothing where they throw. Nobody catches that, so the program ends, as it
does where the constructor of `SendNode` throws; `gone` says so. `_b_close` is never looked at, and
a read may fail at any time. `~LogicSystem` is left out.

So is what a session does at its end: `Close`, `CServer::ClearSession` and `~CSession`. They read
and send nothing, so that no client is told anything else; but where `ClearSession` drops the last
pointer to the session, `~CSession` calls it again and waits for the mutex its own thread holds
(`SessionTable`), and whoever else has this `io_context` waits with it. What is said about progress
is therefore said of runs in which no connection ends.

* `answered_in_order`: each client is answered what its own stream asks for, in its order, and
  nothing is left out but the answers that were refused.
* `answered`: nothing gets stuck. When nobody can go on, and all connections are up, every client
  has got all its answers, but for those.

That they do come to a stop is in `CoroutineServerRank`.
-/
import BoostNet.LogicRunning
import BoostNet.SendPipeline

set_option autoImplicit false

namespace BoostNet.CoroutineServer

open LogicStop (Watched)
open SendPipeline (Message)
open SendRead (Built)
open SendRead.coroutineServer (Start Start_append Start_rest_lt)

/-! ## What a stream asks for -/

def MSG_HELLO_WORLD : Int := 1001

structure RecvNode where
  msg_id : Int
  data : List Byte
  deriving DecidableEq

/-- The messages `Start` reads from a stream. -/
def recvNodes (stream : List Byte) : List RecvNode :=
  match h : Start stream with
  | .message msg_id body rest =>
      have := Start_rest_lt h
      ⟨msg_id, body⟩ :: recvNodes rest
  | .error | .invalid | .closed | .thrown | .undefined => []
  termination_by stream.length

/-- `_fun_callbacks` has the id. -/
def RecvNode.registered (n : RecvNode) : Bool := n.msg_id == MSG_HELLO_WORLD

/-- `Send(std::string, short)`. The string ends with a zero. -/
def Send (msg : List Byte) (msg_id : Int) : Message := ⟨msg ++ [0], msg.length, toShort msg_id⟩

def HelloWorldCallBack (json : List Byte → Option (List Byte × Int)) (msg_data : List Byte) :
    Option Message :=
  (json msg_data).map fun (return_str, id) => Send return_str id

/-- What the callbacks of the messages send. -/
def answers (json : List Byte → Option (List Byte × Int)) (nodes : List RecvNode) : List Message :=
  (nodes.filter RecvNode.registered).filterMap fun n => HelloWorldCallBack json n.data

/-! ## The server -/

structure LogicNode (ι : Type*) where
  session : ι
  recvNode : RecvNode

/-- Who is in `Send` or `HandleWrite` of a session. -/
inductive Thread where
  | worker
  | io
  deriving DecidableEq

/-- What the thread of an `io_context` is doing. -/
inductive Io (ι : Type*) where
  | idle
  /-- `PostMsgToQue`. -/
  | post
  /-- `HandleWrite` of a session. -/
  | write (i : ι)

/-- `received` is what the peer has sent, `unread` what of it was not read, and `read` the messages
that were. `refused` has the answers for which `Send` has found the queue full, counted from 0. -/
structure Sys (ι κ : Type*) where
  received : ι → List Byte := fun _ => []
  unread : ι → List Byte := fun _ => []
  read : ι → List RecvNode := fun _ => []
  ended : ι → Bool := fun _ => false
  logic : Watched κ (LogicNode ι) := {}
  /-- The callback that is running has called `Send`. -/
  sending : Bool := false
  session : ι → SendPipeline.Sys Thread := fun _ => {}
  refused : ι → List Nat := fun _ => []
  io : κ → Io ι := fun _ => .idle
  gone : Bool := false

inductive Action (ι κ : Type*) where
  /-- Bytes arrive. -/
  | deliver (i : ι) (bytes : List Byte)
  /-- A read fails. -/
  | hangup (i : ι)
  /-- A message is there, and the coroutine goes on. -/
  | read (i : ι)
  /-- The `n`-th outstanding write completes. -/
  | complete (i : ι) (n : Nat) (error : Bool)
  | io (k : κ)
  | worker
  | spurious

section Server

variable {ι κ : Type*} [DecidableEq ι] [DecidableEq κ]

/-- `LogicSystem`. Its callers are the threads of the `io_context`s. -/
def logicSystem (ι κ : Type*) [DecidableEq κ] :
    Lts (Watched κ (LogicNode ι)) (LogicStop.Action κ (LogicNode ι)) :=
  LogicStop.watched .coroutineServer (fun n => n.recvNode.registered) κ

/-- A turn of the loop of `Start`. -/
def Sys.start (home : ι → κ) (s : Sys ι κ) (i : ι) : Option (Sys ι κ) :=
  match s.io (home i), s.ended i with
  | .idle, false =>
      match Start (s.unread i) with
      | .message msg_id body rest =>
          ((logicSystem ι κ).step s.logic (.call (home i) ⟨i, msg_id, body⟩)).map fun logic =>
            { s with
              unread := Function.update s.unread i rest
              read := Function.update s.read i (s.read i ++ [⟨msg_id, body⟩])
              logic
              io := Function.update s.io (home i) .post }
      -- The message is not there yet.
      | .error => none
      | .invalid | .closed | .thrown => some { s with ended := Function.update s.ended i true }
      | .undefined => some { s with gone := true }
  | _, _ => none

/-- The thread of an `io_context` goes on. -/
def Sys.runIo (s : Sys ι κ) (k : κ) : Option (Sys ι κ) :=
  match s.io k with
  | .idle => none
  | .post =>
      ((logicSystem ι κ).step s.logic (.post k)).map fun logic =>
        { s with
          logic
          io := Function.update s.io k
            (match logic.sys.posts k with
            | .idle => .idle
            | _ => .post) }
  | .write i =>
      ((s.session i).run .coroutineServer .io).map fun t =>
        { s with
          session := Function.update s.session i t
          io := Function.update s.io k
            (match t.pc .io with
            | .idle => .idle
            | _ => .write i) }

omit [DecidableEq ι] [DecidableEq κ] in
/-- What has been refused when the worker goes on in `Send`. Each answer before has been accepted or
refused. -/
def Sys.refuse (s : Sys ι κ) (i : ι) : List Nat :=
  if (s.session i).refuses .worker then
    s.refused i ++ [(s.session i).accepted.length + (s.refused i).length]
  else s.refused i

/-- The worker goes on in `Send`. -/
def Sys.send (s : Sys ι κ) (i : ι) : Option (Sys ι κ) :=
  if (s.session i).fails .coroutineServer .worker then some { s with gone := true }
  else ((s.session i).run .coroutineServer .worker).map fun t =>
    { s with
      session := Function.update s.session i t
      refused := Function.update s.refused i (s.refuse i) }

/-- The worker of `LogicSystem` goes on. -/
def Sys.runWorker (json : List Byte → Option (List Byte × Int)) (s : Sys ι κ) : Option (Sys ι κ) :=
  match s.logic.sys.worker.calling with
  | none => ((logicSystem ι κ).step s.logic .worker).map fun logic => { s with logic }
  | some msg =>
      -- The callback calls `Send` once; when that has returned, so does the callback.
      if s.sending then
        match (s.session msg.session).pc .worker with
        | .idle => ((logicSystem ι κ).step s.logic .worker).map fun logic =>
            { s with logic, sending := false }
        | _ => s.send msg.session
      else
        match HelloWorldCallBack json msg.recvNode.data with
        | none => some { s with gone := true }
        | some m =>
            ((s.session msg.session).step .coroutineServer (.call .worker m)).map fun t =>
              { s with session := Function.update s.session msg.session t, sending := true }

def Sys.step (json : List Byte → Option (List Byte × Int)) (home : ι → κ) (s : Sys ι κ) :
    Action ι κ → Option (Sys ι κ)
  | .deliver i bytes =>
      some { s with
        received := Function.update s.received i (s.received i ++ bytes)
        unread := Function.update s.unread i (s.unread i ++ bytes) }
  | .hangup i =>
      match s.io (home i), s.ended i with
      | .idle, false => some { s with ended := Function.update s.ended i true }
      | _, _ => none
  | .read i => s.start home i
  | .complete i n error =>
      match s.io (home i) with
      | .idle =>
          ((s.session i).step .coroutineServer (.complete .io n error)).map fun t =>
            { s with
              session := Function.update s.session i t
              io := Function.update s.io (home i) (if error then .idle else .write i) }
      | _ => none
  | .io k => s.runIo k
  | .worker => s.runWorker json
  | .spurious => ((logicSystem ι κ).step s.logic .spurious).map fun logic => { s with logic }

/-- Nothing happens any more once the program has ended. -/
def server (json : List Byte → Option (List Byte × Int)) (home : ι → κ) :
    Lts (Sys ι κ) (Action ι κ) where
  init := {}
  step s a := if s.gone then none else s.step json home a

end Server

variable {ι κ : Type*}

/-! ## The streams -/

/-- The coroutine reads one message, and then the rest of the stream. -/
theorem recvNodes_message {stream body rest : List Byte} {msg_id : Int}
    (h : Start stream = .message msg_id body rest) :
    recvNodes stream = ⟨msg_id, body⟩ :: recvNodes rest := by
  rw [recvNodes]
  split
  next heq =>
    rw [h, SendRead.Received.message.injEq] at heq
    obtain ⟨rfl, rfl, rfl⟩ := heq
    rfl
  all_goals next heq => rw [h] at heq; cases heq

/-- An incomplete message is no message. -/
theorem recvNodes_error {stream : List Byte} (h : Start stream = .error) :
    recvNodes stream = [] := by
  rw [recvNodes]
  split
  next heq => rw [h] at heq; cases heq
  all_goals rfl

variable [DecidableEq ι]

/-- The messages of a session. -/
def ofSession (i : ι) (nodes : List (LogicNode ι)) : List RecvNode :=
  (nodes.filter fun n => n.session = i).map LogicNode.recvNode

theorem ofSession_append (i : ι) (nodes nodes' : List (LogicNode ι)) :
    ofSession i (nodes ++ nodes') = ofSession i nodes ++ ofSession i nodes' := by
  rw [ofSession, List.filter_append, List.map_append, ofSession, ofSession]

theorem ofSession_self (n : LogicNode ι) : ofSession n.session [n] = [n.recvNode] := by
  simp [ofSession]

/-- What other sessions have posted is none of its messages. -/
theorem ofSession_of_ne {i : ι} {nodes : List (LogicNode ι)} (h : ∀ n ∈ nodes, n.session ≠ i) :
    ofSession i nodes = [] := by
  rw [ofSession, List.filter_eq_nil_iff.mpr fun n hn => by simpa using h n hn]
  rfl

/-- More messages in the queue, more of each session, in the same order. -/
theorem ofSession_mono {nodes nodes' : List (LogicNode ι)} (h : nodes <+: nodes') (i : ι) :
    ofSession i nodes <+: ofSession i nodes' :=
  (h.filter _).map _

/-- It does not matter whether one looks for the session or for the callback first. -/
theorem ofSession_registered (i : ι) (nodes : List (LogicNode ι)) :
    ofSession i (nodes.filter fun n => n.recvNode.registered) =
      (ofSession i nodes).filter RecvNode.registered := by
  rw [ofSession, ofSession, List.filter_map, List.filter_filter, List.filter_filter]
  exact congrArg _ (List.filter_congr fun n _ => Bool.and_comm _ _)

theorem answers_registered (json : List Byte → Option (List Byte × Int)) (nodes : List RecvNode) :
    answers json (nodes.filter RecvNode.registered) = answers json nodes := by
  rw [answers, List.filter_filter, answers]
  exact congrArg _ (List.filter_congr fun n _ => Bool.and_self _)

/-- Answers come one by one, in the order of the messages. -/
theorem answers_append (json : List Byte → Option (List Byte × Int))
    (nodes nodes' : List RecvNode) :
    answers json (nodes ++ nodes') = answers json nodes ++ answers json nodes' := by
  rw [answers, List.filter_append, List.filterMap_append, answers, answers]

/-- Who has read more of a stream has more answers to give, behind those before. -/
theorem answers_mono (json : List Byte → Option (List Byte × Int)) {nodes nodes' : List RecvNode}
    (h : nodes <+: nodes') : answers json nodes <+: answers json nodes' := by
  obtain ⟨rest, rfl⟩ := h
  rw [answers_append]
  exact List.prefix_append ..

/-! ## Answers that are left out -/

section Gaps

variable {α β : Type*} {gaps : List Nat} {accepted sends asked : List α} {m : α}

/-- Those that are not at one of the positions in `gaps`. -/
def without (gaps : List Nat) (l : List α) : List α :=
  (l.zipIdx.filter fun p => p.2 ∉ gaps).map Prod.fst

/-- The last one is left out if its position is a gap. -/
theorem without_append (gaps : List Nat) (l : List α) (m : α) :
    without gaps (l ++ [m]) = without gaps l ++ if l.length ∈ gaps then [] else [m] := by
  rw [without, List.zipIdx_append, List.filter_append, List.map_append, without]
  refine congrArg _ ?_
  by_cases hmem : l.length ∈ gaps
  · simp [hmem]
  · simp [hmem]

/-- What stands behind the end of a list changes nothing before it. -/
theorem without_mono (gaps : List Nat) {l l' : List α} (h : l <+: l') :
    without gaps l <+: without gaps l' := by
  obtain ⟨rest, rfl⟩ := h
  rw [without, without, List.zipIdx_append, List.filter_append, List.map_append]
  exact List.prefix_append ..

/-- A gap behind the end is none. -/
theorem without_past (gaps : List Nat) (l : List α) :
    without (gaps ++ [l.length]) l = without gaps l := by
  refine congrArg _ (List.filter_congr fun p hp => ?_)
  have hne : p.2 ≠ l.length := Nat.ne_of_lt (List.snd_lt_of_mem_zipIdx hp)
  simp [hne]

/-- What was asked for has been accepted, is being sent, or is a gap. -/
structure Accounted (gaps : List Nat) (accepted sends asked : List α) : Prop where
  sent : accepted ++ sends = without gaps asked
  count : accepted.length + sends.length + gaps.length = asked.length
  past : ∀ n ∈ gaps, n + sends.length < asked.length

/-- The next answer is about to be sent. Its position is not a gap yet. -/
theorem Accounted.ask (h : Accounted gaps accepted [] asked) (m : α) :
    Accounted gaps accepted [m] (asked ++ [m]) := by
  have hfresh : asked.length ∉ gaps := fun hmem => (h.past _ hmem).ne rfl
  refine ⟨?_, ?_, fun n hn => ?_⟩
  · rw [without_append, if_neg hfresh, ← h.sent, List.append_nil]
  · have hcount := h.count
    rw [List.length_append, List.length_singleton, ← hcount, List.length_nil]
    omega
  · rw [List.length_append]
    exact Nat.add_lt_add_right (h.past n hn) 1

/-- It is pushed to `_send_que`. -/
theorem Accounted.accept (h : Accounted gaps accepted [m] asked) :
    Accounted gaps (accepted ++ [m]) [] asked := by
  refine ⟨(List.append_nil _).trans h.sent, ?_, fun n hn => (Nat.le_succ n).trans_lt (h.past n hn)⟩
  rw [List.length_append]
  exact h.count

/-- What is refused is the answer that was asked for last. -/
theorem Accounted.refuse (h : Accounted gaps accepted [m] asked) :
    Accounted (gaps ++ [accepted.length + gaps.length]) accepted [] asked := by
  have hcount := h.count
  rcases List.eq_nil_or_concat' asked with rfl | ⟨before, last, rfl⟩
  · simp at hcount
  rw [List.length_append, List.length_singleton, List.length_singleton] at hcount
  have hlast : accepted.length + gaps.length = before.length := by omega
  have hfresh : before.length ∉ gaps := by
    intro hmem
    have hlt := h.past _ hmem
    rw [List.length_append] at hlt
    exact hlt.ne rfl
  have hsent := h.sent
  rw [without_append, if_neg hfresh] at hsent
  rw [hlast]
  refine ⟨?_, ?_, fun n hn => ?_⟩
  · rw [without_append, if_pos (by simp), without_past, (List.append_inj' hsent rfl).1]
  · rw [List.length_append, List.length_append, List.length_nil, ← hlast]
    exact (Nat.add_assoc ..).symm
  · rw [List.length_append]
    rcases List.mem_append.mp hn with hold | hnew
    · exact (Nat.le_succ n).trans_lt ((h.past n hold).trans_eq (List.length_append ..))
    · rw [List.mem_singleton.mp hnew]
      exact Nat.lt_succ_self _

end Gaps

/-! ## The invariant -/

variable {json : List Byte → Option (List Byte × Int)} {home : ι → κ}
  {s t : Sys ι κ} {i : ι}

/-- What has been called back, with the message whose callback has called `Send`. -/
def Sys.called (s : Sys ι κ) : List (LogicNode ι) :=
  s.logic.sys.calls ++ if s.sending then s.logic.sys.worker.calling.toList else []

/-- From the streams to `_msg_que`. -/
structure Reads (home : ι → κ) (s : Sys ι κ) : Prop where
  streams : ∀ i more, recvNodes (s.received i ++ more) = s.read i ++ recvNodes (s.unread i ++ more)
  homes : ∀ k, ∀ n ∈ (s.logic.sys.posts k).carries, home n.session = k
  posted : ∀ i, ofSession i (s.logic.posted ++ (s.logic.sys.posts (home i)).carries) = s.read i

/-- What is sent is what the messages that are called back ask for. -/
structure Replies (json : List Byte → Option (List Byte × Int)) (s : Sys ι κ) : Prop where
  sent : ∀ i, Accounted (s.refused i) (s.session i).accepted ((s.session i).pc .worker).sends
    (answers json (ofSession i s.called))
  callback : s.sending = true → s.logic.sys.worker.calling ≠ none
  worker : ∀ i, (s.session i).pc .worker ≠ .idle →
    s.sending = true ∧ ∃ msg, s.logic.sys.worker.calling = some msg ∧ msg.session = i
  io : ∀ i, ((s.session i).pc .io).sends = []

/-- What the threads of the `io_context`s are doing. -/
structure Tasks (home : ι → κ) (s : Sys ι κ) : Prop where
  posts : ∀ k, s.io k = .post ↔ s.logic.sys.posts k ≠ .idle
  writes : ∀ k i, s.io k = .write i ↔ home i = k ∧ (s.session i).pc .io ≠ .idle

structure Inv (json : List Byte → Option (List Byte × Int)) (home : ι → κ) (s : Sys ι κ) :
    Prop where
  dispatch : LogicStop.DispatchInv .coroutineServer (fun n => n.recvNode.registered) s.logic
  running : LogicStop.Running .coroutineServer s.logic.sys
  pipes : ∀ i, ∃ turn, SendPipeline.Inv .coroutineServer (s.session i) turn
  reads : Reads home s
  replies : Replies json s
  tasks : Tasks home s

/-- The worker calls back what has been posted, in the order of the posts. -/
theorem Inv.called_prefix_posted (h : Inv json home s) :
    s.called <+: s.logic.posted.filter fun n => n.recvNode.registered := by
  have hprefix := h.dispatch.calls_prefix_posted
  rw [Sys.called]
  split
  · exact hprefix
  · rw [List.append_nil]
    exact (List.prefix_append ..).trans hprefix

/-- What has been called back is what the client asks for first. -/
theorem Inv.answers_called (h : Inv json home s) (i : ι) :
    answers json (ofSession i s.called) <+:
      answers json (s.read i) := by
  have hposted : ofSession i s.logic.posted <+: s.read i := by
    rw [← h.reads.posted i, ofSession_append]
    exact List.prefix_append ..
  have hcalled := ofSession_mono h.called_prefix_posted i
  rw [ofSession_registered] at hcalled
  have hanswers := answers_mono json hcalled
  rw [answers_registered] at hanswers
  exact hanswers.trans (answers_mono json hposted)

/-- What a client has been sent so far. -/
structure Served (json : List Byte → Option (List Byte × Int)) (s : Sys ι κ) (i : ι) : Prop where
  read : s.read i <+: recvNodes (s.received i)
  /-- The nodes that were written are those of the answers, in their order, each once, and none is
  left out but those that were refused. -/
  in_order : (s.session i).started.map Built.node <+:
    (without (s.refused i) (answers json (recvNodes (s.received i)))).map
      (Message.node .coroutineServer)

/-- What has been read is what the stream begins with. -/
theorem Reads.read_prefix_recvNodes (h : Reads home s) (i : ι) :
    s.read i <+: recvNodes (s.received i) := by
  have hstream := h.streams i []
  rw [List.append_nil] at hstream
  exact ⟨_, hstream.symm⟩

/-- What is known of every state is enough: from the stream to the reads, to the posts, to the
callbacks, to `Send`, to `async_write`, each the beginning of the one before. -/
theorem Inv.served (h : Inv json home s) (i : ι) : Served json s i := by
  have hread := h.reads.read_prefix_recvNodes i
  have hanswers := (h.answers_called i).trans (answers_mono json hread)
  obtain ⟨turn, hpipe⟩ := h.pipes i
  obtain ⟨nodes, hnodes, -, hstarted⟩ := hpipe.piped.in_order
  have hwritten : (s.session i).started.map Built.node <+:
      (s.session i).accepted.map (Message.node .coroutineServer) := by
    rw [hnodes]
    exact hstarted.map _
  have haccepted := List.prefix_append (s.session i).accepted ((s.session i).pc .worker).sends
  rw [(h.replies.sent i).sent] at haccepted
  exact ⟨hread, hwritten.trans ((haccepted.trans (without_mono _ hanswers)).map _)⟩

/-! ## The steps -/

/-- `LogicSystem` goes on, and dispatches nothing. -/
theorem Replies.apart (h : Replies json s) (ha : LogicStop.Apart s.logic.sys t.logic.sys)
    (hsending : t.sending = s.sending) (hsession : t.session = s.session)
    (hrefused : t.refused = s.refused) : Replies json t := by
  have hcalling : t.logic.sys.worker.calling = s.logic.sys.worker.calling := by
    rcases ha.worker with hsame | ⟨hblocked, hwoken⟩
    · rw [hsame]
    · rw [hblocked, hwoken]
      rfl
  have hcalled : t.called = s.called := by
    rw [Sys.called, Sys.called, hcalling, ha.calls, hsending]
  constructor
  · rw [hcalled, hsession, hrefused]
    exact h.sent
  · rw [hcalling, hsending]
    exact h.callback
  · rw [hcalling, hsession, hsending]
    exact h.worker
  · rw [hsession]
    exact h.io

/-- Bytes that arrive are not read yet, and complete messages stay complete. -/
theorem Inv.deliver (h : Inv json home s) (i : ι) (bytes : List Byte) :
    Inv json home { s with
      received := Function.update s.received i (s.received i ++ bytes)
      unread := Function.update s.unread i (s.unread i ++ bytes) } := by
  refine ⟨h.dispatch, h.running, h.pipes, ⟨fun j more => ?_, h.reads.homes, h.reads.posted⟩,
    ⟨h.replies.sent, h.replies.callback, h.replies.worker, h.replies.io⟩,
    ⟨h.tasks.posts, h.tasks.writes⟩⟩
  dsimp only
  by_cases hj : j = i
  · rw [hj, Function.update_self, Function.update_self, List.append_assoc, List.append_assoc]
    exact h.reads.streams i (bytes ++ more)
  · rw [Function.update_of_ne hj, Function.update_of_ne hj]
    exact h.reads.streams j more

/-- The end of a session stops its reads, and nothing else. -/
theorem Inv.endSession (h : Inv json home s) (ended : ι → Bool) :
    Inv json home { s with ended } :=
  ⟨h.dispatch, h.running, h.pipes, ⟨h.reads.streams, h.reads.homes, h.reads.posted⟩,
    ⟨h.replies.sent, h.replies.callback, h.replies.worker, h.replies.io⟩,
    ⟨h.tasks.posts, h.tasks.writes⟩⟩

/-- The end of the program changes nothing that has been sent. -/
theorem Inv.die (h : Inv json home s) : Inv json home { s with gone := true } :=
  ⟨h.dispatch, h.running, h.pipes, ⟨h.reads.streams, h.reads.homes, h.reads.posted⟩,
    ⟨h.replies.sent, h.replies.callback, h.replies.worker, h.replies.io⟩,
    ⟨h.tasks.posts, h.tasks.writes⟩⟩

/-- The thread of an `io_context` goes on in a session. -/
theorem Replies.handle (h : Replies json s) {p : SendPipeline.Sys Thread}
    (haccepted : p.accepted = (s.session i).accepted)
    (hworker : p.pc .worker = (s.session i).pc .worker) (hio : (p.pc .io).sends = [])
    (hlogic : t.logic = s.logic) (hsending : t.sending = s.sending)
    (hrefused : t.refused = s.refused) (hsession : t.session = Function.update s.session i p) :
    Replies json t := by
  have hcalled : t.called = s.called := by
    rw [Sys.called, Sys.called, hlogic, hsending]
  refine ⟨?_, ?_, ?_, ?_⟩
  · rw [hcalled, hsession, hrefused]
    refine forall_update_at (P := fun j (q : SendPipeline.Sys Thread) =>
      Accounted (s.refused j) q.accepted (q.pc .worker).sends (answers json (ofSession j s.called)))
      ?_ fun j _ => h.sent j
    rw [haccepted, hworker]
    exact h.sent i
  · rw [hsending, hlogic]
    exact h.callback
  · rw [hsending, hlogic, hsession]
    refine forall_update_at (P := fun j (q : SendPipeline.Sys Thread) => q.pc .worker ≠ .idle →
      s.sending = true ∧ ∃ msg, s.logic.sys.worker.calling = some msg ∧ msg.session = j) ?_
      fun j _ => h.worker j
    rw [hworker]
    exact h.worker i
  · rw [hsession]
    exact forall_update (P := fun q : SendPipeline.Sys Thread => (q.pc .io).sends = []) hio
      fun j _ => h.io j

/-- A thread that does not send a message does not build a node. -/
theorem not_fails {s : SendPipeline.Sys Thread} {i : Thread} (hsends : (s.pc i).sends = []) :
    s.fails .coroutineServer i = false := by
  rw [SendPipeline.Sys.fails]
  cases hpc : s.pc i with
  | push m =>
      rw [hpc] at hsends
      cases hsends
  | _ => rfl

/-- `HandleWrite` goes on with what is queued; it sends no message of its own. -/
theorem run_io {s t : SendPipeline.Sys Thread} (hsends : (s.pc .io).sends = [])
    (hstep : s.run .coroutineServer .io = some t) :
    t.accepted = s.accepted ∧ (t.pc .io).sends = [] := by
  have hfails := not_fails hsends
  rcases SendPipeline.run_cases hstep hfails with ⟨-, hacc, hsame⟩ | ⟨-, hacc, hnil⟩ | ⟨m, hpc, -⟩
  · exact ⟨hacc, hsame.trans hsends⟩
  · exact ⟨hacc, hnil⟩
  · rw [hpc] at hsends
    cases hsends

section Io
omit [DecidableEq ι]
variable {p : Io ι} {j : ι}

theorem Io.idle_ne_post : (.idle : Io ι) ≠ .post := by
  intro h
  cases h

theorem Io.idle_ne_write : (.idle : Io ι) ≠ .write i := by
  intro h
  cases h

theorem Io.ne_post (h : p = .idle ∨ p = .write i) : p ≠ .post := by
  rcases h with rfl | rfl <;> intro h <;> cases h

theorem Io.ne_write (h : p = .idle ∨ p = .write i) (hj : j ≠ i) : p ≠ .write j := by
  rcases h with rfl | rfl
  · exact Io.idle_ne_write
  · exact fun heq => hj (Io.write.inj heq).symm

end Io

variable [DecidableEq κ]

omit [DecidableEq ι] in
/-- The idle thread of an `io_context` starts a post. -/
theorem Tasks.post (h : Tasks home s) {k : κ} (hio : s.io k = .idle ∨ s.io k = .post) {p : Io ι}
    (hp : p = .idle ∨ p = .post) (hposts : p = .post ↔ t.logic.sys.posts k ≠ .idle)
    (hother : ∀ j, j ≠ k → t.logic.sys.posts j = s.logic.sys.posts j)
    (hsession : t.session = s.session) (hio' : t.io = Function.update s.io k p) :
    Tasks home t := by
  have hwrites : ∀ i, p ≠ .write i := by
    rintro i rfl
    rcases hp with hp | hp <;> cases hp
  refine ⟨fun j => ?_, fun j i => ?_⟩ <;> rw [hio']
  · by_cases hj : j = k
    · rw [hj, Function.update_self]
      exact hposts
    · rw [Function.update_of_ne hj, hother j hj]
      exact h.posts j
  · rw [hsession]
    by_cases hj : j = k
    · rw [hj, Function.update_self]
      refine iff_of_false (hwrites i) fun hwriting => ?_
      rw [(h.writes k i).mpr hwriting] at hio
      rcases hio with hio | hio <;> cases hio
    · rw [Function.update_of_ne hj]
      exact h.writes j i

/-- The thread of an `io_context` starts a write handler, or goes on in it. -/
theorem Tasks.handle (h : Tasks home s) {p : SendPipeline.Sys Thread} {task : Io ι}
    (hio : s.io (home i) = .idle ∨ s.io (home i) = .write i)
    (htask : task = .idle ∧ p.pc .io = .idle ∨ task = .write i ∧ p.pc .io ≠ .idle)
    (hlogic : t.logic = s.logic) (hsession : t.session = Function.update s.session i p)
    (hio' : t.io = Function.update s.io (home i) task) : Tasks home t := by
  refine ⟨fun k => ?_, fun k j => ?_⟩ <;> rw [hio']
  · rw [hlogic]
    by_cases hk : k = home i
    · rw [hk, Function.update_self, ← h.posts]
      exact iff_of_false (Io.ne_post (htask.imp And.left And.left)) (Io.ne_post hio)
    · rw [Function.update_of_ne hk]
      exact h.posts k
  · rw [hsession]
    by_cases hk : k = home i
    · rw [hk, Function.update_self]
      by_cases hj : j = i
      · rw [hj, Function.update_self]
        rcases htask with ⟨rfl, hidle⟩ | ⟨rfl, hbusy⟩
        · exact iff_of_false Io.idle_ne_write fun hne => hne.2 hidle
        · exact iff_of_true rfl ⟨rfl, hbusy⟩
      · rw [Function.update_of_ne hj, ← h.writes]
        exact iff_of_false (Io.ne_write (htask.imp And.left And.left) hj) (Io.ne_write hio hj)
    · rw [Function.update_of_ne hk, h.writes]
      by_cases hj : j = i
      · rw [hj]
        exact iff_of_false (fun hhome => hk hhome.1.symm) fun hhome => hk hhome.1.symm
      · rw [Function.update_of_ne hj]

omit [DecidableEq ι] [DecidableEq κ] in
/-- What the threads of the `io_context`s do does not depend on the rest. -/
theorem Tasks.congr (h : Tasks home s) (hio : t.io = s.io)
    (hposts : t.logic.sys.posts = s.logic.sys.posts)
    (hsession : ∀ i, (t.session i).pc .io = (s.session i).pc .io) : Tasks home t := by
  refine ⟨fun k => ?_, fun k i => ?_⟩
  · rw [hio, hposts]
    exact h.posts k
  · rw [hio, hsession]
    exact h.writes k i

/-- A message is read, and its post begins. -/
theorem Inv.read (h : Inv json home s) {msg_id : Int} {body rest : List Byte}
    (hio : s.io (home i) = .idle) (hstart : Start (s.unread i) = .message msg_id body rest)
    {logic : Watched κ (LogicNode ι)}
    (hcall : (logicSystem ι κ).step s.logic (.call (home i) ⟨i, msg_id, body⟩) = some logic) :
    Inv json home { s with
      unread := Function.update s.unread i rest
      read := Function.update s.read i (s.read i ++ [⟨msg_id, body⟩])
      logic
      io := Function.update s.io (home i) .post } := by
  have hdispatch := LogicStop.dispatchInv_step hcall h.dispatch
  obtain ⟨hidle, rfl⟩ := LogicStop.call_spec hcall
  have hnode : ofSession i [(⟨i, msg_id, body⟩ : LogicNode ι)] = [⟨msg_id, body⟩] :=
    ofSession_self ⟨i, msg_id, body⟩
  refine ⟨hdispatch, ?_, h.pipes, ⟨fun j more => ?_, ?_, fun j => ?_⟩, ?_, ?_⟩
  · exact h.running.goto (Or.inr (Or.inr ⟨rfl, by rw [hidle]; intro hl; cases hl⟩))
  · dsimp only
    by_cases hj : j = i
    · have hstream := h.reads.streams i more
      rw [recvNodes_message (Start_append hstart more)] at hstream
      rw [hj, Function.update_self, Function.update_self, List.append_assoc]
      exact hstream
    · rw [Function.update_of_ne hj, Function.update_of_ne hj]
      exact h.reads.streams j more
  · refine forall_update_at
      (P := fun k (p : LogicStop.Post (LogicNode ι)) => ∀ n ∈ p.carries, home n.session = k) ?_
      fun k _ => h.reads.homes k
    intro n hn
    rw [List.mem_singleton.mp hn]
  -- What is read is in the hand of the thread that is going to post it.
  · have hposted := h.reads.posted j
    show ofSession j (s.logic.posted ++
      (Function.update s.logic.sys.posts (home i) (.lock ⟨i, msg_id, body⟩) (home j)).carries) = _
    dsimp only
    by_cases hj : j = i
    · rw [hj] at hposted ⊢
      rw [hidle] at hposted
      rw [Function.update_self, Function.update_self, ofSession_append, ← hposted]
      exact congrArg₂ _ (congrArg _ (List.append_nil _).symm) hnode
    · rw [Function.update_of_ne hj, ← hposted, ofSession_append, ofSession_append]
      by_cases hk : home j = home i
      · rw [hk, Function.update_self, hidle]
        refine congrArg _ (ofSession_of_ne fun n hn => ?_)
        rw [List.mem_singleton.mp hn]
        exact fun heq => hj heq.symm
      · rw [Function.update_of_ne hk]
  · exact h.replies.apart ⟨rfl, rfl, Or.inl rfl, List.prefix_rfl⟩ rfl rfl rfl
  · apply h.tasks.post (Or.inl hio) (Or.inr rfl)
    · refine iff_of_true rfl ?_
      show Function.update s.logic.sys.posts (home i) (.lock ⟨i, msg_id, body⟩) (home i) ≠ _
      rw [Function.update_self]
      intro hne
      cases hne
    · exact fun k hk => Function.update_of_ne hk ..
    · rfl
    · rfl

/-- A step of a post. -/
theorem Inv.post (h : Inv json home s) {k : κ} (hio : s.io k = .post)
    {logic : Watched κ (LogicNode ι)}
    (hstep : (logicSystem ι κ).step s.logic (.post k) = some logic) {task : Io ι}
    (htask : task = .idle ∧ logic.sys.posts k = .idle ∨
      task = .post ∧ logic.sys.posts k ≠ .idle) :
    Inv json home { s with logic, io := Function.update s.io k task } := by
  have hdispatch := LogicStop.dispatchInv_step hstep h.dispatch
  obtain ⟨hapart, hother, hcarries, hsubset⟩ := LogicStop.post_spec hstep
  have hrunning : LogicStop.Running .coroutineServer logic.sys := by
    obtain ⟨sys, hsys, rfl⟩ := Option.map_eq_some_iff.mp hstep
    exact h.running.postMsgToQue hsys
  refine ⟨hdispatch, hrunning, h.pipes,
    ⟨h.reads.streams, fun j n hn => ?_, fun j => ?_⟩, h.replies.apart hapart rfl rfl rfl, ?_⟩
  · by_cases hj : j = k
    · rw [hj] at hn ⊢
      exact h.reads.homes k n (hsubset hn)
    · exact h.reads.homes j n (hother j hj ▸ hn)
  · have hposted := h.reads.posted j
    by_cases hj : home j = k
    · rw [hj] at hposted ⊢
      rw [← hposted]
      exact congrArg _ hcarries
    · -- what is pushed is for a session with another home
      have hnone : ∀ nodes : List (LogicNode ι), nodes ⊆ (s.logic.sys.posts k).carries →
          ofSession j nodes = [] := by
        intro nodes hsub
        refine ofSession_of_ne fun n hn heq => hj ?_
        rw [← heq]
        exact h.reads.homes k n (hsub hn)
      have hpushed := congrArg (ofSession j) hcarries
      rw [ofSession_append, ofSession_append, hnone _ hsubset, hnone _ (List.Subset.refl _),
        List.append_nil, List.append_nil] at hpushed
      dsimp only
      rw [ofSession_append, hpushed, hother _ hj, ← ofSession_append]
      exact hposted
  · apply h.tasks.post (Or.inr hio) (htask.imp And.left And.left)
    · rcases htask with ⟨rfl, hidle⟩ | ⟨rfl, hbusy⟩
      · exact iff_of_false Io.idle_ne_post fun hne => hne hidle
      · exact iff_of_true rfl hbusy
    · exact hother
    · rfl
    · rfl

/-- A step of a write handler. -/
theorem Inv.write (h : Inv json home s) {k : κ} (hio : s.io k = .write i)
    {p : SendPipeline.Sys Thread} (hstep : (s.session i).run .coroutineServer .io = some p)
    {task : Io ι} (htask : task = .idle ∧ p.pc .io = .idle ∨ task = .write i ∧ p.pc .io ≠ .idle) :
    Inv json home { s with
      session := Function.update s.session i p
      io := Function.update s.io k task } := by
  obtain ⟨haccepted, hsends⟩ := run_io (h.replies.io i) hstep
  obtain ⟨turn, hpipe⟩ := h.pipes i
  obtain ⟨rfl, -⟩ := (h.tasks.writes k i).mp hio
  refine ⟨h.dispatch, h.running, ?_, ⟨h.reads.streams, h.reads.homes, h.reads.posted⟩, ?_, ?_⟩
  · exact forall_update (P := fun q => ∃ turn, SendPipeline.Inv .coroutineServer q turn)
      (SendPipeline.inv_run hpipe hstep) fun j _ => h.pipes j
  · exact h.replies.handle haccepted (SendPipeline.run_pc_of_ne hstep Thread.noConfusion) hsends
      rfl rfl rfl rfl
  · exact h.tasks.handle (Or.inr hio) htask rfl rfl rfl

/-- A write completes. -/
theorem Inv.complete (h : Inv json home s) (hio : s.io (home i) = .idle) {n : Nat} {error : Bool}
    {p : SendPipeline.Sys Thread}
    (hstep : (s.session i).step .coroutineServer (.complete .io n error) = some p) :
    Inv json home { s with
      session := Function.update s.session i p
      io := Function.update s.io (home i) (if error then .idle else .write i) } := by
  obtain ⟨-, haccepted, hpc, -⟩ := SendPipeline.complete_spec hstep
  obtain ⟨turn, hpipe⟩ := h.pipes i
  have hself : p.pc .io = if error then .idle else .handle_lock := by
    rw [hpc, Function.update_self]
  have hworker : p.pc .worker = (s.session i).pc .worker := by
    rw [hpc, Function.update_of_ne Thread.noConfusion]
  refine ⟨h.dispatch, h.running, ?_, ⟨h.reads.streams, h.reads.homes, h.reads.posted⟩, ?_, ?_⟩
  · exact forall_update (P := fun q => ∃ turn, SendPipeline.Inv .coroutineServer q turn)
      (SendPipeline.inv_step (a := .complete Thread.io n error) hpipe hstep) fun j _ => h.pipes j
  · refine h.replies.handle haccepted hworker ?_ rfl rfl rfl rfl
    rw [hself]
    cases error <;> rfl
  · refine h.tasks.handle (Or.inl hio) ?_ rfl rfl rfl
    rw [hself]
    cases error
    · exact Or.inr ⟨rfl, SendPipeline.Pc.noConfusion⟩
    · exact Or.inl ⟨rfl, rfl⟩

omit [DecidableEq κ] in
/-- The worker goes on outside `Send`. -/
theorem Replies.deal (h : Replies json s) (hidle : ∀ i, (s.session i).pc .worker = .idle)
    (hcalled : t.called = s.called) (hsending : t.sending = false)
    (hsession : t.session = s.session) (hrefused : t.refused = s.refused) : Replies json t := by
  constructor
  · rw [hcalled, hsession, hrefused]
    exact h.sent
  · rw [hsending]
    exact fun hfalse => absurd hfalse Bool.false_ne_true
  · rw [hsession]
    exact fun i hi => absurd (hidle i) hi
  · rw [hsession]
    exact h.io

/-- The worker goes on in `DealMsg`. The message whose callback returns is counted as called back
already, since its callback has called `Send`. -/
theorem Inv.deal (h : Inv json home s) (hidle : ∀ i, (s.session i).pc .worker = .idle)
    (hcallback : s.sending = false ↔ s.logic.sys.worker.calling = none)
    {logic : Watched κ (LogicNode ι)}
    (hstep : (logicSystem ι κ).step s.logic .worker = some logic) :
    Inv json home { s with logic, sending := false } := by
  have hdispatch := LogicStop.dispatchInv_step hstep h.dispatch
  obtain ⟨hdeal, hposted⟩ := LogicStop.worker_spec hstep
  obtain ⟨hposts, -, hcalls⟩ := LogicStop.dealMsg_cases hdeal
  have hcalled : Sys.called { s with logic, sending := false } = s.called := by
    show logic.sys.calls ++ [] = s.called
    rw [Sys.called, List.append_nil]
    rcases hcalls with ⟨hnone, hsame⟩ | ⟨msg, hmsg, hnew, -⟩
    · rw [hcallback.mpr hnone, if_neg Bool.false_ne_true, List.append_nil]
      exact hsame
    · have hsending : s.sending = true := by
        by_contra hnot
        rw [Bool.not_eq_true, hcallback, hmsg] at hnot
        cases hnot
      rw [hsending, if_pos rfl, hmsg]
      exact hnew
  refine ⟨hdispatch, h.running.dealMsg h.dispatch.worker hdeal, h.pipes,
    ⟨h.reads.streams, ?_, ?_⟩, h.replies.deal hidle hcalled rfl rfl rfl,
    h.tasks.congr rfl hposts fun _ => rfl⟩
  · dsimp only
    rw [hposts]
    exact h.reads.homes
  · dsimp only
    rw [hposts, hposted]
    exact h.reads.posted

omit [DecidableEq κ] in
/-- The worker is in `Send` of a session only inside a callback. -/
theorem Inv.idle_of_not_sending (h : Inv json home s) (hsending : s.sending = false) (i : ι) :
    (s.session i).pc .worker = .idle := by
  by_contra hne
  rw [(h.replies.worker i hne).1] at hsending
  cases hsending

omit [DecidableEq κ] in
/-- And only in that of the session whose message it is. -/
theorem Inv.idle_of_ne (h : Inv json home s) {msg : LogicNode ι}
    (hcalling : s.logic.sys.worker.calling = some msg) (hi : i ≠ msg.session) :
    (s.session i).pc .worker = .idle := by
  by_contra hne
  obtain ⟨-, msg', hcalling', rfl⟩ := h.replies.worker i hne
  rw [hcalling, Option.some.injEq] at hcalling'
  exact hi (hcalling' ▸ rfl)

omit [DecidableEq κ] in
/-- The callback calls `Send`: one more answer is asked for in this session, and none in the others.
-/
theorem Replies.reply (h : Replies json s) {msg : LogicNode ι}
    (hcalling : s.logic.sys.worker.calling = some msg) (hreg : msg.recvNode.registered = true)
    (hsending : s.sending = false) {m : Message}
    (hm : HelloWorldCallBack json msg.recvNode.data = some m)
    (hidle : ∀ i, (s.session i).pc .worker = .idle) {p : SendPipeline.Sys Thread}
    (hp : p = (s.session msg.session).goto .worker (.send_lock m)) (hlogic : t.logic = s.logic)
    (hsending' : t.sending = true) (hrefused : t.refused = s.refused)
    (hsession : t.session = Function.update s.session msg.session p) : Replies json t := by
  have hworker : p.pc .worker = .send_lock m := by
    rw [hp, SendPipeline.goto_self]
  have haccepted : p.accepted = (s.session msg.session).accepted := by
    rw [hp]
    rfl
  have hcalled : t.called = s.called ++ [msg] := by
    rw [Sys.called, Sys.called, hlogic, hsending, hsending', hcalling, if_pos rfl,
      if_neg Bool.false_ne_true, List.append_nil]
    rfl
  have hself : answers json (ofSession msg.session [msg]) = [m] := by
    rw [ofSession_self, answers, List.filter_cons_of_pos hreg, List.filter_nil]
    exact List.filterMap_cons_some hm
  have hother : ∀ j, j ≠ msg.session → answers json (ofSession j [msg]) = [] := by
    intro j hj
    rw [ofSession_of_ne]
    · rfl
    · intro n hn
      rw [List.mem_singleton.mp hn]
      exact fun heq => hj heq.symm
  constructor
  · rw [hcalled, hsession, hrefused]
    refine forall_update_at (P := fun j (q : SendPipeline.Sys Thread) =>
      Accounted (s.refused j) q.accepted (q.pc .worker).sends
        (answers json (ofSession j (s.called ++ [msg])))) ?_ fun j hj => ?_
    · have hsent := h.sent msg.session
      rw [hidle] at hsent
      rw [ofSession_append, answers_append, hself, hworker, haccepted]
      exact hsent.ask m
    · rw [ofSession_append, answers_append, hother j hj, List.append_nil]
      exact h.sent j
  · rw [hlogic, hcalling]
    exact fun _ => Option.some_ne_none _
  · rw [hlogic, hsending', hsession]
    refine forall_update_at (P := fun j (q : SendPipeline.Sys Thread) => q.pc .worker ≠ .idle →
      true = true ∧ ∃ msg, s.logic.sys.worker.calling = some msg ∧ msg.session = j)
      (fun _ => ⟨rfl, msg, hcalling, rfl⟩) fun j _ hbusy => absurd (hidle j) hbusy
  · rw [hsession]
    refine forall_update (P := fun q : SendPipeline.Sys Thread => (q.pc .io).sends = []) ?_
      fun j _ => h.io j
    rw [hp, SendPipeline.goto_of_ne Thread.noConfusion]
    exact h.io _

omit [DecidableEq κ] in
/-- `Send` keeps its message, refuses it or accepts it. -/
theorem Replies.run_sends (h : Replies json s) {p : SendPipeline.Sys Thread}
    (hstep : (s.session i).run .coroutineServer .worker = some p)
    (hfails : (s.session i).fails .coroutineServer .worker = false) :
    Accounted (s.refuse i) p.accepted (p.pc .worker).sends
      (answers json (ofSession i s.called)) := by
  have hsent := h.sent i
  rcases SendPipeline.run_cases hstep hfails with
    ⟨hroom, hacc, hsame⟩ | ⟨hfull, hacc, hnil⟩ | ⟨m, hpc, hacc, hnil⟩
  · rw [Sys.refuse, hroom, if_neg Bool.false_ne_true, hacc, hsame]
    exact hsent
  · obtain ⟨m, hm⟩ := SendPipeline.sends_of_refuses hfull
    rw [hm] at hsent
    rw [Sys.refuse, hfull, if_pos rfl, hacc, hnil]
    exact hsent.refuse
  · have hroom : (s.session i).refuses .worker = false := by
      rw [SendPipeline.Sys.refuses, hpc]
    rw [hpc] at hsent
    rw [Sys.refuse, hroom, if_neg Bool.false_ne_true, hacc, hnil]
    exact hsent.accept

omit [DecidableEq κ] in
/-- A step in `Send` accounts for the answer, and leaves the other sessions alone. -/
theorem Replies.send (h : Replies json s) {msg : LogicNode ι}
    (hcalling : s.logic.sys.worker.calling = some msg) (hsending : s.sending = true)
    {p : SendPipeline.Sys Thread} (hio : p.pc .io = (s.session msg.session).pc .io)
    (hsends : Accounted (s.refuse msg.session) p.accepted (p.pc .worker).sends
      (answers json (ofSession msg.session s.called)))
    (hlogic : t.logic = s.logic) (hsending' : t.sending = s.sending)
    (hrefused : t.refused = Function.update s.refused msg.session (s.refuse msg.session))
    (hsession : t.session = Function.update s.session msg.session p) : Replies json t := by
  have hcalled : t.called = s.called := by
    rw [Sys.called, Sys.called, hlogic, hsending']
  constructor
  · intro j
    rw [hcalled, hsession, hrefused]
    by_cases hj : j = msg.session
    · rw [hj, Function.update_self, Function.update_self]
      exact hsends
    · rw [Function.update_of_ne hj, Function.update_of_ne hj]
      exact h.sent j
  · rw [hlogic, hsending']
    exact h.callback
  · rw [hlogic, hsending', hsession]
    exact forall_update_at (P := fun j (q : SendPipeline.Sys Thread) => q.pc .worker ≠ .idle →
      s.sending = true ∧ ∃ msg, s.logic.sys.worker.calling = some msg ∧ msg.session = j)
      (fun _ => ⟨hsending, msg, hcalling, rfl⟩) fun j _ => h.worker j
  · rw [hsession]
    refine forall_update (P := fun q : SendPipeline.Sys Thread => (q.pc .io).sends = []) ?_
      fun j _ => h.io j
    rw [hio]
    exact h.io _

omit [DecidableEq κ] in
/-- The worker does something in a session. -/
theorem Inv.session (h : Inv json home s) {p : SendPipeline.Sys Thread}
    (hpipe : ∃ turn, SendPipeline.Inv .coroutineServer p turn)
    (hio : p.pc .io = (s.session i).pc .io) (hlogic : t.logic = s.logic)
    (hsession : t.session = Function.update s.session i p) (hreads : Reads home t)
    (htasks : t.io = s.io) (hreplies : Replies json t) : Inv json home t := by
  refine ⟨hlogic ▸ h.dispatch, hlogic ▸ h.running, ?_, hreads, hreplies,
    h.tasks.congr htasks (by rw [hlogic]) ?_⟩ <;> rw [hsession]
  · exact forall_update (P := fun q => ∃ turn, SendPipeline.Inv .coroutineServer q turn)
      hpipe fun j _ => h.pipes j
  · exact forall_update_at (P := fun j (q : SendPipeline.Sys Thread) =>
      q.pc .io = (s.session j).pc .io) hio fun j _ => rfl

omit [DecidableEq κ] in
/-- The callback calls `Send`. -/
theorem Inv.reply (h : Inv json home s) {msg : LogicNode ι}
    (hcalling : s.logic.sys.worker.calling = some msg) (hsending : s.sending = false) {m : Message}
    (hm : HelloWorldCallBack json msg.recvNode.data = some m) {p : SendPipeline.Sys Thread}
    (hstep : (s.session msg.session).step .coroutineServer (.call .worker m) = some p) :
    Inv json home { s with
      session := Function.update s.session msg.session p
      sending := true } := by
  obtain ⟨turn, hpipe⟩ := h.pipes msg.session
  have hpipe' := SendPipeline.inv_step (a := .call Thread.worker m) hpipe hstep
  obtain ⟨-, hp⟩ := SendPipeline.call_spec hstep
  have hio : p.pc .io = (s.session msg.session).pc .io := by
    rw [hp, SendPipeline.goto_of_ne Thread.noConfusion]
  have hreplies : Replies json { s with
      session := Function.update s.session msg.session p
      sending := true } :=
    h.replies.reply hcalling (h.dispatch.registered_of_calling hcalling) hsending hm
      (h.idle_of_not_sending hsending) hp rfl rfl rfl rfl
  exact h.session hpipe' hio rfl rfl ⟨h.reads.streams, h.reads.homes, h.reads.posted⟩ rfl hreplies

omit [DecidableEq κ] in
/-- The worker goes on in `Send`. -/
theorem Inv.send (h : Inv json home s) {msg : LogicNode ι}
    (hcalling : s.logic.sys.worker.calling = some msg) (hsending : s.sending = true)
    (hfails : (s.session msg.session).fails .coroutineServer .worker = false)
    {p : SendPipeline.Sys Thread}
    (hstep : (s.session msg.session).run .coroutineServer .worker = some p) :
    Inv json home { s with
      session := Function.update s.session msg.session p
      refused := Function.update s.refused msg.session (s.refuse msg.session) } := by
  obtain ⟨turn, hpipe⟩ := h.pipes msg.session
  have hio : p.pc .io = (s.session msg.session).pc .io :=
    SendPipeline.run_pc_of_ne hstep Thread.noConfusion
  have hreplies : Replies json { s with
      session := Function.update s.session msg.session p
      refused := Function.update s.refused msg.session (s.refuse msg.session) } :=
    h.replies.send hcalling hsending hio (h.replies.run_sends hstep hfails) rfl rfl rfl rfl
  exact h.session (SendPipeline.inv_run hpipe hstep) hio rfl rfl
    ⟨h.reads.streams, h.reads.homes, h.reads.posted⟩ rfl hreplies

/-- A spurious wakeup lets the worker look at the queue again. -/
theorem Inv.spurious (h : Inv json home s) {logic : Watched κ (LogicNode ι)}
    (hstep : (logicSystem ι κ).step s.logic .spurious = some logic) :
    Inv json home { s with logic } := by
  have hdispatch := LogicStop.dispatchInv_step hstep h.dispatch
  obtain ⟨hapart, hposts, hposted⟩ := LogicStop.spurious_spec hstep
  have hrunning : LogicStop.Running .coroutineServer logic.sys := by
    obtain ⟨sys, hsys, rfl⟩ := Option.map_eq_some_iff.mp hstep
    exact h.running.spurious hsys
  refine ⟨hdispatch, hrunning, h.pipes, ⟨h.reads.streams, ?_, ?_⟩,
    h.replies.apart hapart rfl rfl rfl, h.tasks.congr rfl hposts fun _ => rfl⟩
  · dsimp only
    rw [hposts]
    exact h.reads.homes
  · dsimp only
    rw [hposts, hposted]
    exact h.reads.posted

/-- The coroutine goes on to its next read, to the post of a message, or ends. -/
theorem Inv.start (h : Inv json home s) (hstep : s.start home i = some t) : Inv json home t := by
  unfold Sys.start at hstep
  split at hstep
  next hio hended =>
    cases hstart : Start (s.unread i) with
    | message msg_id body rest =>
        rw [hstart] at hstep
        obtain ⟨logic, hcall, rfl⟩ := Option.map_eq_some_iff.mp hstep
        exact h.read hio hstart hcall
    | error =>
        rw [hstart] at hstep
        cases hstep
    | invalid | closed | thrown =>
        rw [hstart] at hstep
        obtain rfl := Option.some.inj hstep
        exact h.endSession _
    | undefined =>
        rw [hstart] at hstep
        obtain rfl := Option.some.inj hstep
        exact h.die
  next => cases hstep

/-- The thread of an `io_context` goes on in a post or in a write handler. -/
theorem Inv.runIo (h : Inv json home s) {k : κ} (hstep : s.runIo k = some t) :
    Inv json home t := by
  unfold Sys.runIo at hstep
  split at hstep
  next => cases hstep
  next hio =>
    obtain ⟨logic, hpost, rfl⟩ := Option.map_eq_some_iff.mp hstep
    refine h.post hio hpost ?_
    split
    next hidle => exact Or.inl ⟨rfl, hidle⟩
    next hbusy => exact Or.inr ⟨rfl, hbusy⟩
  next i hio =>
    obtain ⟨p, hrun, rfl⟩ := Option.map_eq_some_iff.mp hstep
    refine h.write hio hrun ?_
    split
    next hidle => exact Or.inl ⟨rfl, hidle⟩
    next hbusy => exact Or.inr ⟨rfl, hbusy⟩

/-- The worker goes on: in `DealMsg`, at the beginning of a callback, in `Send`, or behind it. -/
theorem Inv.runWorker (h : Inv json home s) (hstep : s.runWorker json = some t) :
    Inv json home t := by
  unfold Sys.runWorker at hstep
  split at hstep
  -- No callback is running.
  next hcalling =>
    obtain ⟨logic, hdeal, rfl⟩ := Option.map_eq_some_iff.mp hstep
    have hsending : s.sending = false := by
      by_contra hnot
      exact h.replies.callback ((Bool.not_eq_false _).mp hnot) hcalling
    have hdone := h.deal (h.idle_of_not_sending hsending) (iff_of_true hsending hcalling) hdeal
    rwa [← hsending] at hdone
  next msg hcalling =>
    split at hstep
    next hsending =>
      split at hstep
      -- `Send` has returned, and the callback returns.
      next hidle =>
        obtain ⟨logic, hdeal, rfl⟩ := Option.map_eq_some_iff.mp hstep
        refine h.deal (fun j => ?_) ?_ hdeal
        · by_cases hj : j = msg.session
          · rw [hj]
            exact hidle
          · exact h.idle_of_ne hcalling hj
        · rw [hsending, hcalling]
          exact iff_of_false Bool.noConfusion (Option.some_ne_none _)
      next =>
        unfold Sys.send at hstep
        split at hstep
        next =>
          obtain rfl := Option.some.inj hstep
          exact h.die
        next hfails =>
          obtain ⟨p, hrun, rfl⟩ := Option.map_eq_some_iff.mp hstep
          exact h.send hcalling hsending (Bool.not_eq_true _ ▸ hfails) hrun
    next hsending =>
      split at hstep
      -- The body is not what the callback expects, and it throws.
      next =>
        obtain rfl := Option.some.inj hstep
        exact h.die
      next m hm =>
        obtain ⟨p, hcall, rfl⟩ := Option.map_eq_some_iff.mp hstep
        exact h.reply hcalling (Bool.not_eq_true _ ▸ hsending) hm hcall

/-- One case for each kind of step. -/
theorem Inv.step (h : Inv json home s) (a : Action ι κ)
    (hstep : (server json home).step s a = some t) : Inv json home t := by
  change (if s.gone then none else s.step json home a) = some t at hstep
  split at hstep
  next => cases hstep
  next =>
    cases a with
    | deliver i bytes =>
        obtain rfl := Option.some.inj hstep
        exact h.deliver i bytes
    | hangup i =>
        dsimp only [Sys.step] at hstep
        split at hstep
        next =>
          obtain rfl := Option.some.inj hstep
          exact h.endSession _
        next => cases hstep
    | read i => exact h.start hstep
    | complete i n error =>
        dsimp only [Sys.step] at hstep
        split at hstep
        next hio =>
          obtain ⟨p, hcomplete, rfl⟩ := Option.map_eq_some_iff.mp hstep
          exact h.complete hio hcomplete
        next => cases hstep
    | io k => exact h.runIo hstep
    | worker => exact h.runWorker hstep
    | spurious =>
        obtain ⟨logic, hspurious, rfl⟩ := Option.map_eq_some_iff.mp hstep
        exact h.spurious hspurious

/-- Nothing has arrived. -/
theorem Inv.init : Inv json home (server json home).init where
  dispatch := LogicStop.dispatchInv_init
  running := ⟨rfl, trivial, (by intro _ h; cases h)⟩
  pipes _ := ⟨.nobody, SendPipeline.inv_init .coroutineServer⟩
  reads := ⟨fun _ _ => rfl, (by intro _ _ h; cases h), fun _ => rfl⟩
  replies := ⟨fun _ => ⟨rfl, rfl, by intro _ h; cases h⟩, (by intro h; cases h),
    fun _ h => absurd rfl h, fun _ => rfl⟩
  tasks := by
    refine ⟨fun k => iff_of_false Io.idle_ne_post fun h => h rfl,
      fun k i => iff_of_false Io.idle_ne_write fun h => h.2 rfl⟩

/-- **A client is answered what it asks for**: in every run, whatever arrives on whichever
connections, the nodes that are written to a client are those of the answers to the messages of its
own stream, in their order, each once, without those that were refused because the queue was
full. -/
theorem answered_in_order (json : List Byte → Option (List Byte × Int)) (home : ι → κ)
    (as : List (Action ι κ)) :
    (server json home).Along (fun s => ∀ i, Served json s i) (server json home).init as :=
  (server json home).along_of_inv (I := Inv json home) (fun _ h => h.served)
    (fun _ a _ h hstep => h.step a hstep) .init

/-! ## Nothing gets stuck -/

/-- The step is the server's, or a write that is outstanding. -/
def Action.Internal : Action ι κ → Prop
  | .read _ | .complete _ _ _ | .io _ | .worker => True
  | .deliver _ _ | .hangup _ | .spurious => False

/-- Nobody can go on. A state in which an exception has ended the program is not one of these: the
step that threw is still there. -/
def Quiet (json : List Byte → Option (List Byte × Int)) (home : ι → κ) (s : Sys ι κ) : Prop :=
  ∀ a : Action ι κ, a.Internal → s.step json home a = none

/-- No thread is in a session. -/
theorem Inv.sessions_idle (h : Inv json home s) (hquiet : Quiet json home s) (i : ι)
    (th : Thread) : (s.session i).pc th = .idle := by
  obtain ⟨turn, hpipe⟩ := h.pipes i
  have hstuck : ∀ th, (s.session i).run .coroutineServer th = none ∧
      (s.session i).fails .coroutineServer th = false := by
    intro th
    by_cases hidle : (s.session i).pc th = .idle
    · rw [SendPipeline.Sys.run, SendPipeline.Sys.fails, hidle]
      exact ⟨rfl, rfl⟩
    · cases th with
      | io =>
          have hio := (h.tasks.writes (home i) i).mpr ⟨rfl, hidle⟩
          have hstep : s.runIo (home i) = none := hquiet (.io (home i)) trivial
          rw [Sys.runIo, hio] at hstep
          exact ⟨Option.map_eq_none_iff.mp hstep, not_fails (h.replies.io i)⟩
      | worker =>
          obtain ⟨hsending, msg, hcalling, rfl⟩ := h.replies.worker i hidle
          have hstep : s.runWorker json = none := hquiet .worker trivial
          simp only [Sys.runWorker, hcalling, hsending, if_true, Sys.send] at hstep
          split at hstep
          next => cases hstep
          next hfails => exact ⟨Option.map_eq_none_iff.mp hstep, Bool.not_eq_true _ ▸ hfails⟩
  exact hpipe.idle_of_stuck (fun th => (hstuck th).1) (fun th => (hstuck th).2) th

/-- The worker is blocked, and all that was posted has been dealt with. -/
theorem Inv.logic_idle (h : Inv json home s) (hquiet : Quiet json home s) :
    s.logic.sys.worker = .blocked ∧ (∀ k, s.logic.sys.posts k = .idle) ∧
      s.logic.sys.msg_que = [] := by
  have hstep : s.runWorker json = none := hquiet .worker trivial
  have hworker : s.logic.sys.dealMsg (fun n => n.recvNode.registered) = none := by
    rw [Sys.runWorker] at hstep
    split at hstep
    next => exact Option.map_eq_none_iff.mp (Option.map_eq_none_iff.mp hstep)
    next msg hcalling =>
      rw [h.sessions_idle hquiet msg.session .worker] at hstep
      split at hstep
      next => exact Option.map_eq_none_iff.mp (Option.map_eq_none_iff.mp hstep)
      next =>
        split at hstep
        next => cases hstep
        next m hm =>
          rw [SendPipeline.Sys.step, h.sessions_idle hquiet msg.session .worker] at hstep
          cases hstep
  refine LogicStop.blocked_of_stuck h.dispatch h.running hworker fun k => ?_
  by_cases hidle : s.logic.sys.posts k = .idle
  · rw [LogicStop.Sys.postMsgToQue, hidle]
  · have hio := (h.tasks.posts k).mpr hidle
    have hpost : s.runIo k = none := hquiet (.io k) trivial
    rw [Sys.runIo, hio] at hpost
    exact Option.map_eq_none_iff.mp (Option.map_eq_none_iff.mp hpost)

/-- Then no `io_context` thread is in a handler either. -/
theorem Inv.io_idle (h : Inv json home s) (hquiet : Quiet json home s) (k : κ) :
    s.io k = .idle := by
  cases hio : s.io k with
  | idle => rfl
  | post => exact absurd ((h.logic_idle hquiet).2.1 k) ((h.tasks.posts k).mp hio)
  | write i =>
      exact absurd (h.sessions_idle hquiet i .io) ((h.tasks.writes k i).mp hio).2

/-- All that has arrived has been read. -/
theorem Inv.read_all (h : Inv json home s) (hquiet : Quiet json home s)
    (hended : s.ended i = false) :
    s.read i = recvNodes (s.received i) := by
  have hstep : s.start home i = none := hquiet (.read i) trivial
  rw [Sys.start, h.io_idle hquiet, hended] at hstep
  have hstream := h.reads.streams i []
  rw [List.append_nil, List.append_nil] at hstream
  cases hstart : Start (s.unread i) with
  | error =>
      rw [recvNodes_error hstart, List.append_nil] at hstream
      exact hstream.symm
  | message msg_id body rest =>
      rw [hstart] at hstep
      have hcall := Option.map_eq_none_iff.mp hstep
      rw [logicSystem, LogicStop.call_of_idle ((h.logic_idle hquiet).2.1 _)] at hcall
      cases hcall
  | invalid | closed | thrown | undefined =>
      rw [hstart] at hstep
      cases hstep

/-- All that was accepted has been written. -/
theorem Inv.written_all (h : Inv json home s) (hquiet : Quiet json home s)
    (hfailed : (s.session i).failed = []) :
    (s.session i).started.map Built.node =
      (s.session i).accepted.map (Message.node .coroutineServer) := by
  obtain ⟨turn, hpipe⟩ := h.pipes i
  refine hpipe.started_all (h.sessions_idle hquiet i) ?_ hfailed
  cases hwrites : (s.session i).writes with
  | nil => rfl
  | cons n rest =>
      have hstep : s.step json home (.complete i 0 false) = none :=
        hquiet (.complete i 0 false) trivial
      rw [Sys.step, h.io_idle hquiet] at hstep
      have hcomplete := Option.map_eq_none_iff.mp hstep
      rw [SendPipeline.Sys.step, h.sessions_idle hquiet i .io, hwrites] at hcomplete
      cases hcomplete

/-- All that was read has been called back. -/
theorem Inv.called_all (h : Inv json home s) (hquiet : Quiet json home s) :
    s.called = s.logic.posted.filter fun n => n.recvNode.registered := by
  obtain ⟨hblocked, -, hque⟩ := h.logic_idle hquiet
  have hhistory := h.dispatch.history
  rw [hblocked, hque] at hhistory
  rw [← hhistory, Sys.called, hblocked]
  exact congrArg _ (ite_self _)

/-- **Nothing gets stuck** while all connections are up. When neither the worker nor the thread of
an `io_context` can go on, and no write is outstanding, all the messages that have arrived have been
read, and each client has been written all its answers but for those that were refused. Each thread
that has something to do can do it: a mutex is held over a few steps only, the worker sleeps on an
empty queue only, and a queue of answers that is not empty has a write under way. -/
theorem answered {as : List (Action ι κ)}
    (hrun : (server json home).exec (server json home).init as = some s)
    (hended : ∀ i, s.ended i = false) (hfailed : ∀ i, (s.session i).failed = [])
    (hquiet : Quiet json home s) (i : ι) :
    s.read i = recvNodes (s.received i) ∧
      (s.session i).started.map Built.node =
        (without (s.refused i) (answers json (recvNodes (s.received i)))).map
          (Message.node .coroutineServer) := by
  have h : Inv json home s :=
    (server json home).exec_inv (fun _ a _ hs ht => hs.step a ht) .init hrun
  have hread := h.read_all hquiet (hended i)
  refine ⟨hread, ?_⟩
  have hsent := (h.replies.sent i).sent
  have hposted := h.reads.posted i
  rw [(h.logic_idle hquiet).2.1, hread] at hposted
  rw [h.sessions_idle hquiet i .worker, h.called_all hquiet, ofSession_registered,
    answers_registered] at hsent
  rw [h.written_all hquiet (hfailed i), ← hposted]
  refine congrArg _ ((List.append_nil _).symm.trans (hsent.trans ?_))
  rw [ofSession_append]
  exact congrArg _ (congrArg _ (List.append_nil _).symm)

/-- What `toStyledString` makes of the answer to an empty object. -/
def emptyObject : List Byte :=
  [123, 10, 9, 34, 100, 97, 116, 97, 34, 32, 58, 32, 34, 115, 101, 114, 118, 101, 114, 32, 104,
    97, 115, 32, 114, 101, 99, 101, 105, 118, 101, 100, 32, 109, 115, 103, 44, 32, 109, 115, 103,
    32, 100, 97, 116, 97, 32, 105, 115, 34, 44, 10, 9, 34, 105, 100, 34, 32, 58, 32, 110, 117,
    108, 108, 10, 125, 10]

/-- An empty object has neither an id nor data. -/
def emptyJson (msg_data : List Byte) : Option (List Byte × Int) :=
  if msg_data = [123, 125] then some (emptyObject, 0) else none

/-- A message with an empty object arrives, is answered, and the answer is written. -/
def exchange : List (Action Unit Unit) :=
  [.deliver () [3, 233, 0, 2, 123, 125], .read (), .io (), .io (), .io (), .io ()] ++
    List.replicate 18 .worker ++ [.complete () 0 false, .io (), .io (), .io ()]

def exchanged : Sys Unit Unit :=
  ((server emptyJson fun _ => ()).exec (server emptyJson fun _ => ()).init exchange).get rfl

theorem exchanged_run : (server emptyJson fun _ => ()).exec (server emptyJson fun _ => ()).init
    exchange = some exchanged :=
  (Option.some_get _).symm

theorem exchanged_quiet : Quiet emptyJson (fun _ => ()) exchanged := by
  intro a ha
  cases a with
  | read i | io k | worker => rfl
  | complete i n error => rfl
  | deliver i bytes | hangup i | spurious => exact ha.elim

theorem answered_exchanged :
    exchanged.read () = recvNodes (exchanged.received ()) ∧
      (exchanged.session ()).started.map Built.node =
        (without (exchanged.refused ()) (answers emptyJson (recvNodes (exchanged.received ())))).map
          (Message.node .coroutineServer) :=
  answered exchanged_run (fun _ => rfl) (fun _ => rfl) exchanged_quiet ()

end BoostNet.CoroutineServer
