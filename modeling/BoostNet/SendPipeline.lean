/-
The writes of a session: `Send` and `HandleWrite` of `CSession`, in Network/asyncServer,
Network/asyncServer_ThreadPool and Network/coroutineServer.

`_send_que` holds the nodes that are to be written. Whoever makes it nonempty starts an
`async_write` of its front, and `HandleWrite` pops the front and starts the next one if
there is one. No flag says that a write is in flight; that is read off the queue. asyncServer
calls `async_write` with `_send_lock` held, coroutineServer releases it first.

Any number of threads call `Send` and run the handlers. Every outstanding write may
complete at any time, on any thread that is idle, with or without an error; that there is
one at most is proved, not assumed. Nobody writes after an error, but `Send` goes on
queueing.

The turn to write goes round: nobody has it when the queue is empty, then a thread that is
going to start a write, the outstanding write, the handler. `Turn` is that.

* `send_pipeline`: the writes and the queue, after any run.
-/
import BoostNet.Lts
import BoostNet.SendRead
import BoostNet.Threads

set_option autoImplicit false

namespace BoostNet.SendPipeline

open SendRead (SendNode Built MAX_SENDQUE toInt)

inductive Server where
  | asyncServer
  | coroutineServer
  deriving DecidableEq

/-- The arguments of `Send`. `src` is the memory at `msg` that may be read. -/
structure Message where
  src : List Byte
  length : Int
  msg_id : Int

/-- The `SendNode` of a message. -/
def Message.node (server : Server) (m : Message) : Built :=
  match server with
  | .asyncServer => SendRead.asyncServer.new m.src (toShort m.length) m.msg_id
  | .coroutineServer => SendRead.coroutineServer.new m.src (toShort m.length) m.msg_id

/-- Where a thread is. -/
inductive Pc where
  | idle
  /-- `Send`. -/
  | send_lock (m : Message)
  | send_que_size (m : Message)
  | push (m : Message)
  /-- `HandleWrite`, without an error. -/
  | handle_lock
  | pop
  /-- Both. -/
  | front
  | unlock_write (n : SendNode)
  | async_write (n : SendNode)
  | unlock

/-- `accepted` is what `Send` has pushed, `started` what `async_write` has been called
with, `completed` what has been popped and `failed` what was not written. -/
structure Sys (ι : Type*) where
  send_que : List SendNode := []
  send_lock : Option ι := none
  /-- The outstanding writes. -/
  writes : List SendNode := []
  pc : ι → Pc := fun _ => .idle
  accepted : List Message := []
  started : List SendNode := []
  completed : List SendNode := []
  failed : List SendNode := []

variable {ι : Type*} [DecidableEq ι]

def Sys.goto (s : Sys ι) (i : ι) (p : Pc) : Sys ι := { s with pc := Function.update s.pc i p }

/-- A step of `Send` or of `HandleWrite`. `none` if the thread has to wait, or if what the
code does is not defined. -/
def Sys.run (server : Server) (s : Sys ι) (i : ι) : Option (Sys ι) :=
  match s.pc i with
  | .idle => none
  | .send_lock m =>
      match s.send_lock with
      | none => some { s.goto i (.send_que_size m) with send_lock := some i }
      | some _ => none
  | .send_que_size m =>
      some (s.goto i (if toInt s.send_que.length > MAX_SENDQUE then .unlock else .push m))
  | .push m =>
      match m.node server with
      | .node n =>
          some { s.goto i (if s.send_que.isEmpty then .front else .unlock) with
            send_que := s.send_que ++ [n]
            accepted := s.accepted ++ [m] }
      | .thrown => some (s.goto i .unlock)
      | .undefined => none
  | .handle_lock =>
      match s.send_lock with
      | none => some { s.goto i .pop with send_lock := some i }
      | some _ => none
  | .pop =>
      match s.send_que with
      | [] => none
      | n :: rest =>
          some { s.goto i (if rest.isEmpty then .unlock else .front) with
            send_que := rest
            completed := s.completed ++ [n] }
  | .front =>
      match s.send_que with
      | [] => none
      | n :: _ =>
          some (s.goto i
            (match server with
            | .asyncServer => .async_write n
            | .coroutineServer => .unlock_write n))
  | .unlock_write n => some { s.goto i (.async_write n) with send_lock := none }
  | .async_write n =>
      some { s.goto i
          (match server with
          | .asyncServer => .unlock
          | .coroutineServer => .idle) with
        writes := s.writes ++ [n]
        started := s.started ++ [n] }
  | .unlock => some { s.goto i .idle with send_lock := none }

inductive Action (ι : Type*) where
  /-- A call of `Send`. -/
  | call (i : ι) (m : Message)
  | run (i : ι)
  /-- The `k`-th outstanding write completes, and `HandleWrite` starts. -/
  | complete (i : ι) (k : Nat) (error : Bool)

def Sys.step (server : Server) (s : Sys ι) : Action ι → Option (Sys ι)
  | .call i m =>
      match s.pc i with
      | .idle => some (s.goto i (.send_lock m))
      | _ => none
  | .run i => s.run server i
  | .complete i k error =>
      match s.pc i, s.writes[k]? with
      | .idle, some n =>
          if error then some { s with writes := s.writes.eraseIdx k, failed := s.failed ++ [n] }
          else some { s.goto i .handle_lock with writes := s.writes.eraseIdx k }
      | _, _ => none

def system (server : Server) (ι : Type*) [DecidableEq ι] : Lts (Sys ι) (Action ι) where
  init := {}
  step := Sys.step server

/-- What should hold of the writes. -/
structure Piped (server : Server) (s : Sys ι) : Prop where
  one_write : s.writes.length ≤ 1
  one_error : s.failed.length ≤ 1
  /-- The nodes of the accepted messages, in their order, are those that were popped and
  those that are queued, and a first part of them those that were given to
  `async_write`. -/
  in_order : ∃ nodes, s.accepted.map (Message.node server) = nodes.map Built.node ∧
    s.completed ++ s.send_que = nodes ∧ s.started <+: nodes
  /-- What was started has been popped, but perhaps the front. -/
  each_once : s.started = s.completed ∨
    ∃ n, s.send_que.head? = some n ∧ s.started = s.completed ++ [n]
  /-- A write is outstanding, or somebody is going to start one. -/
  no_stall : s.send_que ≠ [] → s.failed = [] → s.writes ≠ [] ∨ ∃ i, s.pc i ≠ .idle
  /-- What is being written is at the front. -/
  front : ∀ n ∈ s.writes, s.send_que.head? = some n
  bounded : s.send_que.length ≤ MAX_SENDQUE + 1
  /-- No `front` and no `pop` of an empty queue. -/
  defined : ∀ i, s.pc i = .front ∨ s.pc i = .pop → s.send_que ≠ []

/-! ## The turn to write -/

inductive Turn (ι : Type*) where
  | nobody
  | thread (i : ι)
  | write
  | failed

omit [DecidableEq ι] in
def Turn.holder : Turn ι → Option ι
  | .thread i => some i
  | .nobody | .write | .failed => none

/-- The thread has the turn to write. -/
def Pc.turn : Pc → Bool
  | .handle_lock | .pop | .front | .unlock_write _ | .async_write _ => true
  | .idle | .send_lock _ | .send_que_size _ | .push _ | .unlock => false

/-- The front has been written, and is still to be popped. -/
def Pc.written : Pc → Bool
  | .handle_lock | .pop => true
  | .idle | .send_lock _ | .send_que_size _ | .push _ | .front | .unlock_write _
  | .async_write _ | .unlock => false

/-- What of the queue has been started. -/
def Turn.begun (pc : ι → Pc) (send_que : List SendNode) : Turn ι → List SendNode
  | .nobody => []
  | .thread i => if (pc i).written then send_que.take 1 else []
  | .write | .failed => send_que.take 1

def Turn.writes (send_que : List SendNode) : Turn ι → List SendNode
  | .write => send_que.take 1
  | .nobody | .thread _ | .failed => []

def Turn.fails (send_que : List SendNode) : Turn ι → List SendNode
  | .failed => send_que.take 1
  | .nobody | .thread _ | .write => []

/-- The thread holds `_send_lock`. -/
def Pc.inside (server : Server) : Pc → Bool
  | .idle | .send_lock _ | .handle_lock => false
  | .send_que_size _ | .push _ | .pop | .front | .unlock_write _ | .unlock => true
  | .async_write _ => server == .asyncServer

/-- What a thread knows of the queue. -/
def Pc.Knows (server : Server) (send_que : List SendNode) : Pc → Prop
  | .push _ => send_que.length ≤ MAX_SENDQUE
  | .unlock_write n => server = .coroutineServer ∧ send_que.head? = some n
  | .async_write n => send_que.head? = some n
  | .idle | .send_lock _ | .send_que_size _ | .handle_lock | .pop | .front | .unlock => True

structure Inv (server : Server) (s : Sys ι) (turn : Turn ι) : Prop where
  lock : Guarded (Pc.inside server) s.send_lock s.pc
  holder : Guarded Pc.turn turn.holder s.pc
  que : s.send_que = [] ↔ turn = .nobody
  writes : s.writes = turn.writes s.send_que
  failed : s.failed = turn.fails s.send_que
  started : s.started = s.completed ++ turn.begun s.pc s.send_que
  nodes : s.accepted.map (Message.node server) = (s.completed ++ s.send_que).map Built.node
  bounded : s.send_que.length ≤ MAX_SENDQUE + 1
  knows : ∀ i, (s.pc i).Knows server s.send_que

variable {server : Server} {s t : Sys ι} {turn : Turn ι} {i : ι} {p : Pc}

omit [DecidableEq ι] in
/-- It is nothing, or the front. -/
theorem Turn.begun_eq (turn : Turn ι) (pc : ι → Pc) (send_que : List SendNode) :
    turn.begun pc send_que = [] ∨ turn.begun pc send_que = send_que.take 1 := by
  cases turn with
  | nobody => exact Or.inl rfl
  | thread i =>
      rw [Turn.begun]
      split
      · exact Or.inr rfl
      · exact Or.inl rfl
  | write | failed => exact Or.inr rfl

omit [DecidableEq ι] in
theorem Inv.piped (h : Inv server s turn) : Piped server s where
  one_write := by
    rw [h.writes]
    cases turn <;> simp only [Turn.writes, List.length_nil, List.length_take] <;> omega
  one_error := by
    rw [h.failed]
    cases turn <;> simp only [Turn.fails, List.length_nil, List.length_take] <;> omega
  in_order := by
    refine ⟨_, h.nodes, rfl, ?_⟩
    rw [h.started, List.prefix_append_right_inj]
    rcases turn.begun_eq s.pc s.send_que with hbegun | hbegun <;> rw [hbegun]
    · exact List.nil_prefix
    · exact List.take_prefix 1 _
  each_once := by
    rw [h.started]
    rcases turn.begun_eq s.pc s.send_que with hbegun | hbegun <;> rw [hbegun]
    · exact Or.inl (List.append_nil _)
    · cases s.send_que with
      | nil => exact Or.inl (List.append_nil _)
      | cons n rest => exact Or.inr ⟨n, rfl, rfl⟩
  no_stall := by
    intro hque hfailed
    obtain ⟨n, rest, hcons⟩ := List.exists_cons_of_ne_nil hque
    cases hturn : turn with
    | nobody => exact absurd (h.que.mpr hturn) hque
    | thread i =>
        refine Or.inr ⟨i, fun hidle => ?_⟩
        have hi : (s.pc i).turn = true := (h.holder i).mpr (by rw [hturn]; rfl)
        rw [hidle] at hi
        cases hi
    | write =>
        left
        rw [h.writes, hturn, hcons]
        exact List.cons_ne_nil _ _
    | failed =>
        rw [h.failed, hturn, hcons] at hfailed
        cases hfailed
  front := by
    intro n hn
    rw [h.writes] at hn
    cases turn with
    | nobody | thread _ | failed => cases hn
    | write =>
        cases hque : s.send_que with
        | nil =>
            rw [hque] at hn
            cases hn
        | cons m rest =>
            rw [hque] at hn
            rw [List.mem_singleton.mp hn]
            rfl
  bounded := h.bounded
  defined := by
    intro i hi hque
    have hturn : (s.pc i).turn = true := by
      rcases hi with hi | hi <;> rw [hi] <;> rfl
    have hholder := (h.holder i).mp hturn
    rw [h.que.mp hque] at hholder
    cases hholder

/-! ## The steps -/

theorem Turn.begun_update {send_que : List SendNode} {pc : ι → Pc}
    (hp : p.written = (pc i).written) :
    turn.begun (Function.update pc i p) send_que = turn.begun pc send_que := by
  cases turn with
  | nobody | write | failed => rfl
  | thread j =>
      by_cases hj : j = i
      · rw [hj, Turn.begun, Turn.begun, Function.update_self, hp]
      · rw [Turn.begun, Turn.begun, Function.update_of_ne hj]

theorem Turn.begun_thread {send_que : List SendNode} {pc : ι → Pc} :
    (Turn.thread i).begun (Function.update pc i p) send_que =
      if p.written then send_que.take 1 else [] := by
  rw [Turn.begun, Function.update_self]

/-- A step that leaves the queue and the writes alone. -/
theorem Inv.goto (h : Inv server s turn) {send_lock : Option ι}
    (hlock : Guarded (Pc.inside server) send_lock (Function.update s.pc i p))
    (hturn : p.turn = (s.pc i).turn) (hwritten : p.written = (s.pc i).written)
    (hknows : p.Knows server s.send_que) :
    Inv server { s.goto i p with send_lock := send_lock } turn where
  lock := hlock
  holder := h.holder.move hturn
  que := h.que
  writes := h.writes
  failed := h.failed
  started := by
    show s.started = s.completed ++ turn.begun (Function.update s.pc i p) s.send_que
    rw [Turn.begun_update hwritten]
    exact h.started
  nodes := h.nodes
  bounded := h.bounded
  knows := forall_update hknows fun j _ => h.knows j

omit [DecidableEq ι] in
/-- A thread whose step it is has the turn. -/
theorem Inv.turn_eq (h : Inv server s turn) (hi : (s.pc i).turn = true) : turn = .thread i := by
  have hholder := (h.holder i).mp hi
  cases turn with
  | thread j =>
      cases hholder
      rfl
  | nobody | write | failed => cases hholder

/-- Outside `_send_lock` a thread knows the front only, and only if it has the turn. -/
theorem Pc.Knows.of_outside {send_que send_que' : List SendNode} (h : p.Knows server send_que)
    (hinside : p.inside server = false)
    (hhead : p.turn = true → send_que'.head? = send_que.head?) : p.Knows server send_que' := by
  cases p with
  | push m | unlock_write n => cases hinside
  | async_write n => exact (hhead rfl).trans h
  | _ => trivial

omit [DecidableEq ι] in
/-- A node that is pushed is the next one of the accepted messages. -/
theorem Inv.push_nodes (h : Inv server s turn) {m : Message} {n : SendNode}
    (hm : m.node server = .node n) :
    (s.accepted ++ [m]).map (Message.node server) =
      (s.completed ++ (s.send_que ++ [n])).map Built.node := by
  rw [← List.append_assoc, List.map_append, List.map_append, h.nodes, List.map_singleton, hm,
    List.map_singleton]

/-- `Send` makes the queue nonempty, and has the turn. -/
theorem Inv.push_first (h : Inv server s turn) {m : Message} {n : SendNode}
    (hpc : s.pc i = .push m) (hm : m.node server = .node n) (hque : s.send_que = []) :
    Inv server { s.goto i .front with
      send_que := s.send_que ++ [n]
      accepted := s.accepted ++ [m] } (.thread i) := by
  have hturn : turn = .nobody := h.que.mp hque
  subst hturn
  have hinside : (s.pc i).inside server = true := by
    rw [hpc]
    rfl
  refine ⟨h.lock.move hinside.symm, h.holder.lock rfl, ?_, h.writes, h.failed, ?_, ?_, ?_, ?_⟩
  · rw [hque]
    exact iff_of_false (List.cons_ne_nil _ _) (by rintro ⟨⟩)
  · show s.started = s.completed ++
      (Turn.thread i).begun (Function.update s.pc i .front) (s.send_que ++ [n])
    rw [Turn.begun_thread, h.started]
    rfl
  · exact h.push_nodes hm
  · show (s.send_que ++ [n]).length ≤ _
    rw [hque]
    exact Nat.succ_le_succ (Nat.zero_le _)
  · refine forall_update trivial fun j hj => ?_
    refine (h.knows j).of_outside (h.lock.outside hinside hj) fun hjturn => ?_
    have hholder := (h.holder j).mp hjturn
    cases hholder

/-- `Send` adds to a queue that is not empty. -/
theorem Inv.push_more (h : Inv server s turn) {m : Message} {n : SendNode}
    (hpc : s.pc i = .push m) (hm : m.node server = .node n) (hque : s.send_que ≠ []) :
    Inv server { s.goto i .unlock with
      send_que := s.send_que ++ [n]
      accepted := s.accepted ++ [m] } turn := by
  obtain ⟨first, rest, hcons⟩ := List.exists_cons_of_ne_nil hque
  have htake : (s.send_que ++ [n]).take 1 = s.send_que.take 1 := by
    rw [hcons]
    rfl
  have hinside : (s.pc i).inside server = true := by
    rw [hpc]
    rfl
  have hknows := h.knows i
  rw [hpc] at hknows
  refine ⟨h.lock.move hinside.symm, h.holder.move (by rw [hpc]; rfl), ?_, ?_, ?_, ?_, ?_, ?_, ?_⟩
  · refine iff_of_false ?_ fun hturn => hque (h.que.mpr hturn)
    exact List.append_ne_nil_of_right_ne_nil _ (List.cons_ne_nil _ _)
  · refine h.writes.trans ?_
    cases turn <;> first | rfl | exact htake.symm
  · refine h.failed.trans ?_
    cases turn <;> first | rfl | exact htake.symm
  · show s.started = s.completed ++ turn.begun (Function.update s.pc i .unlock) (s.send_que ++ [n])
    rw [Turn.begun_update (by rw [hpc]; rfl), h.started]
    cases turn <;> simp only [Turn.begun, htake]
  · exact h.push_nodes hm
  · show (s.send_que ++ [n]).length ≤ _
    rw [List.length_append]
    exact Nat.succ_le_succ hknows
  · refine forall_update trivial fun j hj => ?_
    refine (h.knows j).of_outside (h.lock.outside hinside hj) fun _ => ?_
    rw [hcons]
    rfl

/-- `HandleWrite` pops what has been written, and goes on if there is more. -/
theorem Inv.pop (h : Inv server s turn) {n : SendNode} {rest : List SendNode}
    (hpc : s.pc i = .pop) (hque : s.send_que = n :: rest) :
    Inv server { s.goto i (if rest.isEmpty then .unlock else .front) with
      send_que := rest
      completed := s.completed ++ [n] } (if rest.isEmpty then .nobody else .thread i) := by
  have hturn : turn = .thread i := h.turn_eq (by rw [hpc]; rfl)
  subst hturn
  have hinside : (s.pc i).inside server = true := by
    rw [hpc]
    rfl
  have hstarted : s.started = s.completed ++ [n] := by
    rw [h.started, Turn.begun, hpc, hque]
    rfl
  have hknows : ∀ j, j ≠ i → (s.pc j).Knows server rest := by
    intro j hj
    refine (h.knows j).of_outside (h.lock.outside hinside hj) fun hjturn => ?_
    exact absurd (h.holder.eq hjturn (by rw [hpc]; rfl)) hj
  have hnodes : s.accepted.map (Message.node server) =
      (s.completed ++ [n] ++ rest).map Built.node := by
    rw [h.nodes, hque, List.append_assoc]
    rfl
  have hbounded : rest.length ≤ MAX_SENDQUE + 1 := by
    have hle := h.bounded
    rw [hque, List.length_cons] at hle
    omega
  cases rest with
  | nil =>
      refine ⟨h.lock.move hinside.symm, h.holder.unlock (by rw [hpc]; rfl) rfl, ?_, h.writes,
        h.failed, ?_, hnodes, hbounded, forall_update trivial hknows⟩
      · exact iff_of_true rfl rfl
      · exact hstarted.trans (List.append_nil _).symm
  | cons m rest =>
      refine ⟨h.lock.move hinside.symm, h.holder.move (by rw [hpc]; rfl), ?_, h.writes,
        h.failed, ?_, hnodes, hbounded, forall_update trivial hknows⟩
      · exact iff_of_false (List.cons_ne_nil _ _) (by rintro ⟨⟩)
      · show s.started = s.completed ++ [n] ++
          (Turn.thread i).begun (Function.update s.pc i .front) (m :: rest)
        rw [Turn.begun_thread, hstarted]
        exact (List.append_nil _).symm

/-- The write of the front is started. -/
theorem Inv.async_write (h : Inv server s turn) {n : SendNode} (hpc : s.pc i = .async_write n)
    (hinside : p.inside server = (s.pc i).inside server) (hp : p = .unlock ∨ p = .idle) :
    Inv server { s.goto i p with writes := s.writes ++ [n], started := s.started ++ [n] }
      .write := by
  have hturn : turn = .thread i := h.turn_eq (by rw [hpc]; rfl)
  subst hturn
  have hknows := h.knows i
  rw [hpc] at hknows
  obtain ⟨rest, hque⟩ := List.head?_eq_some_iff.mp hknows
  have hwritten : p.turn = false ∧ p.Knows server s.send_que := by
    rcases hp with rfl | rfl <;> exact ⟨rfl, trivial⟩
  refine ⟨h.lock.move hinside, h.holder.unlock (by rw [hpc]; rfl) hwritten.1, ?_, ?_, h.failed,
    ?_, h.nodes, h.bounded, forall_update hwritten.2 fun j _ => h.knows j⟩
  · exact iff_of_false (fun hnil => List.cons_ne_nil _ _ (hque.symm.trans hnil)) (by rintro ⟨⟩)
  · show s.writes ++ [n] = s.send_que.take 1
    rw [h.writes, hque]
    rfl
  · show s.started ++ [n] = s.completed ++ s.send_que.take 1
    rw [h.started, Turn.begun, hpc, hque]
    exact congrArg (· ++ [n]) (List.append_nil _)

omit [DecidableEq ι] in
/-- What is outstanding is the write of the front. -/
theorem Inv.outstanding (h : Inv server s turn) {k : Nat} {n : SendNode}
    (hn : s.writes[k]? = some n) :
    turn = .write ∧ (∃ rest, s.send_que = n :: rest) ∧ s.writes.eraseIdx k = [] := by
  have hwrites := h.writes
  cases turn with
  | nobody | thread _ | failed =>
      rw [hwrites] at hn
      cases hn
  | write =>
      cases hque : s.send_que with
      | nil =>
          rw [hwrites, hque] at hn
          cases hn
      | cons m rest =>
          rw [hque] at hwrites
          rw [hwrites] at hn ⊢
          cases k with
          | zero =>
              cases hn
              exact ⟨rfl, ⟨rest, rfl⟩, rfl⟩
          | succ k => cases hn

/-- The write completes, and `HandleWrite` has the turn. -/
theorem Inv.complete (h : Inv server s turn) {k : Nat} {n : SendNode}
    (hn : s.writes[k]? = some n) (hpc : s.pc i = .idle) :
    Inv server { s.goto i .handle_lock with writes := s.writes.eraseIdx k } (.thread i) := by
  obtain ⟨rfl, ⟨rest, hque⟩, herase⟩ := h.outstanding hn
  refine ⟨h.lock.move (by rw [hpc]; rfl), h.holder.lock rfl, ?_, herase, h.failed, ?_, h.nodes,
    h.bounded, forall_update trivial fun j _ => h.knows j⟩
  · exact iff_of_false (fun hnil => List.cons_ne_nil _ _ (hque.symm.trans hnil)) (by rintro ⟨⟩)
  · show s.started = s.completed ++
      (Turn.thread i).begun (Function.update s.pc i .handle_lock) s.send_que
    rw [Turn.begun_thread, h.started]
    rfl

omit [DecidableEq ι] in
/-- The write fails. -/
theorem Inv.fail (h : Inv server s turn) {k : Nat} {n : SendNode} (hn : s.writes[k]? = some n) :
    Inv server { s with writes := s.writes.eraseIdx k, failed := s.failed ++ [n] } .failed := by
  obtain ⟨rfl, ⟨rest, hque⟩, herase⟩ := h.outstanding hn
  refine ⟨h.lock, h.holder, ?_, herase, ?_, h.started, h.nodes, h.bounded, h.knows⟩
  · exact iff_of_false (fun hnil => List.cons_ne_nil _ _ (hque.symm.trans hnil)) (by rintro ⟨⟩)
  · show s.failed ++ [n] = s.send_que.take 1
    rw [h.failed, hque]
    rfl

omit [DecidableEq ι] in
/-- The size of a queue that is not too long is an `int`. -/
theorem toInt_length {send_que : List SendNode} (hle : send_que.length ≤ MAX_SENDQUE + 1) :
    toInt send_que.length = send_que.length := by
  have hmax : MAX_SENDQUE = 1000 := rfl
  exact Int.bmod_eq_of_le (by omega) (by omega)

/-- A step of `Send` or `HandleWrite` keeps the invariant. -/
theorem inv_run (h : Inv server s turn) (hstep : s.run server i = some t) :
    ∃ turn', Inv server t turn' := by
  unfold Sys.run at hstep
  cases hpc : s.pc i with
  | idle => simp only [hpc, reduceCtorEq] at hstep
  | send_lock m =>
      cases hlock : s.send_lock <;>
        simp only [hpc, hlock, reduceCtorEq, Option.some.injEq] at hstep
      subst hstep
      have hguard := h.lock
      rw [hlock] at hguard
      exact ⟨turn, h.goto (hguard.lock rfl) (by rw [hpc]; rfl) (by rw [hpc]; rfl) trivial⟩
  | send_que_size m =>
      -- `send_que_size > MAX_SENDQUE`, compared as `int`s: the bound makes the conversion exact
      simp only [hpc, Option.some.injEq] at hstep
      subst hstep
      split
      · exact ⟨turn, h.goto (h.lock.move (by rw [hpc]; rfl)) (by rw [hpc]; rfl)
          (by rw [hpc]; rfl) trivial⟩
      · next hsize =>
          refine ⟨turn, h.goto (h.lock.move (by rw [hpc]; rfl)) (by rw [hpc]; rfl)
            (by rw [hpc]; rfl) ?_⟩
          show s.send_que.length ≤ MAX_SENDQUE
          rw [toInt_length h.bounded] at hsize
          omega
  | push m =>
      -- only a message that finds the queue empty is written by its own thread
      cases hm : m.node server with
      | thrown =>
          simp only [hpc, hm, Option.some.injEq] at hstep
          subst hstep
          exact ⟨turn, h.goto (h.lock.move (by rw [hpc]; rfl)) (by rw [hpc]; rfl)
            (by rw [hpc]; rfl) trivial⟩
      | undefined => simp only [hpc, hm, reduceCtorEq] at hstep
      | node n =>
          simp only [hpc, hm, Option.some.injEq] at hstep
          subst hstep
          by_cases hque : s.send_que = []
          · rw [if_pos (List.isEmpty_iff.mpr hque)]
            exact ⟨_, h.push_first hpc hm hque⟩
          · rw [if_neg (fun hempty => hque (List.isEmpty_iff.mp hempty))]
            exact ⟨_, h.push_more hpc hm hque⟩
  | handle_lock =>
      cases hlock : s.send_lock <;>
        simp only [hpc, hlock, reduceCtorEq, Option.some.injEq] at hstep
      subst hstep
      have hguard := h.lock
      rw [hlock] at hguard
      exact ⟨turn, h.goto (hguard.lock rfl) (by rw [hpc]; rfl) (by rw [hpc]; rfl) trivial⟩
  | pop =>
      -- the handler takes off what has been written; while there is more it is its turn
      cases hque : s.send_que with
      | nil => simp only [hpc, hque, reduceCtorEq] at hstep
      | cons n rest =>
          simp only [hpc, hque, Option.some.injEq] at hstep
          subst hstep
          exact ⟨_, h.pop hpc hque⟩
  | front =>
      -- the servers differ: `asyncServer` writes under the lock, `coroutineServer` unlocks first
      cases hque : s.send_que with
      | nil => simp only [hpc, hque, reduceCtorEq] at hstep
      | cons n rest =>
          simp only [hpc, hque, Option.some.injEq] at hstep
          subst hstep
          have hhead : s.send_que.head? = some n := by
            rw [hque]
            rfl
          cases server with
          | asyncServer =>
              exact ⟨turn, h.goto (h.lock.move (by rw [hpc]; rfl)) (by rw [hpc]; rfl)
                (by rw [hpc]; rfl) hhead⟩
          | coroutineServer =>
              exact ⟨turn, h.goto (h.lock.move (by rw [hpc]; rfl)) (by rw [hpc]; rfl)
                (by rw [hpc]; rfl) ⟨rfl, hhead⟩⟩
  | unlock_write n =>
      -- between the two the front stays as it is: only the handler of its write will pop it
      have hknows := h.knows i
      rw [hpc] at hknows
      obtain ⟨rfl, hhead⟩ := hknows
      simp only [hpc, Option.some.injEq] at hstep
      subst hstep
      exact ⟨turn, h.goto (h.lock.unlock (by rw [hpc]; rfl) rfl) (by rw [hpc]; rfl)
        (by rw [hpc]; rfl) hhead⟩
  | async_write n =>
      simp only [hpc, Option.some.injEq] at hstep
      subst hstep
      refine ⟨_, h.async_write hpc ?_ ?_⟩
      · rw [hpc]
        cases server <;> rfl
      · cases server
        · exact Or.inl rfl
        · exact Or.inr rfl
  | unlock =>
      simp only [hpc, Option.some.injEq] at hstep
      subst hstep
      exact ⟨turn, h.goto (h.lock.unlock (by rw [hpc]; rfl) rfl) (by rw [hpc]; rfl)
        (by rw [hpc]; rfl) trivial⟩

theorem inv_step {a : Action ι} (h : Inv server s turn)
    (hstep : (system server ι).step s a = some t) : ∃ turn', Inv server t turn' := by
  change Sys.step server s a = some t at hstep
  cases a with
  | call i m =>
      cases hpc : s.pc i <;> simp only [Sys.step, hpc, reduceCtorEq, Option.some.injEq] at hstep
      subst hstep
      exact ⟨turn, h.goto (h.lock.move (by rw [hpc]; rfl)) (by rw [hpc]; rfl)
        (by rw [hpc]; rfl) trivial⟩
  | run i => exact inv_run h hstep
  | complete i k error =>
      unfold Sys.step at hstep
      cases hpc : s.pc i <;> cases hn : s.writes[k]? <;>
        simp only [hn, hpc, reduceCtorEq] at hstep
      split at hstep <;> cases hstep
      · exact ⟨_, h.fail hn⟩
      · exact ⟨_, h.complete hn hpc⟩

omit [DecidableEq ι] in
theorem inv_init (server : Server) : Inv server ({} : Sys ι) .nobody where
  lock i := by simp only [Pc.inside, Bool.false_eq_true, reduceCtorEq]
  holder i := by simp only [Pc.turn, Turn.holder, Bool.false_eq_true, reduceCtorEq]
  que := iff_of_true rfl rfl
  writes := rfl
  failed := rfl
  started := rfl
  nodes := rfl
  bounded := Nat.zero_le _
  knows _ := trivial

/-- **The pipeline.** After any run of `Send` and `HandleWrite` on any threads one write is
outstanding at most, the nodes of the accepted messages are written in their order, each
once, and a queue that is not empty is being written, unless a write has failed. -/
theorem send_pipeline (server : Server) (as : List (Action ι)) :
    (system server ι).Along (Piped server) (system server ι).init as :=
  (system server ι).along_of_inv (I := fun s => ∃ turn, Inv server s turn)
    (fun _ ⟨_, h⟩ => h.piped) (fun _ _ _ ⟨_, h⟩ hstep => inv_step h hstep)
    ⟨.nobody, inv_init server⟩

/-! ## What a step does to the messages -/

/-- The message of a call of `Send` that has not pushed it yet. -/
def Pc.sends : Pc → List Message
  | .send_lock m | .send_que_size m | .push m => [m]
  | .idle | .handle_lock | .pop | .front | .unlock_write _ | .async_write _ | .unlock => []

omit [DecidableEq ι] in
/-- `Send` is going to refuse its message. -/
def Sys.refuses (s : Sys ι) (i : ι) : Bool :=
  match s.pc i with
  | .send_que_size _ => decide (toInt s.send_que.length > MAX_SENDQUE)
  | _ => false

omit [DecidableEq ι] in
/-- The constructor of `SendNode` throws, or what it does is not defined. -/
def Sys.fails (server : Server) (s : Sys ι) (i : ι) : Bool :=
  match s.pc i with
  | .push m =>
      match m.node server with
      | .node _ => false
      | .thrown | .undefined => true
  | _ => false

theorem goto_self : (s.goto i p).pc i = p := Function.update_self ..

theorem goto_of_ne {j : ι} (hj : j ≠ i) : (s.goto i p).pc j = s.pc j := Function.update_of_ne hj ..

theorem run_pc_of_ne (hstep : s.run server i = some t) {j : ι} (hj : j ≠ i) : t.pc j = s.pc j := by
  unfold Sys.run at hstep
  cases hpc : s.pc i <;> simp only [hpc] at hstep
  case idle => cases hstep
  case send_lock | handle_lock =>
    split at hstep <;> cases hstep
    exact goto_of_ne hj
  case push =>
    split at hstep <;> cases hstep <;> exact goto_of_ne hj
  case pop | front =>
    split at hstep <;> cases hstep
    exact goto_of_ne hj
  all_goals
    cases hstep
    exact goto_of_ne hj

/-- What a step does to the message of a call: nothing, or it refuses it, or it accepts it. -/
theorem run_cases (hstep : s.run server i = some t) (hfails : s.fails server i = false) :
    (s.refuses i = false ∧ t.accepted = s.accepted ∧ (t.pc i).sends = (s.pc i).sends) ∨
      (s.refuses i = true ∧ t.accepted = s.accepted ∧ (t.pc i).sends = []) ∨
      ∃ m, s.pc i = .push m ∧ t.accepted = s.accepted ++ [m] ∧ (t.pc i).sends = [] := by
  unfold Sys.run at hstep
  unfold Sys.fails at hfails
  unfold Sys.refuses
  cases hpc : s.pc i <;> simp only [hpc] at hstep hfails
  case idle => cases hstep
  case send_lock m | handle_lock =>
    split at hstep <;> cases hstep
    refine Or.inl ⟨rfl, rfl, ?_⟩
    dsimp only
    rw [goto_self]
    rfl
  case send_que_size m =>
    cases hstep
    rw [goto_self]
    by_cases hfull : toInt s.send_que.length > MAX_SENDQUE
    · rw [if_pos hfull]
      exact Or.inr (Or.inl ⟨decide_eq_true hfull, rfl, rfl⟩)
    · rw [if_neg hfull]
      exact Or.inl ⟨decide_eq_false hfull, rfl, rfl⟩
  case push m =>
    cases hm : m.node server with
    | thrown | undefined =>
        rw [hm] at hfails
        cases hfails
    | node n =>
        simp only [hm] at hstep
        cases hstep
        refine Or.inr (Or.inr ⟨m, rfl, rfl, ?_⟩)
        dsimp only
        rw [goto_self]
        split <;> rfl
  case pop =>
    split at hstep <;> cases hstep
    refine Or.inl ⟨rfl, rfl, ?_⟩
    dsimp only
    rw [goto_self]
    split <;> rfl
  case front =>
    split at hstep <;> cases hstep
    refine Or.inl ⟨rfl, rfl, ?_⟩
    rw [goto_self]
    cases server <;> rfl
  case async_write n =>
    cases hstep
    refine Or.inl ⟨rfl, rfl, ?_⟩
    dsimp only
    rw [goto_self]
    cases server <;> rfl
  case unlock_write | unlock =>
    cases hstep
    refine Or.inl ⟨rfl, rfl, ?_⟩
    dsimp only
    rw [goto_self]
    rfl

omit [DecidableEq ι] in
/-- Only a message is refused. -/
theorem sends_of_refuses (h : s.refuses i = true) : ∃ m, (s.pc i).sends = [m] := by
  unfold Sys.refuses at h
  split at h
  next m hpc => exact ⟨m, by rw [hpc]; rfl⟩
  next => cases h

theorem call_spec {m : Message} (hstep : s.step server (.call i m) = some t) :
    s.pc i = .idle ∧ t = s.goto i (.send_lock m) := by
  cases hpc : s.pc i <;> simp only [Sys.step, hpc, reduceCtorEq, Option.some.injEq] at hstep
  exact ⟨rfl, hstep.symm⟩

theorem complete_spec {k : Nat} {error : Bool}
    (hstep : s.step server (.complete i k error) = some t) :
    s.pc i = .idle ∧ t.accepted = s.accepted ∧
      t.pc = Function.update s.pc i (if error then .idle else .handle_lock) ∧
      t.send_que = s.send_que ∧ t.writes.length + 1 = s.writes.length := by
  unfold Sys.step at hstep
  cases hpc : s.pc i <;> cases hn : s.writes[k]? <;> simp only [hn, hpc, reduceCtorEq] at hstep
  obtain ⟨hlt, -⟩ := List.getElem?_eq_some_iff.mp hn
  have herase := List.length_eraseIdx_add_one hlt
  refine ⟨rfl, ?_⟩
  cases error <;> cases hstep
  · exact ⟨rfl, rfl, rfl, herase⟩
  · exact ⟨rfl, (hpc ▸ Function.update_eq_self i s.pc).symm, rfl, herase⟩

/-- A thread that waits, waits for a thread inside `_send_lock`, and that one goes on. -/
theorem Inv.idle_of_stuck (h : Inv server s turn) (hstuck : ∀ i, s.run server i = none)
    (hfails : ∀ i, s.fails server i = false) (i : ι) : s.pc i = .idle := by
  have houtside : ∀ j, (s.pc j).inside server = false := by
    intro j
    have hj := hstuck j
    have hfine := hfails j
    unfold Sys.run at hj
    unfold Sys.fails at hfine
    cases hpc : s.pc j <;> simp only [hpc] at hj hfine
    case idle | send_lock m | handle_lock => rfl
    case push m =>
      cases hm : m.node server <;> simp only [hm] at hj hfine
      · cases hj
      · cases hfine
      · cases hfine
    case pop | front =>
      have hque := h.piped.defined j (by rw [hpc]; first | exact Or.inl rfl | exact Or.inr rfl)
      obtain ⟨n, rest, hcons⟩ := List.exists_cons_of_ne_nil hque
      rw [hcons] at hj
      cases hj
    all_goals cases hj
  have hfree : s.send_lock = none := by
    cases hlock : s.send_lock with
    | none => rfl
    | some j =>
        have hinside := (h.lock j).mpr hlock
        rw [houtside j] at hinside
        cases hinside
  have hi := hstuck i
  unfold Sys.run at hi
  cases hpc : s.pc i <;> simp only [hpc] at hi
  case idle => rfl
  case send_lock m | handle_lock =>
    rw [hfree] at hi
    cases hi
  case async_write n => cases hi
  all_goals
    have hinside := houtside i
    rw [hpc] at hinside
    cases hinside

omit [DecidableEq ι] in
/-- Where every thread is idle and no write is outstanding, all that was accepted has been
written, unless a write has failed. -/
theorem Inv.started_all (h : Inv server s turn) (hidle : ∀ i, s.pc i = .idle)
    (hwrites : s.writes = []) (hfailed : s.failed = []) :
    s.started.map Built.node = s.accepted.map (Message.node server) := by
  have hque : s.send_que = [] := by
    by_contra hne
    rcases h.piped.no_stall hne hfailed with hwrite | ⟨i, hi⟩
    · exact hwrite hwrites
    · exact hi (hidle i)
  have hturn := h.que.mp hque
  rw [h.started, h.nodes, hturn, hque]
  rfl

end BoostNet.SendPipeline
