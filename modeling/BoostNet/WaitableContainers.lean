/-
The containers under one mutex: `threadsafe_stack`, `threadsafe_stack_waitable`,
`threadsafe_queue` and `threadsafe_queue_ptr` of Concurrent/day14-ThreadSafeContainer,
`threadsafe_queue` of day05-ConditionVariable, `thread_safe_stack` of day19-parallensort and
`messaging::queue` of day08-Actor.

Each is a monitor over a list whose head is the front of the queue, or the top of the stack.
`wait_and_pop` and `top` wait until the container is not empty, `push` notifies one waiter, or
all of them, with the mutex held. A member function that allocates, or copies or moves a `T`,
may throw while it does; it has not changed the container then, and it does not notify.
The copy constructors of the stacks lock the mutex of the stack they copy, and `copy` is a call on
that one. The one of the day05 queue locks its own and reads the other queue without any; it races
with whoever uses that, and is left out.

* `sequential`: each call returns what a queue, or a stack, would have returned at its turn,
  and nothing that has been pushed is lost or popped twice, also where calls throw.
* `in_order`: a queue gives its elements in the order they were pushed.
* `lossless_iff`: wakeups are lost exactly where a wait that has been woken may leave without
  popping. That is a `wait_and_pop` that may throw, and `top`, which does not pop.
-/
import BoostNet.History
import BoostNet.Monitor

set_option autoImplicit false

namespace BoostNet.WaitableContainers

/-- The member functions, those with a `T& value` argument as `_ref`. -/
inductive Op (T : Type*) where
  | push (new_value : T)
  | wait_and_pop
  | wait_and_pop_ref
  | try_pop
  | try_pop_ref
  | pop
  | pop_ref
  | empty
  | top
  /-- The copy constructor, of the container that is copied. -/
  | copy

inductive Result (T : Type*) where
  | pushed
  | value (v : T)
  /-- `nullptr` or `false`: there was nothing to pop. -/
  | nothing
  /-- `throw empty_stack()`. -/
  | empty_stack
  | is_empty (b : Bool)
  | copied (data : List T)
  /-- `bad_alloc`, or what a constructor or an assignment of `T` throws. -/
  | thrown

/-- How a call ends. -/
inductive Ending where
  | returns
  | throws

variable {ι T : Type*}

def Op.waits : Op T → Bool
  | .wait_and_pop | .wait_and_pop_ref | .top => true
  | .push _ | .try_pop | .try_pop_ref | .pop | .pop_ref | .empty | .copy => false

def Op.pops : Op T → Bool
  | .wait_and_pop | .wait_and_pop_ref | .try_pop | .try_pop_ref | .pop | .pop_ref => true
  | .push _ | .empty | .top | .copy => false

/-- What tells the classes apart. -/
structure Container (T : Type*) where
  /-- Where `push` puts an element. -/
  put : T → List T → List T
  put_perm : ∀ v data, (put v data).Perm (v :: data)
  notify : Option (Notification Unit)
  member : Op T → Bool
  /-- The member function may throw with the mutex held. -/
  throws : Op T → Bool
  push_member : ∀ v, member (.push v) = true

/-- A call to a member function. -/
abbrev Container.Call (c : Container T) := { op : Op T // c.member op = true }

/-- What a member function does with the mutex held, after its wait. `front`, `top` and `pop` of
an empty container are undefined. -/
def Container.body (c : Container T) :
    Op T → Ending → List T → Option (Effect (List T) (Result T) Unit)
  | .push new_value, .returns, data => some ⟨c.put new_value data, .pushed, c.notify⟩
  | .wait_and_pop, .returns, v :: data | .wait_and_pop_ref, .returns, v :: data
  | .try_pop, .returns, v :: data | .try_pop_ref, .returns, v :: data
  | .pop, .returns, v :: data | .pop_ref, .returns, v :: data => some ⟨data, .value v, none⟩
  | .wait_and_pop, .returns, [] | .wait_and_pop_ref, .returns, [] | .top, .returns, [] => none
  | .try_pop, _, [] | .try_pop_ref, _, [] => some ⟨[], .nothing, none⟩
  | .pop, _, [] | .pop_ref, _, [] => some ⟨[], .empty_stack, none⟩
  | .empty, .returns, data => some ⟨data, .is_empty data.isEmpty, none⟩
  | .top, .returns, v :: data => some ⟨v :: data, .value v, none⟩
  | .copy, .returns, data => some ⟨data, .copied data, none⟩
  | op, .throws, data => if c.throws op then some ⟨data, .thrown, none⟩ else none

def Container.monitor (c : Container T) :
    Monitor (List T) c.Call Ending (Result T) Unit PEmpty where
  init := []
  waits call := if call.1.waits then some () else none
  predicate _ data := !data.isEmpty
  body call := c.body call.1
  unlocks_first _ := false
  outer e := e.elim
  predicate_outer _ e := e.elim

/-! ## The classes -/

/-- What may throw: an allocation, a copy or a move of a `T`. -/
structure Throwing where
  alloc : Bool
  copy : Bool
  move : Bool

def queue_put (v : T) (data : List T) : List T := data ++ [v]

def stack_put (v : T) (data : List T) : List T := v :: data

/-- The queue puts a value at its back. -/
theorem queue_put_perm (v : T) (data : List T) : (queue_put v data).Perm (v :: data) :=
  List.perm_append_singleton v data

/-- The stack puts it on its top. Both only add it. -/
theorem stack_put_perm (v : T) (data : List T) : (stack_put v data).Perm (v :: data) :=
  List.Perm.refl _

/-- `threadsafe_queue` of day05-ConditionVariable, without its copy constructor, which does not take
the mutex of the queue it copies. -/
def condition_variable_queue (T : Type*) (ex : Throwing) : Container T where
  put := queue_put
  put_perm := queue_put_perm
  notify := some (.one ())
  member
    | .push _ | .wait_and_pop | .wait_and_pop_ref | .try_pop | .try_pop_ref | .empty | .top => true
    | .pop | .pop_ref | .copy => false
  throws
    | .push _ | .wait_and_pop | .try_pop | .top => ex.alloc || ex.copy
    | .wait_and_pop_ref | .try_pop_ref => ex.copy
    | .pop | .pop_ref | .empty | .copy => false
  push_member _ := rfl

/-- `threadsafe_queue` of day14-ThreadSafeContainer. -/
def threadsafe_queue (T : Type*) (ex : Throwing) : Container T where
  put := queue_put
  put_perm := queue_put_perm
  notify := some (.one ())
  member
    | .push _ | .wait_and_pop | .wait_and_pop_ref | .try_pop | .try_pop_ref | .empty => true
    | .pop | .pop_ref | .top | .copy => false
  throws
    | .push _ | .wait_and_pop | .try_pop => ex.alloc || ex.move
    | .wait_and_pop_ref | .try_pop_ref => ex.move
    | .pop | .pop_ref | .empty | .top | .copy => false
  push_member _ := rfl

/-- `threadsafe_queue_ptr`, a queue of `shared_ptr<T>`. `push` makes the `T` before it takes the
mutex. -/
def threadsafe_queue_ptr (T : Type*) (ex : Throwing) : Container T where
  put := queue_put
  put_perm := queue_put_perm
  notify := some (.one ())
  member
    | .push _ | .wait_and_pop | .wait_and_pop_ref | .try_pop | .try_pop_ref | .empty => true
    | .pop | .pop_ref | .top | .copy => false
  throws
    | .push _ => ex.alloc
    | .wait_and_pop_ref | .try_pop_ref => ex.move
    | .wait_and_pop | .try_pop | .pop | .pop_ref | .empty | .top | .copy => false
  push_member _ := rfl

def threadsafe_stack (T : Type*) (ex : Throwing) : Container T where
  put := stack_put
  put_perm := stack_put_perm
  notify := none
  member
    | .push _ | .pop | .pop_ref | .empty | .copy => true
    | .wait_and_pop | .wait_and_pop_ref | .try_pop | .try_pop_ref | .top => false
  throws
    | .push _ | .pop => ex.alloc || ex.move
    | .pop_ref => ex.move
    | .copy => ex.alloc || ex.copy
    | .wait_and_pop | .wait_and_pop_ref | .try_pop | .try_pop_ref | .empty | .top => false
  push_member _ := rfl

/-- `threadsafe_stack_waitable`, and `thread_safe_stack` of day19-parallensort, which is the
same. -/
def threadsafe_stack_waitable (T : Type*) (ex : Throwing) : Container T where
  put := stack_put
  put_perm := stack_put_perm
  notify := some (.one ())
  member
    | .push _ | .wait_and_pop | .wait_and_pop_ref | .try_pop | .try_pop_ref | .empty | .copy => true
    | .pop | .pop_ref | .top => false
  throws
    | .push _ | .wait_and_pop | .try_pop => ex.alloc || ex.move
    | .wait_and_pop_ref | .try_pop_ref => ex.move
    | .copy => ex.alloc || ex.copy
    | .pop | .pop_ref | .empty | .top => false
  push_member _ := rfl

/-- `messaging::queue`, a queue of `shared_ptr<message_base>`. -/
def messaging_queue (T : Type*) (ex : Throwing) : Container T where
  put := queue_put
  put_perm := queue_put_perm
  notify := some (.all ())
  member
    | .push _ | .wait_and_pop => true
    | .wait_and_pop_ref | .try_pop | .try_pop_ref | .pop | .pop_ref | .empty | .top | .copy => false
  throws
    | .push _ => ex.alloc || ex.copy
    | .wait_and_pop | .wait_and_pop_ref | .try_pop | .try_pop_ref | .pop | .pop_ref | .empty | .top
    | .copy => false
  push_member _ := rfl

/-! ## What should hold -/

abbrev Log (ι : Type*) (c : Container T) := List (Monitor.Entry ι c.Call (Result T) PEmpty)

/-- The container after a call. -/
def Container.after (c : Container T) (data : List T) (op : Op T) : Result T → List T
  | .pushed => match op with
    | .push v => c.put v data
    | _ => data
  | .value _ => if op.pops then data.tail else data
  | .nothing | .empty_stack | .is_empty _ | .copied _ | .thrown => data

/-- The container after the calls in the log, one after another. -/
def contents (c : Container T) (log : Log ι c) : List T :=
  log.foldl (fun data e => match e with
    | .call _ op result => c.after data op.1 result
    | .outer e => e.elim) []

/-- The result is what the member function says, where the container holds `data`. -/
def Result.Correct (data : List T) (op : Op T) : Result T → Prop
  | .pushed => ∃ v, op = .push v
  | .value v => (op.pops = true ∨ op = .top) ∧ data.head? = some v
  | .nothing => (op = .try_pop ∨ op = .try_pop_ref) ∧ data = []
  | .empty_stack => (op = .pop ∨ op = .pop_ref) ∧ data = []
  | .is_empty b => op = .empty ∧ b = data.isEmpty
  | .copied copy => op = .copy ∧ copy = data
  | .thrown => True

def Op.given (op : Op T) : Result T → List T
  | .pushed => match op with
    | .push v => [v]
    | _ => []
  | .value _ | .nothing | .empty_stack | .is_empty _ | .copied _ | .thrown => []

def Op.taken (op : Op T) : Result T → List T
  | .value v => if op.pops then [v] else []
  | .pushed | .nothing | .empty_stack | .is_empty _ | .copied _ | .thrown => []

/-- What has been pushed. -/
def pushed {c : Container T} (log : Log ι c) : List T :=
  log.flatMap fun
    | .call _ op result => op.1.given result
    | .outer e => e.elim

/-- What has been popped. -/
def popped {c : Container T} (log : Log ι c) : List T :=
  log.flatMap fun
    | .call _ op result => op.1.taken result
    | .outer e => e.elim

structure Right (c : Container T) (s : Monitor.Sys ι (List T) c.Call (Result T) Unit PEmpty) :
    Prop where
  value : s.value = contents c s.log
  results : ∀ before i op result later, s.log = before ++ .call i op result :: later →
    result.Correct (contents c before) op.1
  /-- What has been pushed has been popped or is there, each element once. -/
  conserved : (pushed s.log).Perm (popped s.log ++ s.value)
  /-- A queue gives its elements in the order they were pushed. -/
  in_order : c.put = queue_put → pushed s.log = popped s.log ++ s.value
  /-- Nobody asks an empty container for its first element. -/
  defined : ∀ i op, s.pc i = .body op → op.1.waits = true → s.value ≠ []

/-! ## One call after another -/

section Sequential

variable {c : Container T} {op : Op T} {x : Ending} {data : List T}
  {r : Effect (List T) (Result T) Unit}

/-- The ways in which a body ends. -/
theorem body_cases (h : c.body op x data = some r) :
    r = ⟨data, .thrown, none⟩ ∧ c.throws op = true ∨
    (∃ v, op = .push v ∧ r = ⟨c.put v data, .pushed, c.notify⟩) ∨
    (∃ v rest, op.pops = true ∧ data = v :: rest ∧ r = ⟨rest, .value v, none⟩) ∨
    (∃ v rest, op = .top ∧ data = v :: rest ∧ r = ⟨data, .value v, none⟩) ∨
    op.waits = false ∧ r.value = data ∧ r.notify = none ∧
      (r.result = .nothing ∧ (op = .try_pop ∨ op = .try_pop_ref) ∧ data = [] ∨
       r.result = .empty_stack ∧ (op = .pop ∨ op = .pop_ref) ∧ data = [] ∨
       r.result = .is_empty data.isEmpty ∧ op = .empty ∨
       r.result = .copied data ∧ op = .copy) := by
  cases x with
  | returns =>
      right
      cases op with
      | push v => exact Or.inl ⟨v, rfl, (Option.some.inj h).symm⟩
      | empty | copy =>
          obtain rfl := Option.some.inj h
          simp [Op.waits]
      | wait_and_pop | wait_and_pop_ref | top =>
          cases data with
          | nil => cases h
          | cons v rest =>
              obtain rfl := Option.some.inj h
              simp [Op.pops]
      | try_pop | try_pop_ref | pop | pop_ref =>
          cases data with
          | nil =>
              obtain rfl := Option.some.inj h
              simp [Op.waits]
          | cons v rest =>
              obtain rfl := Option.some.inj h
              simp [Op.pops]
  -- A body that throws leaves the container as it was, unless it returns before it can throw.
  | throws =>
      cases op with
      | push v | wait_and_pop | wait_and_pop_ref | empty | top | copy =>
          obtain ⟨hthrows, hr⟩ := Option.ite_none_right_eq_some.mp h
          exact Or.inl ⟨(Option.some.inj hr).symm, hthrows⟩
      | try_pop | try_pop_ref | pop | pop_ref =>
          cases data with
          | nil =>
              obtain rfl := Option.some.inj h
              simp [Op.waits]
          | cons v rest =>
              obtain ⟨hthrows, hr⟩ := Option.ite_none_right_eq_some.mp h
              exact Or.inl ⟨(Option.some.inj hr).symm, hthrows⟩

/-- The result is right for the container before the call. -/
theorem body_correct (h : c.body op x data = some r) : r.result.Correct data op := by
  obtain ⟨rfl, -⟩ | ⟨v, rfl, rfl⟩ | ⟨v, rest, hpops, rfl, rfl⟩ | ⟨v, rest, rfl, rfl, rfl⟩ |
    ⟨-, -, -, hresult⟩ := body_cases h
  · trivial
  · exact ⟨v, rfl⟩
  · exact ⟨Or.inl hpops, rfl⟩
  · exact ⟨Or.inr rfl, rfl⟩
  · rcases hresult with ⟨hr, hop⟩ | ⟨hr, hop⟩ | ⟨hr, hop⟩ | ⟨hr, hop⟩ <;> rw [hr]
    · exact hop
    · exact hop
    · exact ⟨hop, rfl⟩
    · exact ⟨hop, rfl⟩

/-- What a call leaves in the container is what the call alone would leave there. -/
theorem body_value (h : c.body op x data = some r) : r.value = c.after data op r.result := by
  obtain ⟨rfl, -⟩ | ⟨v, rfl, rfl⟩ | ⟨v, rest, hpops, rfl, rfl⟩ | ⟨v, rest, rfl, rfl, rfl⟩ |
    ⟨-, hvalue, -, hresult⟩ := body_cases h
  · rfl
  · rfl
  · rw [Container.after, if_pos hpops, List.tail_cons]
  · rfl
  · rcases hresult with ⟨hr, -⟩ | ⟨hr, -⟩ | ⟨hr, -⟩ | ⟨hr, -⟩ <;> rw [hr, hvalue] <;> rfl

/-- What comes in stays or goes out. -/
theorem body_conserved (h : c.body op x data = some r) :
    (op.given r.result ++ data).Perm (op.taken r.result ++ r.value) := by
  obtain ⟨rfl, -⟩ | ⟨v, rfl, rfl⟩ | ⟨v, rest, hpops, rfl, rfl⟩ | ⟨v, rest, rfl, rfl, rfl⟩ |
    ⟨-, hvalue, -, hresult⟩ := body_cases h
  · exact List.Perm.refl _
  -- `push`: a queue and a stack put the element at different ends.
  · exact (c.put_perm v data).symm
  · rw [Op.taken, if_pos hpops]
    exact List.Perm.refl _
  · exact List.Perm.refl _
  · rcases hresult with ⟨hr, -⟩ | ⟨hr, -⟩ | ⟨hr, -⟩ | ⟨hr, -⟩ <;> rw [hr, hvalue] <;>
      exact List.Perm.refl _

/-- A queue gives its first element and takes at the end. -/
theorem body_in_order (hput : c.put = queue_put) (h : c.body op x data = some r) :
    data ++ op.given r.result = op.taken r.result ++ r.value := by
  obtain ⟨rfl, -⟩ | ⟨v, rfl, rfl⟩ | ⟨v, rest, hpops, rfl, rfl⟩ | ⟨v, rest, rfl, rfl, rfl⟩ |
    ⟨-, hvalue, -, hresult⟩ := body_cases h
  · exact List.append_nil data
  · dsimp only
    rw [hput]
    rfl
  · rw [Op.taken, if_pos hpops]
    exact List.append_nil _
  · exact List.append_nil _
  · rcases hresult with ⟨hr, -⟩ | ⟨hr, -⟩ | ⟨hr, -⟩ | ⟨hr, -⟩ <;> rw [hr, hvalue] <;>
      exact List.append_nil _

/-- An event more is a push more, if it was one. -/
theorem pushed_append (log : Log ι c) (i : ι) (op : c.Call) (result : Result T) :
    pushed (log ++ [.call i op result]) = pushed log ++ op.1.given result := by
  rw [pushed, List.flatMap_append, List.flatMap_singleton]
  rfl

/-- An event more is a pop more, if it was one that got something. -/
theorem popped_append (log : Log ι c) (i : ι) (op : c.Call) (result : Result T) :
    popped (log ++ [.call i op result]) = popped log ++ op.1.taken result := by
  rw [popped, List.flatMap_append, List.flatMap_singleton]
  rfl

/-- The contents after a log are read off it call by call. -/
theorem contents_append (log : Log ι c) (i : ι) (op : c.Call) (result : Result T) :
    contents c (log ++ [.call i op result]) = c.after (contents c log) op.1 result := by
  rw [contents, List.foldl_append]
  rfl

variable {log : Log ι c}

/-- The data of the container are what the log says. -/
theorem replays_contents (h : c.monitor.Replays log data) : data = contents c log := by
  induction h with
  | start => rfl
  | call i x _ _ hbody ih => rw [contents_append, ← ih, body_value hbody]
  | outer e => exact e.elim

/-- Each call was answered by what was in the container at its place in the log. -/
theorem replays_results (h : c.monitor.Replays log data) :
    ∀ before e later, log = before ++ e :: later →
      ∀ i op result, e = .call i op result → result.Correct (contents c before) op.1 := by
  induction h with
  | start => exact forall_split_nil
  | call i x before _ hbody ih =>
      apply forall_split_append ih
      intro i' op' result' heq
      cases heq
      rw [← replays_contents before]
      exact body_correct hbody
  | outer e => exact e.elim

/-- What was pushed was popped or is there. This holds of both containers. -/
theorem replays_conserved (h : c.monitor.Replays log data) :
    (pushed log).Perm (popped log ++ data) := by
  induction h with
  | start => exact List.Perm.refl _
  | @call log s i op x r _ _ hbody ih =>
      rw [pushed_append, popped_append, List.append_assoc]
      have hlast : (pushed log ++ op.1.given r.result).Perm
          (popped log ++ (op.1.given r.result ++ s)) := by
        refine (ih.append_right _).trans ?_
        rw [List.append_assoc]
        exact List.perm_append_comm.append_left _
      exact hlast.trans ((body_conserved hbody).append_left _)
  | outer e => exact e.elim

/-- Of the queue it holds in order. -/
theorem replays_in_order (hput : c.put = queue_put) (h : c.monitor.Replays log data) :
    pushed log = popped log ++ data := by
  induction h with
  | start => rfl
  | @call log s i op x r _ _ hbody ih =>
      rw [pushed_append, popped_append, ih, List.append_assoc, List.append_assoc,
        body_in_order hput hbody]
  | outer e => exact e.elim

/-- A call that need not wait has something to do. -/
theorem exists_body (h : op.waits = true → data ≠ []) :
    ∃ x, (c.body op x data).isSome = true := by
  refine ⟨.returns, ?_⟩
  cases op with
  | push v | empty | copy => rfl
  | try_pop | try_pop_ref | pop | pop_ref => cases data <;> rfl
  | wait_and_pop | wait_and_pop_ref | top =>
      cases data with
      | nil => exact absurd rfl (h rfl)
      | cons v rest => rfl

/-- A waiting call goes on when there is something to pop. -/
theorem passes_iff {call : c.Call} :
    c.monitor.passes call data = true ↔ (call.1.waits = true → data ≠ []) := by
  rw [Monitor.passes]
  cases hwaits : call.1.waits <;> simp [Container.monitor, hwaits]

/-- **The containers**, with any number of threads that call any member functions, after any
run. -/
theorem sequential (c : Container T) [Fintype ι] [DecidableEq ι]
    (as : List (Monitor.Action ι c.Call Ending Unit PEmpty)) :
    (c.monitor.system ι).Along (Right c) (c.monitor.system ι).init as := by
  apply (c.monitor.system ι).along_of_inv (I := c.monitor.Inv)
  · intro s hs
    refine ⟨replays_contents hs.replays, ?_, replays_conserved hs.replays,
      fun hput => replays_in_order hput hs.replays, ?_⟩
    · intro before i op result later heq
      exact replays_results hs.replays before _ later heq i op result rfl
    · intro i op hpc
      have hpasses := hs.knows i
      rw [hpc] at hpasses
      exact passes_iff.mp hpasses
  · exact fun s a t hs ht => hs.step a ht
  · exact Monitor.Inv.init

/-! ## Wakeups -/

/-- A wait that has been woken may leave without popping. -/
def Container.Swallows (c : Container T) : Prop :=
  ∃ op : c.Call, op.1.waits = true ∧ (op.1 = .top ∨ c.throws op.1 = true)

/-- Each push makes one value and notifies once, and each pop takes one. -/
theorem Container.balanced (hnotify : c.notify ≠ none) (h : ¬ c.Swallows) :
    Monitor.Balanced c.monitor (fun _ => List.length) (fun _ => True) (fun _ _ => True)
      fun _ => True where
  init := trivial
  predicate_iff := by
    intro op cv data _ _
    cases data <;> simp [Container.monitor]
  valid_body := fun _ _ _ _ _ _ _ => trivial
  ready_body := by
    intro call x data r cv _ _ _ hbody
    have hwaits : call.1.waits = true → call.1 ≠ .top ∧ c.throws call.1 = false := by
      intro hwaits
      by_contra hne
      rw [not_and_or, not_not, Bool.not_eq_false] at hne
      exact h ⟨call, hwaits, hne⟩
    have hcount : (if c.monitor.waits call = some cv then 1 else 0) =
        if call.1.waits then 1 else 0 := by
      cases hw : call.1.waits <;> simp [Container.monitor, hw]
    rw [hcount]
    obtain ⟨rfl, hthrows⟩ | ⟨v, hop, rfl⟩ | ⟨v, rest, -, rfl, rfl⟩ | ⟨v, rest, hop, rfl, rfl⟩ |
      ⟨hop, hvalue, hnone, -⟩ := body_cases hbody
    · have hno : call.1.waits = false := by
        by_contra hyes
        rw [(hwaits (by simpa using hyes)).2] at hthrows
        cases hthrows
      rw [hno]
      exact Or.inr (Or.inr (Nat.le_add_right _ _))
    · right
      rw [hop, (c.put_perm v data).length_eq]
      obtain ⟨n, hn⟩ := Option.ne_none_iff_exists'.mp hnotify
      cases n with
      | one cv' => exact Or.inr (by simp [hn, Op.waits])
      | all cv' => exact Or.inl hn
    · right; right
      split <;> simp
    · exact absurd hop (hwaits (by rw [hop]; rfl)).1
    · rw [hop, hvalue]
      exact Or.inr (Or.inr (Nat.le_add_right _ _))
  valid_outer := fun e => e.elim
  ready_outer := fun e => e.elim

/-- Unless a value is swallowed, the monitor loses no wakeup. -/
theorem Container.lossless (hnotify : c.notify ≠ none) (h : ¬ c.Swallows) :
    c.monitor.Lossless := by
  apply Monitor.lossless (c.balanced hnotify h)
  exact fun call data hpasses => exists_body (passes_iff.mp hpasses)

/-- A waiting pop that throws leaves the data as they were. -/
theorem body_throws (hwaits : op.waits = true) (hthrows : c.throws op = true) :
    c.body op .throws data = some ⟨data, .thrown, none⟩ := by
  cases op with
  | wait_and_pop | wait_and_pop_ref | top => exact if_pos hthrows
  | push v | try_pop | try_pop_ref | pop | pop_ref | empty | copy => cases hwaits

/-- A wakeup is lost when two wait, one element is pushed, and who is woken leaves it there. -/
theorem Container.lossless_iff_not_swallows (v : T) (hnotify : c.notify = some (.one ())) :
    c.monitor.Lossless ↔ ¬ c.Swallows := by
  refine ⟨?_, c.lossless (by rw [hnotify]; exact Option.some_ne_none _)⟩
  rintro hlossless ⟨call, hwaits, hleaves⟩
  have hput : c.put v [] ≠ [] := by
    intro hnil
    have hlength := (c.put_perm v []).length_eq
    rw [hnil] at hlength
    cases hlength
  have hbody : ∃ x r, c.body call.1 x (c.put v []) = some r ∧ r.value = c.put v [] ∧
      r.notify = none := by
    rcases hleaves with htop | hthrows
    · obtain ⟨w, rest, hrest⟩ := List.exists_cons_of_ne_nil hput
      exact ⟨.returns, ⟨w :: rest, .value w, none⟩, by rw [htop, hrest]; rfl, hrest.symm, rfl⟩
    · exact ⟨.throws, _, body_throws hwaits hthrows, rfl, rfl⟩
  obtain ⟨y, r', hr', hvalue, hsilent⟩ := hbody
  refine Monitor.swallowed (⟨.push v, c.push_member v⟩ : c.Call) call .returns ()
    ?_ ?_ ?_ rfl hnotify rfl ?_ hr' hsilent ?_ hlossless
  · exact if_pos hwaits
  · by_contra hpasses
    rw [Bool.not_eq_false] at hpasses
    exact passes_iff.mp hpasses hwaits rfl
  · exact passes_iff.mpr fun hpush => absurd hpush Bool.false_ne_true
  · exact passes_iff.mpr fun _ => hput
  · rw [hvalue]
    exact passes_iff.mpr fun _ => hput

/-- Where there is no `top`, it is the two `wait_and_pop` that may leave. -/
theorem Container.swallows_iff (hwait : c.member .wait_and_pop = true)
    (hwait_ref : c.member .wait_and_pop_ref = true) (htop : c.member .top = false) :
    c.Swallows ↔ c.throws .wait_and_pop = true ∨ c.throws .wait_and_pop_ref = true := by
  constructor
  · rintro ⟨⟨op, hmember⟩, hwaits, hleaves⟩
    cases op with
    | wait_and_pop => exact Or.inl (hleaves.resolve_left (by intro heq; cases heq))
    | wait_and_pop_ref => exact Or.inr (hleaves.resolve_left (by intro heq; cases heq))
    | top =>
        rw [htop] at hmember
        cases hmember
    | push v | try_pop | try_pop_ref | pop | pop_ref | empty | copy => cases hwaits
  · rintro (hthrows | hthrows)
    · exact ⟨⟨.wait_and_pop, hwait⟩, rfl, Or.inr hthrows⟩
    · exact ⟨⟨.wait_and_pop_ref, hwait_ref⟩, rfl, Or.inr hthrows⟩

theorem not_throws_iff (alloc move : Bool) :
    ¬ ((alloc || move) = true ∨ move = true) ↔ alloc = false ∧ move = false := by
  cases alloc <;> cases move <;> decide

end Sequential

/-- **Lost wakeups.** The queue and the stack of `T` lose wakeups where a `T` cannot be had
without a chance to throw, `threadsafe_queue_ptr` only where an assignment throws, since it
allocates in `push`. The queue with `top` loses them anyway, and with `notify_all` none is lost. -/
theorem lossless_iff (v : T) (ex : Throwing) :
    ((threadsafe_queue T ex).monitor.Lossless ↔ ex.alloc = false ∧ ex.move = false) ∧
    ((threadsafe_stack_waitable T ex).monitor.Lossless ↔ ex.alloc = false ∧ ex.move = false) ∧
    ((threadsafe_queue_ptr T ex).monitor.Lossless ↔ ex.move = false) ∧
    ¬ (condition_variable_queue T ex).monitor.Lossless ∧
    (messaging_queue T ex).monitor.Lossless := by
  refine ⟨?_, ?_, ?_, ?_, ?_⟩
  · rw [Container.lossless_iff_not_swallows v rfl, Container.swallows_iff rfl rfl rfl]
    exact not_throws_iff ex.alloc ex.move
  · rw [Container.lossless_iff_not_swallows v rfl, Container.swallows_iff rfl rfl rfl]
    exact not_throws_iff ex.alloc ex.move
  · rw [Container.lossless_iff_not_swallows v rfl, Container.swallows_iff rfl rfl rfl,
      ← Bool.not_eq_true]
    exact not_congr (or_iff_right Bool.false_ne_true)
  · rw [Container.lossless_iff_not_swallows v rfl, not_not]
    exact ⟨⟨.top, rfl⟩, rfl, Or.inl rfl⟩
  · apply Container.lossless (Option.some_ne_none _)
    rintro ⟨⟨op, hmember⟩, hwaits, hleaves⟩
    cases op with
    | wait_and_pop => rcases hleaves with htop | hthrows <;> contradiction
    | wait_and_pop_ref | top => cases hmember
    | push v | try_pop | try_pop_ref | pop | pop_ref | empty | copy => cases hwaits

end BoostNet.WaitableContainers
