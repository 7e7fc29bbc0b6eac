/-
The locked rings of Concurrent/day12-circularque: `CircularQueLk`, with a `std::lock_guard`,
and `CircularQueSeq`, with the flag `_atomic_using` that a call sets by a CAS and gives back by
another. The two have the same checks and the same accesses in the same order; they differ in
what an exception leaves behind.

Calls are serialized by the lock, so a call is one step. `none` is a call that does not come
back: the lock is taken and nobody gives it back, or a slot is read that was never constructed.
An element is given by its operations (`Element`), each of which may throw. `events` is a
history: what has been done to the slots, in that order.

`std::size_t` does not wrap: an index is below `Cap + 1`, which is a `std::size_t` itself.

* `circular_que_refines`: both are bounded FIFO queues when the elements do not throw.
* `seq_throw_spins`: an exception leaves `_atomic_using` set, and no later call comes back.
  `lk_stays_usable`: the lock guard unlocks.
-/
import BoostNet.Lts
import BoostNet.Ring

set_option autoImplicit false

namespace BoostNet.CircularQue

open BoostNet.Ring

/-! ## Elements -/

/-- What the queues do with elements. `lvalue val` and `rvalue val` are the arguments `val` and
`std::move(val)` of a construction. -/
structure Element (Args T ε : Type*) where
  construct : Args → Except ε T
  lvalue : T → Args
  rvalue : T → Args
  /-- `val = std::move(x)`: the exception, if any, and what `val` and `x` are afterwards. -/
  move_assign : T → T → Option ε × T × T

structure Element.NoThrow {Args T ε : Type*} (E : Element Args T ε) : Prop where
  construct : ∀ args, ∃ v, E.construct args = .ok v
  move_assign : ∀ val x, (E.move_assign val x).1 = none

/-- What is done to a slot. `use` is an access to the element in it. -/
inductive Lifetime where
  | construct (i : Nat)
  | use (i : Nat)
  | destroy (i : Nat)
  deriving DecidableEq

variable {Args T ε : Type*}

/-! ## The queues -/

/-- `_max_size`. -/
def max_size (Cap : Nat) : Nat := Cap + 1

/-- A slot that was never constructed holds nothing. `locked` is `_mtx`, or `_atomic_using`. -/
structure Que (T : Type*) where
  data : Nat → Option T := fun _ => none
  head : Nat := 0
  tail : Nat := 0
  locked : Bool := false
  events : List Lifetime := []

/-- What a call returns or throws, and what `pop` leaves in its argument. -/
structure Answer (T ε : Type*) where
  ret : Except ε Bool
  val : Option T

/-- How the lock is held. -/
inductive Guard where
  | lock_guard
  | compare_exchange

/-- The destructor of a lock guard runs when an exception leaves the call. The CAS that gives
the flag back stands before the returns only. -/
def Guard.after_throw : Guard → Bool
  | lock_guard => false
  | compare_exchange => true

inductive Call (Args T : Type*) where
  | emplace (args : Args)
  /-- `push(const T& val)` -/
  | push (val : T)
  /-- `push(T&& val)` -/
  | push_move (val : T)
  | pop (val : T)

section Calls

variable (g : Guard) (E : Element Args T ε) (Cap : Nat) (s : Que T)

def emplace (args : Args) : Option (Que T × Answer T ε) :=
  if s.locked then none
  else if next (max_size Cap) s.tail = s.head then some (s, ⟨.ok false, none⟩)
  else
    match E.construct args with
    | .error e => some ({ s with locked := g.after_throw }, ⟨.error e, none⟩)
    | .ok v =>
        some ({ s with
            data := Function.update s.data s.tail (some v)
            tail := next (max_size Cap) s.tail
            events := s.events ++ [Lifetime.construct s.tail] },
          ⟨.ok true, none⟩)

def push (val : T) : Option (Que T × Answer T ε) := emplace g E Cap s (E.lvalue val)

def push_move (val : T) : Option (Que T × Answer T ε) := emplace g E Cap s (E.rvalue val)

def pop (val : T) : Option (Que T × Answer T ε) :=
  if s.locked then none
  else if s.head = s.tail then some (s, ⟨.ok false, some val⟩)
  else
    -- val = std::move(_data[_head]);
    (s.data s.head).map fun x =>
      let r := E.move_assign val x
      let s := { s with
        data := Function.update s.data s.head (some r.2.2)
        events := s.events ++ [Lifetime.use s.head] }
      match r.1 with
      | some e => ({ s with locked := g.after_throw }, ⟨.error e, some r.2.1⟩)
      | none => ({ s with head := next (max_size Cap) s.head }, ⟨.ok true, some r.2.1⟩)

def call : Call Args T → Option (Que T × Answer T ε)
  | .emplace args => emplace g E Cap s args
  | .push val => push g E Cap s val
  | .push_move val => push_move g E Cap s val
  | .pop val => pop g E Cap s val

end Calls

/-- A call of `CircularQueLk`. -/
def CircularQueLk.call (E : Element Args T ε) (Cap : Nat) (s : Que T) (c : Call Args T) :
    Option (Que T × Answer T ε) := CircularQue.call .lock_guard E Cap s c

/-- A call of `CircularQueSeq`. -/
def CircularQueSeq.call (E : Element Args T ε) (Cap : Nat) (s : Que T) (c : Call Args T) :
    Option (Que T × Answer T ε) := CircularQue.call .compare_exchange E Cap s c

/-- The queue as a system whose steps are the calls. -/
def que (g : Guard) (E : Element Args T ε) (Cap : Nat) : Lts (Que T) (Call Args T) where
  init := {}
  step := fun s c => (call g E Cap s c).map Prod.fst

/-- A call as a step of the system, its answer left out. -/
theorem que_step (g : Guard) (E : Element Args T ε) (Cap : Nat) (s : Que T) (c : Call Args T) :
    (que g E Cap).step s c = (call g E Cap s c).map Prod.fst := rfl

/-! ## The abstract queue -/

section Fifo

variable (E : Element Args T ε) (Cap : Nat) (xs : List T)

/-- A FIFO of at most `Cap` elements: what it stores after a call, and the answer. -/
def Fifo.emplace (args : Args) : List T × Answer T ε :=
  if xs.length = Cap then (xs, ⟨.ok false, none⟩)
  else
    match E.construct args with
    | .error e => (xs, ⟨.error e, none⟩)
    | .ok v => (xs ++ [v], ⟨.ok true, none⟩)

def Fifo.pop (val : T) : List T × Answer T ε :=
  match xs with
  | [] => ([], ⟨.ok false, some val⟩)
  | x :: rest =>
      let r := E.move_assign val x
      match r.1 with
      | some e => (r.2.2 :: rest, ⟨.error e, some r.2.1⟩)
      | none => (rest, ⟨.ok true, some r.2.1⟩)

def Fifo.call : Call Args T → List T × Answer T ε
  | .emplace args => Fifo.emplace E Cap xs args
  | .push val => Fifo.emplace E Cap xs (E.lvalue val)
  | .push_move val => Fifo.emplace E Cap xs (E.rvalue val)
  | .pop val => Fifo.pop E xs val

/-- What the FIFO stores after calls in turn. -/
def Fifo.after (calls : List (Call Args T)) : List T :=
  calls.foldl (fun xs c => (Fifo.call E Cap xs c).1) []

end Fifo

/-- The abstract queue takes no more than `Cap` values. -/
theorem Fifo.emplace_length {E : Element Args T ε} {Cap : Nat} {xs : List T}
    (hle : xs.length ≤ Cap) (args : Args) : (Fifo.emplace E Cap xs args).1.length ≤ Cap := by
  unfold Fifo.emplace
  split
  case isTrue => exact hle
  case isFalse hroom =>
    cases E.construct args with
    | error e => exact hle
    | ok v =>
        have hlt : xs.length < Cap := Nat.lt_of_le_of_ne hle hroom
        rw [List.length_append, List.length_singleton]
        exact hlt

/-- A pop leaves it below that. -/
theorem Fifo.pop_length {E : Element Args T ε} {Cap : Nat} {xs : List T}
    (hle : xs.length ≤ Cap) (val : T) : (Fifo.pop E xs val).1.length ≤ Cap := by
  cases xs with
  | nil => exact hle
  | cons x rest =>
      dsimp only [Fifo.pop]
      cases (E.move_assign val x).1 with
      | some e => exact hle
      | none => exact Nat.le_of_succ_le hle

/-- The capacity is never exceeded. -/
theorem Fifo.after_length (E : Element Args T ε) (Cap : Nat) (calls : List (Call Args T)) :
    (Fifo.after E Cap calls).length ≤ Cap := by
  unfold Fifo.after
  refine List.foldlRecOn (motive := fun xs : List T => xs.length ≤ Cap) calls _ (Nat.zero_le Cap) ?_
  intro xs hle c _
  cases c with
  | emplace args => exact Fifo.emplace_length hle args
  | push val => exact Fifo.emplace_length hle (E.lvalue val)
  | push_move val => exact Fifo.emplace_length hle (E.rvalue val)
  | pop val => exact Fifo.pop_length hle val

/-! ## Refinement -/

/-- Whether the lock is left taken behind an answer. -/
def Answer.locks (g : Guard) (a : Answer T ε) : Bool :=
  match a.ret with
  | .error _ => g.after_throw
  | .ok _ => false

/-- The queue stores `xs`. -/
def Stores (Cap : Nat) (s : Que T) (xs : List T) : Prop :=
  Holds (max_size Cap) s.data s.head s.tail xs

/-- What the call `c` does with `s` is what the FIFO does with `xs`. -/
structure Follows (g : Guard) (Cap : Nat) (s : Que T) (o : Option (Que T × Answer T ε))
    (r : List T × Answer T ε) (t : Que T) : Prop where
  call_eq : o = some (t, r.2)
  stores : Stores Cap t r.1
  locked : t.locked = r.2.locks g
  failed : r.2.ret = .ok false → t = s

section Refines

variable {g : Guard} {E : Element Args T ε} {Cap : Nat} {s : Que T} {xs : List T}

/-- An empty ring stores the empty list. -/
theorem Stores.init : Stores Cap ({} : Que T) [] := Holds.init (Nat.succ_pos Cap)

/-- The test `(tail + 1) % max == head` is true exactly when `Cap` values are stored, one place of
the ring being left free. -/
theorem Stores.full_iff (hs : Stores Cap s xs) :
    next (max_size Cap) s.tail = s.head ↔ xs.length = Cap :=
  hs.spans.full_iff.trans Nat.succ_inj

/-- The ring follows the abstract queue in a push, exceptions included. -/
theorem emplace_follows (hs : Stores Cap s xs) (hfree : s.locked = false) (args : Args) :
    ∃ t, Follows g Cap s (emplace g E Cap s args) (Fifo.emplace E Cap xs args) t := by
  simp only [emplace, Fifo.emplace, hfree, Bool.false_eq_true, if_false, hs.full_iff]
  by_cases hfull : xs.length = Cap
  · rw [if_pos hfull, if_pos hfull]
    exact ⟨s, rfl, hs, hfree, fun _ => rfl⟩
  · rw [if_neg hfull, if_neg hfull]
    cases hmake : E.construct args with
    | error e => exact ⟨_, rfl, hs, rfl, fun hret => by cases hret⟩
    | ok v =>
        exact ⟨_, rfl, Holds.push hs (mt hs.full_iff.mp hfull) v, rfl, fun hret => by cases hret⟩

/-- And in a pop. -/
theorem pop_follows (hs : Stores Cap s xs) (hfree : s.locked = false) (val : T) :
    ∃ t, Follows g Cap s (pop g E Cap s val) (Fifo.pop E xs val) t := by
  simp only [pop, hfree, Bool.false_eq_true, if_false, hs.spans.empty_iff]
  cases xs with
  | nil =>
      rw [if_pos List.length_nil]
      exact ⟨s, rfl, hs, hfree, fun _ => rfl⟩
  | cons x rest =>
      rw [List.length_cons, if_neg (Nat.succ_ne_zero rest.length), Holds.front hs, Option.map_some]
      dsimp only [Fifo.pop]
      cases hthrow : (E.move_assign val x).1 with
      | some e =>
          exact ⟨_, rfl, Holds.write_front hs _, rfl, fun hret => by cases hret⟩
      | none =>
          exact ⟨_, rfl, Holds.pop hs _, rfl, fun hret => by cases hret⟩

/-- **A call does to the ring what it does to the FIFO.** -/
theorem call_follows (hs : Stores Cap s xs) (hfree : s.locked = false) (c : Call Args T) :
    ∃ t, Follows g Cap s (call g E Cap s c) (Fifo.call E Cap xs c) t := by
  cases c with
  | emplace args => exact emplace_follows hs hfree args
  | push val => exact emplace_follows hs hfree (E.lvalue val)
  | push_move val => exact emplace_follows hs hfree (E.rvalue val)
  | pop val => exact pop_follows hs hfree val

end Refines

/-! ## Elements that do not throw -/

section NoThrow

variable {E : Element Args T ε} (hE : E.NoThrow) (Cap : Nat)

include hE

/-- A push of an element that does not throw returns. -/
theorem Fifo.emplace_returns (xs : List T) (args : Args) :
    ∃ b, (Fifo.emplace E Cap xs args).2.ret = .ok b := by
  obtain ⟨v, hv⟩ := hE.construct args
  unfold Fifo.emplace
  split
  case isTrue => exact ⟨false, rfl⟩
  case isFalse => exact ⟨true, by rw [hv]⟩

/-- So does a pop. -/
theorem Fifo.pop_returns (xs : List T) (val : T) : ∃ b, (Fifo.pop E xs val).2.ret = .ok b := by
  cases xs with
  | nil => exact ⟨false, rfl⟩
  | cons x rest =>
      refine ⟨true, ?_⟩
      dsimp only [Fifo.pop]
      rw [hE.move_assign val x]

/-- Any call does. -/
theorem Fifo.call_returns (xs : List T) (c : Call Args T) :
    ∃ b, (Fifo.call E Cap xs c).2.ret = .ok b := by
  cases c with
  | emplace args => exact Fifo.emplace_returns hE Cap xs args
  | push val => exact Fifo.emplace_returns hE Cap xs (E.lvalue val)
  | push_move val => exact Fifo.emplace_returns hE Cap xs (E.rvalue val)
  | pop val => exact Fifo.pop_returns hE xs val

/-- A call that returned has given the lock back, with each of the two guards. -/
theorem call_unlocked (g : Guard) (xs : List T) (c : Call Args T) :
    (Fifo.call E Cap xs c).2.locks g = false := by
  obtain ⟨b, hb⟩ := Fifo.call_returns hE Cap xs c
  rw [Answer.locks, hb]

/-- **The locked rings are FIFOs of capacity `Cap`.** After any calls the ring stores what the
FIFO does, every call comes back with the FIFO's answer and the lock free again, and one that
returns false has changed nothing. -/
theorem circular_que_refines (g : Guard) (calls : List (Call Args T)) :
    ∃ s, (que g E Cap).exec (que g E Cap).init calls = some s ∧
      Stores Cap s (Fifo.after E Cap calls) ∧ (Fifo.after E Cap calls).length ≤ Cap ∧
      s.locked = false ∧
      ∀ c, ∃ t, call g E Cap s c = some (t, (Fifo.call E Cap (Fifo.after E Cap calls) c).2) ∧
        Stores Cap t (Fifo.after E Cap (calls ++ [c])) ∧ t.locked = false ∧
        ((Fifo.call E Cap (Fifo.after E Cap calls) c).2.ret = .ok false → t = s) := by
  have hrun : ∃ s, (que g E Cap).exec (que g E Cap).init calls = some s ∧
      Stores Cap s (Fifo.after E Cap calls) ∧ s.locked = false := by
    refine (que g E Cap).exec_foldl (R := fun s xs => Stores Cap s xs ∧ s.locked = false)
      (f := fun xs c => (Fifo.call E Cap xs c).1) ?_ ⟨Stores.init, rfl⟩ calls
    rintro s xs c ⟨hs, hfree⟩
    obtain ⟨t, ht⟩ := call_follows (g := g) hs hfree c
    refine ⟨t, ?_, ht.stores, ht.locked.trans (call_unlocked hE Cap g xs c)⟩
    rw [que_step, ht.call_eq, Option.map_some]
  obtain ⟨s, hs, hstores, hfree⟩ := hrun
  refine ⟨s, hs, hstores, Fifo.after_length E Cap calls, hfree, fun c => ?_⟩
  obtain ⟨t, ht⟩ := call_follows (g := g) hstores hfree c
  have hafter : Fifo.after E Cap (calls ++ [c]) =
      (Fifo.call E Cap (Fifo.after E Cap calls) c).1 := by
    rw [Fifo.after, List.foldl_append]
    rfl
  refine ⟨t, ht.call_eq, hafter ▸ ht.stores, ?_, ht.failed⟩
  exact ht.locked.trans (call_unlocked hE Cap g _ c)

end NoThrow

/-- Elements whose operations do not throw. -/
def plain (T ε : Type*) : Element T T ε where
  construct := .ok
  lvalue := id
  rvalue := id
  move_assign := fun _ x => (none, x, x)

/-- An element that never throws, as an `int`. -/
theorem plain_noThrow (T ε : Type*) : (plain T ε).NoThrow where
  construct := fun v => ⟨v, rfl⟩
  move_assign := fun _ _ => rfl

theorem circular_que_refines_plain :
    (plain Nat Unit).NoThrow ∧
      ∃ s, (que .compare_exchange (plain Nat Unit) 1).exec {} [.push 7, .push 8] = some s ∧
        Stores 1 s [7] := by
  refine ⟨plain_noThrow Nat Unit, ?_⟩
  obtain ⟨s, hs, hstores, -⟩ := circular_que_refines (plain_noThrow Nat Unit) 1
    .compare_exchange [.push 7, .push 8]
  exact ⟨s, hs, hstores⟩

/-! ## Elements that throw -/

/-- In the call `c` the construction or the assignment of an element throws `e`. -/
def Throws (E : Element Args T ε) (Cap : Nat) (s : Que T) (e : ε) : Call Args T → Prop
  | .emplace args => next (max_size Cap) s.tail ≠ s.head ∧ E.construct args = .error e
  | .push val => next (max_size Cap) s.tail ≠ s.head ∧ E.construct (E.lvalue val) = .error e
  | .push_move val => next (max_size Cap) s.tail ≠ s.head ∧ E.construct (E.rvalue val) = .error e
  | .pop val =>
      s.head ≠ s.tail ∧ ∃ x, s.data s.head = some x ∧ (E.move_assign val x).1 = some e

/-- What a call that throws leaves as it was: the indices and which slots store an element. -/
structure SamePositions (s t : Que T) : Prop where
  head : t.head = s.head
  tail : t.tail = s.tail
  stored : ∀ i, (t.data i).isSome = (s.data i).isSome

/-- The call `c`, in which `e` is thrown, exits by `e` and leaves the queue usable. -/
def StaysUsable (g : Guard) (E : Element Args T ε) (Cap : Nat) (s : Que T) (e : ε)
    (c : Call Args T) : Prop :=
  ∃ t val, call g E Cap s c = some (t, ⟨.error e, val⟩) ∧ SamePositions s t ∧ t.locked = false

section Throws

variable {g : Guard} {E : Element Args T ε} {Cap : Nat} {s : Que T} {e : ε}

/-- A constructor that throws leaves the ring as it was. Only the guard decides what becomes of the
lock. -/
theorem emplace_throws (hfree : s.locked = false) {args : Args}
    (hroom : next (max_size Cap) s.tail ≠ s.head) (hthrow : E.construct args = .error e) :
    emplace g E Cap s args = some ({ s with locked := g.after_throw }, ⟨.error e, none⟩) := by
  simp only [emplace, hfree, Bool.false_eq_true, if_false, if_neg hroom, hthrow]

/-- A call that throws changes the lock, and the element that it has assigned from. -/
theorem call_throws (hfree : s.locked = false) {c : Call Args T} (hthrow : Throws E Cap s e c) :
    ∃ t val, call g E Cap s c = some (t, ⟨.error e, val⟩) ∧ SamePositions s t ∧
      t.locked = g.after_throw := by
  cases c with
  | emplace args =>
      exact ⟨_, _, emplace_throws hfree hthrow.1 hthrow.2, ⟨rfl, rfl, fun _ => rfl⟩, rfl⟩
  | push val =>
      exact ⟨_, _, emplace_throws hfree hthrow.1 hthrow.2, ⟨rfl, rfl, fun _ => rfl⟩, rfl⟩
  | push_move val =>
      exact ⟨_, _, emplace_throws hfree hthrow.1 hthrow.2, ⟨rfl, rfl, fun _ => rfl⟩, rfl⟩
  | pop val =>
      obtain ⟨hne, x, hx, hassign⟩ := hthrow
      simp only [call, pop, hfree, Bool.false_eq_true, if_false, if_neg hne, hx, Option.map_some,
        hassign]
      refine ⟨_, _, rfl, ⟨rfl, rfl, fun i => ?_⟩, rfl⟩
      dsimp only
      by_cases hi : i = s.head
      · rw [hi, Function.update_self, hx]
        rfl
      · rw [Function.update_of_ne hi]

/-- A taken lock keeps every call from coming back. -/
theorem call_locked (hlocked : s.locked = true) (c : Call Args T) : call g E Cap s c = none := by
  cases c <;> exact if_pos hlocked

/-- `CircularQueLk` stays usable: the lock guard unlocks. -/
theorem lk_stays_usable (hfree : s.locked = false) {c : Call Args T}
    (hthrow : Throws E Cap s e c) : StaysUsable .lock_guard E Cap s e c :=
  call_throws hfree hthrow

/-- **`CircularQueSeq` never stays usable.** Whatever throws, in whatever state, the exception
leaves the call with the indices as they were and `_atomic_using` set, and no later call comes back.
The flag is an ordinary atomic that is cleared at the end of the call, with no guard that an
exception would run through. -/
theorem seq_throw_spins (hfree : s.locked = false) {c : Call Args T}
    (hthrow : Throws E Cap s e c) :
    ¬ StaysUsable .compare_exchange E Cap s e c ∧
      ∃ t val, CircularQueSeq.call E Cap s c = some (t, ⟨.error e, val⟩) ∧ SamePositions s t ∧
        t.locked = true ∧ ∀ later, CircularQueSeq.call E Cap t later = none := by
  obtain ⟨t, val, hcall, hsame, hlocked⟩ :=
    call_throws (g := .compare_exchange) hfree hthrow
  refine ⟨?_, t, val, hcall, hsame, hlocked, fun later => call_locked hlocked later⟩
  rintro ⟨t', val', hcall', -, hfree'⟩
  obtain ⟨rfl, -⟩ : t = t' ∧ _ := Prod.mk.inj (Option.some.inj (hcall.symm.trans hcall'))
  exact Bool.false_ne_true (hfree'.symm.trans hlocked)

end Throws

/-- Elements whose construction from 0 throws. -/
def picky : Element Nat Nat Unit where
  construct := fun n => if n = 0 then .error () else .ok n
  lvalue := id
  rvalue := id
  move_assign := fun _ x => (none, x, x)

theorem seq_throw_spins_push :
    Throws picky 1 {} () (.push 0) ∧
      ∃ t val, CircularQueSeq.call picky 1 {} (.push 0) = some (t, ⟨.error (), val⟩) ∧
        ∀ later, CircularQueSeq.call picky 1 t later = none := by
  have hthrow : Throws picky 1 {} () (.push 0) := ⟨by decide, rfl⟩
  refine ⟨hthrow, ?_⟩
  obtain ⟨-, t, val, hcall, -, -, hspin⟩ :=
    seq_throw_spins rfl hthrow
  exact ⟨t, val, hcall, hspin⟩

/-- The first push throws, and the queue is not usable any more. -/
theorem seq_throw_counterexample :
    ¬ ∀ (calls : List (Call Nat Nat)) (s : Que Nat) (c : Call Nat Nat),
      (que .compare_exchange picky 1).exec {} calls = some s → Throws picky 1 s () c →
        StaysUsable .compare_exchange picky 1 s () c := by
  intro hall
  obtain ⟨t, val, hcall, -, hfree⟩ := hall [] {} (.push 0) rfl ⟨by decide, rfl⟩
  have hpush : call .compare_exchange picky 1 {} (.push 0) =
      some ({ locked := true }, ⟨.error (), none⟩) := rfl
  obtain ⟨rfl, -⟩ := Prod.mk.inj (Option.some.inj (hpush.symm.trans hcall))
  exact Bool.false_ne_true hfree.symm

end BoostNet.CircularQue
