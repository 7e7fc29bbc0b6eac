/-
The handler chains of Concurrent/day08-Actor,
`receiver.wait().handle<M1>(f1)...handle<Mn>(fn)`.

The expression makes an object for `wait` and one for each `handle`, which points to the one
before it, and destroys them at its end, the last one first. The destructor of an object that is
not `chained` waits for messages; an object becomes chained when the next one is built on it,
and when it is moved from. Whether a function returns its object through a move or in place is
the compiler's choice (`elided`), for each of them.

What never changes of an object is its `Link`; a message is its type and its contents, and the
types are told apart as `dynamic_cast` tells them apart. A handler may throw. `events` is a
history of what has been taken from the queue, and by which object, and of the handlers that
ran. The queue gives its messages one after another; `waiting` is an expression that waits for
one more.

* `chain_dispatches_one`: the last object consumes messages up to the first one that a handler
  takes, or `close_queue`; nothing else does.
-/
import Mathlib.Data.List.Basic

set_option autoImplicit false

namespace BoostNet.Dispatcher

/-! ## Messages and links -/

structure Message (τ α : Type*) where
  type : τ
  contents : α

/-- What a `dispatcher` or a `TemplateDispatcher` is built of: `prev`, the message type and the
handler. -/
inductive Link (τ H : Type*) where
  | dispatcher
  | TemplateDispatcher (prev : Link τ H) (Msg : τ) (f : H)

/-- What `dispatch` does with a message: it throws `close_queue`, returns false, or calls `f` and
returns true. -/
inductive Dispatched (H : Type*) where
  | closed
  | ignored
  | handled (f : H)

variable {τ α H ε : Type*} [DecidableEq τ]

def Link.dispatch (close_queue : τ) (msg : Message τ α) : Link τ H → Dispatched H
  | .dispatcher => if msg.type = close_queue then .closed else .ignored
  | .TemplateDispatcher prev Msg f =>
      if msg.type = Msg then .handled f else prev.dispatch close_queue msg

/-! ## Waiting -/

inductive Thrown (ε : Type*) where
  | close_queue
  | handler (e : ε)

/-- How a destructor, or the whole expression, ends. An exception that is thrown while another
one is on its way terminates the program. -/
inductive Exit (ε : Type*) where
  | returned
  | threw (e : Thrown ε)
  | waiting
  | terminated

inductive Event (τ α H : Type*) where
  | consumed (self : Nat) (msg : Message τ α)
  | ran (f : H) (contents : α)

/-- `rest` is what is left in the queue. -/
structure Run (τ α H ε : Type*) where
  exit : Exit ε
  events : List (Event τ α H)
  rest : List (Message τ α)

section Waiting

variable (close_queue : τ) (throws : H → α → Option ε)

/-- How `f(contents)` ends. -/
def called (f : H) (contents : α) : Exit ε :=
  match throws f contents with
  | none => .returned
  | some e => .threw (.handler e)

/-- The loop of a `dispatcher` has no `break`: nothing is handled there. -/
def wait_and_dispatch (self : Nat) (link : Link τ H) : List (Message τ α) → Run τ α H ε
  | [] => ⟨.waiting, [], []⟩
  | msg :: rest =>
      match link.dispatch close_queue msg with
      | .closed => ⟨.threw .close_queue, [.consumed self msg], rest⟩
      | .ignored =>
          let r := wait_and_dispatch self link rest
          ⟨r.exit, .consumed self msg :: r.events, r.rest⟩
      | .handled f =>
          ⟨called throws f msg.contents, [.consumed self msg, .ran f msg.contents], rest⟩

end Waiting

/-! ## Objects -/

/-- An object, with a number of its own. -/
structure Temp (τ H : Type*) where
  addr : Nat
  link : Link τ H
  chained : Bool

section Destructors

variable (close_queue : τ) (throws : H → α → Option ε)

def Temp.destructor (t : Temp τ H) (queue : List (Message τ α)) : Run τ α H ε :=
  if t.chained then ⟨.returned, [], queue⟩
  else wait_and_dispatch close_queue throws t.addr t.link queue

/-- The destructors of `ts` in turn. An exception goes on to the next ones. -/
def destroy : List (Temp τ H) → List (Message τ α) → Run τ α H ε
  | [], queue => ⟨.returned, [], queue⟩
  | t :: ts, queue =>
      let r := t.destructor close_queue throws queue
      let r' := destroy ts r.rest
      match r.exit with
      | .returned => ⟨r'.exit, r.events ++ r'.events, r'.rest⟩
      | .threw e =>
          match r'.exit with
          | .returned => ⟨.threw e, r.events ++ r'.events, r'.rest⟩
          | .threw _ => ⟨.terminated, r.events ++ r'.events, r'.rest⟩
          | exit => ⟨exit, r.events ++ r'.events, r'.rest⟩
      | _ => r

end Destructors

/-- The expression so far: how many objects it has made, the temporaries, the last one first, and
those that were moved from, which are destroyed where their function returns. -/
structure Expr (τ H : Type*) where
  made : Nat := 0
  temps : List (Temp τ H) := []
  moved : List (Temp τ H) := []

/-- A function makes an object and returns it. -/
def Expr.returns (x : Expr τ H) (elided : Bool) (link : Link τ H) : Expr τ H :=
  let t : Temp τ H := ⟨x.made, link, false⟩
  if elided then { x with made := x.made + 1, temps := t :: x.temps }
  else
    { made := x.made + 2
      temps := ⟨x.made + 1, t.link, t.chained⟩ :: x.temps
      moved := x.moved ++ [{ t with chained := true }] }

/-- `receiver::wait` -/
def wait (elided : Bool) : Expr τ H := Expr.returns {} elided .dispatcher

/-- A call of `handle<Msg>(f)`. -/
structure Handle (τ H : Type*) where
  elided : Bool
  Msg : τ
  f : H

/-- The object on which `handle` is called becomes chained. -/
def Expr.handle (x : Expr τ H) (h : Handle τ H) : Expr τ H :=
  match x.temps with
  | [] => x
  | this :: below =>
      { x with temps := { this with chained := true } :: below }.returns h.elided
        (.TemplateDispatcher this.link h.Msg h.f)

/-- `receiver.wait().handle<M1>(f1)...handle<Mn>(fn)` -/
def chain (elided : Bool) (handles : List (Handle τ H)) : Expr τ H :=
  handles.foldl Expr.handle (wait elided)

/-- The end of the full expression. -/
def Expr.ends (close_queue : τ) (throws : H → α → Option ε) (x : Expr τ H)
    (queue : List (Message τ α)) : Run τ α H ε :=
  destroy close_queue throws (x.moved ++ x.temps) queue

/-! ## The dispatch through the links -/

/-- The handlers of a chain, the one added last first. -/
def Link.handlers : Link τ H → List (τ × H)
  | .dispatcher => []
  | .TemplateDispatcher prev Msg f => (Msg, f) :: prev.handlers

section Dispatch

variable {close_queue : τ} {throws : H → α → Option ε} {link : Link τ H} {msg : Message τ α}

theorem dispatch_handled {h : τ × H}
    (hfind : link.handlers.find? (fun h => msg.type = h.1) = some h) :
    link.dispatch close_queue msg = .handled h.2 := by
  induction link with
  | dispatcher => cases hfind
  | TemplateDispatcher prev Msg f ih =>
      rw [Link.handlers, List.find?_cons] at hfind
      by_cases htype : msg.type = Msg
      · simp only [htype, decide_true] at hfind
        obtain rfl := Option.some.inj hfind
        exact if_pos htype
      · simp only [htype, decide_false] at hfind
        rw [Link.dispatch, if_neg htype]
        exact ih hfind

theorem dispatch_unhandled (hfind : link.handlers.find? (fun h => msg.type = h.1) = none) :
    (link.dispatch close_queue msg : Dispatched H) =
      if msg.type = close_queue then .closed else .ignored := by
  induction link with
  | dispatcher => rfl
  | TemplateDispatcher prev Msg f ih =>
      rw [Link.handlers, List.find?_cons] at hfind
      by_cases htype : msg.type = Msg
      · simp only [htype, decide_true] at hfind
        cases hfind
      · simp only [htype, decide_false] at hfind
        rw [Link.dispatch, if_neg htype]
        exact ih hfind

omit [DecidableEq τ] in
/-- No handler takes the message, and it does not close the queue. -/
def Ignores (close_queue : τ) (handlers : List (τ × H)) (msg : Message τ α) : Prop :=
  msg.type ≠ close_queue ∧ ∀ h ∈ handlers, msg.type ≠ h.1

theorem find_none (hnone : ∀ h ∈ link.handlers, msg.type ≠ h.1) :
    link.handlers.find? (fun h => msg.type = h.1) = none := by
  rw [List.find?_eq_none]
  intro h hh
  simpa using hnone h hh

/-- How the first message that is not ignored ends the waiting: the first handler for its type
runs, or `close_queue` is thrown. -/
def answer (throws : H → α → Option ε) (handlers : List (τ × H)) (self : Nat)
    (msg : Message τ α) : Exit ε × List (Event τ α H) :=
  match handlers.find? (fun h => msg.type = h.1) with
  | some h => (called throws h.2 msg.contents, [.consumed self msg, .ran h.2 msg.contents])
  | none => (.threw .close_queue, [.consumed self msg])

variable {self : Nat} {skipped rest : List (Message τ α)}

theorem waits_on (hskipped : ∀ x ∈ skipped, Ignores close_queue link.handlers x) :
    wait_and_dispatch close_queue throws self link (skipped ++ rest) =
      let r := wait_and_dispatch close_queue throws self link rest
      ⟨r.exit, skipped.map (.consumed self) ++ r.events, r.rest⟩ := by
  induction skipped with
  | nil => rfl
  | cons x xs ih =>
      obtain ⟨hclose, hnone⟩ := hskipped x List.mem_cons_self
      have hignored : (link.dispatch close_queue x : Dispatched H) = .ignored := by
        rw [dispatch_unhandled (find_none hnone), if_neg hclose]
      rw [List.cons_append, wait_and_dispatch, hignored,
        ih fun y hy => hskipped y (List.mem_cons_of_mem x hy)]
      rfl

/-- The waiting ends at the first message that is not ignored. -/
theorem waits_until (hskipped : ∀ x ∈ skipped, Ignores close_queue link.handlers x)
    (hmsg : ¬ Ignores close_queue link.handlers msg) :
    wait_and_dispatch close_queue throws self link (skipped ++ msg :: rest) =
      ⟨(answer throws link.handlers self msg).1,
        skipped.map (.consumed self) ++ (answer throws link.handlers self msg).2, rest⟩ := by
  rw [waits_on hskipped, wait_and_dispatch, answer]
  cases hfind : link.handlers.find? (fun h => msg.type = h.1) with
  | some h => rw [dispatch_handled hfind]
  | none =>
      have hclose : msg.type = close_queue := by
        by_contra hne
        refine hmsg ⟨hne, fun h hh => ?_⟩
        simpa using List.find?_eq_none.mp hfind h hh
      rw [dispatch_unhandled hfind, if_pos hclose]

omit [DecidableEq τ] in
/-- A queue is a part that is ignored, and the first message that is not. -/
theorem split_queue (close_queue : τ) (handlers : List (τ × H)) (queue : List (Message τ α)) :
    (∀ x ∈ queue, Ignores close_queue handlers x) ∨
      ∃ skipped msg rest, queue = skipped ++ msg :: rest ∧
        (∀ x ∈ skipped, Ignores close_queue handlers x) ∧ ¬ Ignores close_queue handlers msg := by
  induction queue with
  | nil => exact .inl nofun
  | cons x xs ih =>
      by_cases hx : Ignores close_queue handlers x
      · rcases ih with hall | ⟨skipped, msg, rest, rfl, hskipped, hmsg⟩
        · exact .inl (List.forall_mem_cons.mpr ⟨hx, hall⟩)
        · exact .inr ⟨x :: skipped, msg, rest, rfl, List.forall_mem_cons.mpr ⟨hx, hskipped⟩, hmsg⟩
      · exact .inr ⟨[], x, xs, rfl, nofun, hx⟩

end Dispatch

/-! ## The objects of a chain -/

/-- The last object made is the only one that is not chained. -/
structure Built (x : Expr τ H) (link : Link τ H) : Prop where
  last : ∃ addr below, x.temps = ⟨addr, link, false⟩ :: below ∧ addr + 1 = x.made ∧
    (∀ t ∈ below, t.chained = true ∧ t.addr < addr) ∧
    ∀ t ∈ x.moved, t.chained = true ∧ t.addr < addr

/-- The links of the chain. -/
def links (handles : List (Handle τ H)) : Link τ H :=
  handles.foldl (fun prev h => .TemplateDispatcher prev h.Msg h.f) .dispatcher

omit [DecidableEq τ] in
theorem Built.returns {x : Expr τ H}
    (htemps : ∀ t ∈ x.temps, t.chained = true ∧ t.addr < x.made)
    (hmoved : ∀ t ∈ x.moved, t.chained = true ∧ t.addr < x.made) (elided : Bool)
    (link : Link τ H) : Built (x.returns elided link) link := by
  cases elided with
  | true => exact ⟨x.made, x.temps, rfl, rfl, htemps, hmoved⟩
  | false =>
      refine ⟨x.made + 1, x.temps, rfl, rfl, fun t ht => ?_, fun t ht => ?_⟩
      · exact ⟨(htemps t ht).1, Nat.lt_succ_of_lt (htemps t ht).2⟩
      · rcases List.mem_append.mp ht with hold | hnew
        · exact ⟨(hmoved t hold).1, Nat.lt_succ_of_lt (hmoved t hold).2⟩
        · obtain rfl := List.mem_singleton.mp hnew
          exact ⟨rfl, Nat.lt_succ_self x.made⟩

omit [DecidableEq τ] in
theorem Built.handle {x : Expr τ H} {link : Link τ H} (hx : Built x link) (h : Handle τ H) :
    Built (x.handle h) (.TemplateDispatcher link h.Msg h.f) := by
  obtain ⟨addr, below, htemps, hmade, hbelow, hmoved⟩ := hx.last
  have hlt : ∀ {n}, n < addr → n < x.made := fun hn => by omega
  rw [Expr.handle, htemps]
  refine Built.returns (x := { x with temps := ⟨addr, link, true⟩ :: below }) ?_
    (fun t ht => ⟨(hmoved t ht).1, hlt (hmoved t ht).2⟩) h.elided _
  refine List.forall_mem_cons.mpr ⟨⟨rfl, ?_⟩, fun t ht => ⟨(hbelow t ht).1, hlt (hbelow t ht).2⟩⟩
  exact Nat.lt_of_succ_le (Nat.le_of_eq hmade)

omit [DecidableEq τ] in
theorem chain_built (elided : Bool) (handles : List (Handle τ H)) :
    Built (chain elided handles) (links handles) := by
  have hfold : ∀ (x : Expr τ H) (link : Link τ H), Built x link →
      Built (handles.foldl Expr.handle x)
        (handles.foldl (fun prev h => .TemplateDispatcher prev h.Msg h.f) link) := by
    induction handles with
    | nil => exact fun x link hx => hx
    | cons h hs ih => exact fun x link hx => ih _ _ (hx.handle h)
  have hnone : ∀ t ∈ ([] : List (Temp τ H)), t.chained = true ∧ t.addr < 0 := nofun
  exact hfold _ _ (Built.returns (x := {}) hnone hnone elided .dispatcher)

omit [DecidableEq τ] in
theorem links_handlers (handles : List (Handle τ H)) :
    (links handles).handlers = handles.reverse.map fun h => (h.Msg, h.f) := by
  have hfold : ∀ link : Link τ H,
      (handles.foldl (fun prev h => .TemplateDispatcher prev h.Msg h.f) link).handlers =
        (handles.reverse.map fun h => (h.Msg, h.f)) ++ link.handlers := by
    induction handles with
    | nil => exact fun link => rfl
    | cons h hs ih =>
        intro link
        rw [List.foldl_cons, ih, List.reverse_cons, List.map_append, List.append_assoc]
        rfl
  rw [links, hfold, Link.handlers, List.append_nil]

/-! ## The end of the expression -/

section Ends

variable {close_queue : τ} {throws : H → α → Option ε} {queue : List (Message τ α)}

/-- Chained objects do nothing at their end. -/
theorem destroy_chained {ts us : List (Temp τ H)} (hts : ∀ t ∈ ts, t.chained = true) :
    destroy close_queue throws (ts ++ us) queue = destroy close_queue throws us queue := by
  induction ts with
  | nil => rfl
  | cons t ts ih =>
      have ht : t.destructor close_queue throws queue = ⟨.returned, [], queue⟩ :=
        if_pos (hts t List.mem_cons_self)
      rw [List.cons_append, destroy, ht]
      dsimp only
      rw [ih fun u hu => hts u (List.mem_cons_of_mem t hu)]
      rfl

/-- Where the others are chained, the expression ends as the one object does. -/
theorem destroy_last (t : Temp τ H) {ts : List (Temp τ H)} (hts : ∀ u ∈ ts, u.chained = true) :
    destroy close_queue throws (t :: ts) queue = t.destructor close_queue throws queue := by
  have hrest : ∀ q, destroy close_queue throws ts q = (⟨.returned, [], q⟩ : Run τ α H ε) := by
    intro q
    rw [← List.append_nil ts, destroy_chained hts]
    rfl
  rw [destroy, hrest]
  cases hr : t.destructor close_queue throws queue with
  | mk exit events rest =>
      cases exit with
      | returned => simp
      | threw e => simp
      | waiting => rfl
      | terminated => rfl

/-- **A chain dispatches one message.** The object made last consumes what is ignored, and stops
at the first other message: the handler added last for its type runs, once, or `close_queue` is
thrown. No other object consumes anything, and what comes behind that message stays in the
queue. -/
theorem chain_dispatches_one (close_queue : τ) (throws : H → α → Option ε) (elided : Bool)
    (handles : List (Handle τ H)) (queue : List (Message τ α)) :
    let x := chain elided handles
    let handlers := handles.reverse.map fun h => (h.Msg, h.f)
    ∃ last, x.temps.head? = some last ∧ last.addr + 1 = x.made ∧
      (∀ t ∈ x.temps ++ x.moved, t.chained = false → t = last) ∧
      ((∀ m ∈ queue, Ignores close_queue handlers m) ∧
          x.ends close_queue throws queue = ⟨.waiting, queue.map (.consumed last.addr), []⟩ ∨
        ∃ skipped msg rest, queue = skipped ++ msg :: rest ∧
          (∀ m ∈ skipped, Ignores close_queue handlers m) ∧ ¬ Ignores close_queue handlers msg ∧
          x.ends close_queue throws queue =
            ⟨(answer throws handlers last.addr msg).1,
              skipped.map (.consumed last.addr) ++ (answer throws handlers last.addr msg).2,
              rest⟩) := by
  intro x handlers
  obtain ⟨addr, below, htemps, hmade, hbelow, hmoved⟩ := (chain_built elided handles).last
  have hends : x.ends close_queue throws queue =
      wait_and_dispatch close_queue throws addr (links handles) queue := by
    rw [Expr.ends, destroy_chained fun t ht => (hmoved t ht).1, htemps,
      destroy_last _ fun t ht => (hbelow t ht).1]
    rfl
  have hhandlers : (links handles).handlers = handlers := links_handlers handles
  refine ⟨⟨addr, links handles, false⟩, ?_, hmade, ?_, ?_⟩
  · rw [htemps, List.head?_cons]
  · intro t ht hfree
    rw [htemps, List.cons_append, List.mem_cons, List.mem_append] at ht
    rcases ht with rfl | ht | ht
    · rfl
    · exact absurd ((hbelow t ht).1.symm.trans hfree) Bool.noConfusion
    · exact absurd ((hmoved t ht).1.symm.trans hfree) Bool.noConfusion
  · rw [hends, ← hhandlers]
    rcases split_queue close_queue (links handles).handlers queue with hall |
      ⟨skipped, msg, rest, rfl, hskipped, hmsg⟩
    · refine .inl ⟨hall, ?_⟩
      have hwait : wait_and_dispatch close_queue throws addr (links handles) (queue ++ []) =
          ⟨.waiting, queue.map (.consumed addr) ++ [], []⟩ := waits_on hall
      rwa [List.append_nil, List.append_nil] at hwait
    · exact .inr ⟨skipped, msg, rest, rfl, hskipped, hmsg, waits_until hskipped hmsg⟩

end Ends

end BoostNet.Dispatcher
