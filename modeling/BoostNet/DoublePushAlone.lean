/-
`double_push_list` (Concurrent/day16-threadsafelist/tailpushlist.h), used by one thread: what
its operations do to the sequence of the values, and where they leave `last_node_ptr`.

The calls run in the model of `LockedList`, with all its steps; `Returns` is a call that goes
through them to its end, and `Calls` is one call after the other. `Call.apply` and
`Call.answer` are what a list would do.

`At` is the invariant of the loops: the thread is at a node of the chain and has locked that
node and no other. A pass goes on to the next node, takes it out, or puts one before it.

* `alone_refines`: any calls return, and whatever they leave is what a list would hold, with
  `last_node_ptr` at the end.
-/
import BoostNet.LockedList
import BoostNet.Heap
import Mathlib.Logic.Relation

set_option autoImplicit false

namespace BoostNet.DoublePushAlone

open Heap LockedList Relation

variable {ι T : Type*}

/-! ## A list -/

/-- `value` before the first element that satisfies `p`. -/
def insertBefore (p : T → Bool) (value : T) : List T → List T
  | [] => []
  | v :: vs => if p v then value :: v :: vs else v :: insertBefore p value vs

def apply : Call T → List T → List T
  | .push_front value, vs => value :: vs
  | .push_back value, vs => vs ++ [value]
  | .traverse .for_each, vs | .traverse (.find_first_if _), vs => vs
  | .traverse (.remove_if p), vs => vs.filter fun v => !p v
  | .traverse (.remove_first p), vs => vs.eraseP p
  | .traverse (.insert_if p value), vs => insertBefore p value vs

/-- What `for_each` visits, what `find_first_if` returns, and what `remove_first` has removed
(it returns whether there is such a value). -/
def answer : Call T → List T → List T
  | .traverse .for_each, vs => vs
  | .traverse (.find_first_if p), vs | .traverse (.remove_first p), vs => (vs.find? p).toList
  | _, _ => []

/-! ## Calls -/

section Calls

variable [DecidableEq ι]

def Step (i : ι) (s t : LockedList ι T) : Prop := step .double_push_list s (.run i) = some t

/-- A step that is not the last one of its call. -/
def Goes (i : ι) (s t : LockedList ι T) : Prop := Step i s t ∧ t.pc i ≠ .idle

/-- What the call returns, or has visited, at its last step. -/
def result (s : LockedList ι T) (i : ι) : List T :=
  match s.pc i with
  | .unlock .for_each _ _ => (s.visited i).filterMap s.data
  | .unlock (.find_first_if _) found _ | .unlock (.remove_first _) found _ => found.toList
  | _ => []

/-- The call that `i` is in goes on from `s` to its end in `t`. -/
def Returns (i : ι) (s : LockedList ι T) (r : List T) (t : LockedList ι T) : Prop :=
  ∃ u, ReflTransGen (Goes i) s u ∧ Step i u t ∧ t.pc i = .idle ∧ r = result u i

/-- Calls one after the other, each with what it returns. -/
inductive Calls (i : ι) : LockedList ι T → List (Call T × List T) → LockedList ι T → Prop
  | nil (s : LockedList ι T) : Calls i s [] s
  | cons {s s₁ t u : LockedList ι T} {c : Call T} {r : List T} {rest : List (Call T × List T)}
      (hcall : step .double_push_list s (.call i c) = some s₁) (hreturns : Returns i s₁ r t)
      (hrest : Calls i t rest u) : Calls i s ((c, r) :: rest) u

/-- Steps that lead to where the call returns are part of the call. -/
theorem Returns.of_goes {i : ι} {s u t : LockedList ι T} {r : List T}
    (hs : ReflTransGen (Goes i) s u) (h : Returns i u r t) : Returns i s r t := by
  obtain ⟨v, hv, hlast, hidle, hr⟩ := h
  exact ⟨v, hs.trans hv, hlast, hidle, hr⟩

/-- A call has one end. -/
theorem Returns.unique {i : ι} {s t t' : LockedList ι T} {r r' : List T} (h : Returns i s r t)
    (h' : Returns i s r' t') : r = r' ∧ t = t' := by
  obtain ⟨u, hu, hlast, hidle, rfl⟩ := h
  obtain ⟨u', hu', hlast', hidle', rfl⟩ := h'
  have hunique : Relator.RightUnique (Goes i (T := T)) := fun a b c hb hc =>
    Option.some.inj (hb.1.symm.trans hc.1)
  -- the state before the end goes nowhere else
  have hend : ∀ {a b c : LockedList ι T}, Step i a b → b.pc i = .idle →
      ReflTransGen (Goes i) a c → a = c := by
    intro a b c hab hb hac
    rcases ReflTransGen.cases_head hac with heq | ⟨d, had, -⟩
    · exact heq
    · obtain rfl : b = d := Option.some.inj (hab.symm.trans had.1)
      exact absurd hb had.2
  have hsame : u = u' := by
    rcases ReflTransGen.total_of_right_unique hunique hu hu' with hab | hba
    · exact hend hlast hidle hab
    · exact (hend hlast' hidle' hba).symm
  subst hsame
  exact ⟨rfl, Option.some.inj (hlast.symm.trans hlast')⟩

end Calls

/-! ## What holds between two calls -/

/-- The nodes `c`, from the head on, with `last_node_ptr` at the last one. -/
structure Chain (s : LockedList ι T) (c : List Nat) : Prop where
  path : Path s.next (some 0) c none
  nodup : c.Nodup
  live : ∀ a ∈ c, s.live a = true
  old : ∀ a ∈ c, a < s.count
  last : c.getLast? = some s.last_node_ptr

/-- The mutexes of the nodes `as` are locked by `i`, the others free. -/
def holding (i : ι) (as : List Nat) : Nat → Option ι := fun a => if a ∈ as then some i else none

structure Rep (i : ι) (s : LockedList ι T) (vs : List T) (l : List Nat) : Prop where
  chain : Chain s (0 :: l)
  data : l.map s.data = vs.map some
  idle : s.pc i = .idle
  m : s.m = holding i []
  last_ptr_mtx : s.last_ptr_mtx = none

/-- Nothing but the mutexes and the place of the thread has changed. -/
structure Keeps (s t : LockedList ι T) : Prop where
  next : t.next = s.next
  data : t.data = s.data
  live : t.live = s.live
  count : t.count = s.count
  last_node_ptr : t.last_node_ptr = s.last_node_ptr

/-- What does not touch the nodes of the list leaves it as it is. -/
theorem Chain.keeps {s t : LockedList ι T} {c : List Nat} (h : Chain s c) (hk : Keeps s t) :
    Chain t c where
  path := hk.next ▸ h.path
  nodup := h.nodup
  live := hk.live ▸ h.live
  old := hk.count ▸ h.old
  last := hk.last_node_ptr ▸ h.last

theorem Chain.head_mem {s : LockedList ι T} {c : List Nat} (h : Chain s c) : 0 ∈ c :=
  h.path.head_mem

/-- The next allocation is of a node outside the chain. -/
theorem Chain.count_not_mem {s : LockedList ι T} {c : List Nat} (h : Chain s c) : s.count ∉ c :=
  fun hc => Nat.lt_irrefl _ (h.old _ hc)

section Steps

variable {i : ι} {s t : LockedList ι T}

/-- `i` has locked the mutex of `a`. -/
def take (s : LockedList ι T) (i : ι) (a : Nat) : LockedList ι T :=
  { s with m := Function.update s.m a (some i) }

@[simp] theorem live_new_node {value : T} {a : Nat} :
    (s.new_node value).live a = true ↔ a = s.count ∨ s.live a = true := by
  by_cases ha : a = s.count <;> simp [new_node, ha]

@[simp] theorem live_take {a b : Nat} : (take s i a).live b = s.live b := rfl

@[simp] theorem live_set_next {a b : Nat} {c : Option Nat} :
    (s.set_next a c).live b = s.live b := rfl

/-- The list with the new node in front. -/
def front (s : LockedList ι T) (i : ι) (value : T) : LockedList ι T :=
  { ((take (s.new_node value) i 0).set_next s.count (s.next 0)).set_next 0 (some s.count) with
    pushed := s.count :: s.pushed }

/-- The list that `push_front` leaves. -/
theorem rep_front {vs : List T} {l : List Nat} (h : Rep i s vs l) {value : T}
    (hnext : t.next = (front s i value).next) (hdata : t.data = (front s i value).data)
    (hlive : t.live = (front s i value).live) (hcount : t.count = s.count + 1)
    (hm : t.m = Function.update (front s i value).m 0 none) (hmtx : t.last_ptr_mtx = none)
    (hidle : t.pc i = .idle) (hlast : (0 :: s.count :: l).getLast? = some t.last_node_ptr) :
    Rep i t (value :: vs) (s.count :: l) := by
  have hnot := h.chain.count_not_mem
  rw [List.mem_cons, not_or] at hnot
  obtain ⟨h0, hnot⟩ := hnot
  have hnodup := h.chain.nodup
  rw [List.nodup_cons] at hnodup
  have hpath := h.chain.path
  rw [path_cons] at hpath
  refine ⟨⟨?_, ?_, ?_, ?_, hlast⟩, ?_, hidle, ?_, hmtx⟩
  · have hhead : t.next 0 = some s.count := by
      simp [hnext, front, set_next]
    have hnew : t.next s.count = s.next 0 := by
      simp [hnext, front, set_next, h0, Function.update_of_ne]
    have hrest : ∀ a ∈ l, t.next a = s.next a := by
      intro a ha
      have ha0 : a ≠ 0 := fun heq => hnodup.1 (heq ▸ ha)
      have han : a ≠ s.count := fun heq => hnot (heq ▸ ha)
      simp [hnext, front, set_next, take, new_node, ha0, han, Function.update_of_ne]
    rw [path_cons, path_cons, hhead, hnew]
    exact ⟨rfl, rfl, hpath.2.congr hrest⟩
  · refine List.nodup_cons.mpr ⟨?_, List.nodup_cons.mpr ⟨hnot, hnodup.2⟩⟩
    rw [List.mem_cons, not_or]
    exact ⟨Ne.symm h0, hnodup.1⟩
  · intro a ha
    rw [hlive]
    change (s.new_node value).live a = true
    rw [live_new_node]
    rcases List.mem_cons.mp ha with rfl | ha
    · exact Or.inr (h.chain.live 0 List.mem_cons_self)
    · rcases List.mem_cons.mp ha with rfl | ha
      · exact Or.inl rfl
      · exact Or.inr (h.chain.live a (List.mem_cons_of_mem _ ha))
  · intro a ha
    rw [hcount]
    have hpos : 0 < s.count := Nat.pos_of_ne_zero h0
    rcases List.mem_cons.mp ha with rfl | ha
    · omega
    · rcases List.mem_cons.mp ha with rfl | ha
      · omega
      · have hlt := h.chain.old a (List.mem_cons_of_mem _ ha)
        omega
  · rw [List.map_cons, List.map_cons, hdata, ← h.data]
    congr 1
    · simp [front, set_next, take, new_node]
    · refine List.map_congr_left fun a ha => ?_
      have han : a ≠ s.count := fun heq => hnot (heq ▸ ha)
      simp [front, set_next, take, new_node, han, Function.update_of_ne]
  · rw [hm]
    funext a
    simp [front, set_next, take, new_node, holding, h.m, Function.update_apply]

/-- The list with the new node at its end `p`. -/
def back (s : LockedList ι T) (i : ι) (value : T) (p : Nat) : LockedList ι T :=
  { (take (s.new_node value) i p).set_next p (some s.count) with
    last_node_ptr := s.count
    last_ptr_mtx := none
    pushed := s.count :: s.pushed }

variable [DecidableEq ι]

@[simp] theorem goto_pc {p : Pc T} : (s.goto i p).pc i = p := by
  simp only [goto, Function.update_self]

/-- A step from `p` to `q`. The states are written as what they are apart from the place of
the thread. -/
theorem step_goto {p q : Pc T} (hlive : ∀ a ∈ p.derefs, s.live a = true)
    (hrun : run_step .double_push_list (s.goto i p) i = some (t.goto i q)) :
    Step i (s.goto i p) (t.goto i q) := by
  have hlive' : ∀ a ∈ p.derefs, (s.goto i p).live a = true := hlive
  rw [Step, LockedList.step, goto_pc, if_pos hlive', hrun]

theorem goes_goto {p q : Pc T} (hlive : ∀ a ∈ p.derefs, s.live a = true)
    (hrun : run_step .double_push_list (s.goto i p) i = some (t.goto i q)) (hq : q ≠ .idle) :
    Goes i (s.goto i p) (t.goto i q) :=
  ⟨step_goto hlive hrun, by rwa [goto_pc]⟩

theorem lock_goto {p q : Pc T} {a : Nat} (hfree : s.m a = none) :
    (s.goto i p).lock i a ((s.goto i p).goto i q) = some ((take s i a).goto i q) := by
  rw [lock, if_pos (show (s.goto i p).m a = none from hfree)]
  simp only [goto, take, Function.update_idem]

/-! ## `push_front` and `push_back` -/

/-- Where `last_node_ptr` is to point. -/
def target (s : LockedList ι T) : After T → Option Nat
  | .push _ => s.next 0
  | .remove _ cur _ => some cur

/-- `last_node_ptr` is set under its mutex. -/
theorem run_last {k : After T} {e : Nat} (hmtx : s.last_ptr_mtx = none)
    (hlive : s.live 0 = true) (he : target s k = some e) :
    ReflTransGen (Goes i) (s.goto i (.last_lock k))
      ({ s with last_node_ptr := e, last_ptr_mtx := none }.goto i k.rest) := by
  refine .head (goes_goto (t := { s with last_ptr_mtx := some i }) (q := .last_set k) ?_ ?_ ?_) ?_
  · simp [Pc.derefs]
  · simp [run_step, goto, hmtx]
  · simp
  refine .head (goes_goto (t := { s with last_ptr_mtx := some i, last_node_ptr := e })
    (q := .last_unlock k) ?_ ?_ ?_) ?_
  · cases k <;> simp [Pc.derefs, hlive]
  · cases k with
    | push n =>
        have hnext : s.next 0 = some e := he
        simp [run_step, goto, hnext]
    | remove op cur nxt =>
        have hcur : cur = e := Option.some.inj he
        simp [run_step, goto, hcur]
  · simp
  refine .single (goes_goto ?_ ?_ ?_)
  · simp [Pc.derefs]
  · simp [run_step, goto]
  · cases k <;> simp [After.rest]

theorem call_eq {c : Call T} {p : Pc T} (hidle : s.pc i = .idle)
    (hstart : c.start .double_push_list = some p) :
    step .double_push_list s (.call i c) = some (s.goto i p) := by
  simp [LockedList.step, hidle, hstart]

/-- `push_front` up to the look at what is behind the new node. -/
theorem run_front (value : T) (hlive : s.live 0 = true) (h0 : s.count ≠ 0) (hfree : s.m 0 = none) :
    ReflTransGen (Goes i) (s.goto i (.new_front value))
      ((front s i value).goto i (.front_last s.count)) := by
  refine .head (goes_goto (t := s.new_node value) (q := .front_lock s.count) ?_ ?_ ?_) ?_
  · simp [Pc.derefs]
  · simp [run_step, goto, new_node]
  · simp
  refine .head (goes_goto (t := take (s.new_node value) i 0) (q := .front_next s.count) ?_ ?_ ?_) ?_
  · simp [Pc.derefs, hlive]
  · simp only [run_step, goto_pc]
    exact lock_goto (by simpa [new_node, h0.symm, Function.update_of_ne] using hfree)
  · simp
  refine .head (goes_goto (t := ((take (s.new_node value) i 0).set_next s.count
    (s.next 0)).set_next 0 none) (q := .front_head s.count) ?_ ?_ ?_) ?_
  · simp [Pc.derefs, hlive]
  · simp [run_step, goto, set_next, take, new_node, h0.symm, Function.update_of_ne]
  · simp
  refine .single (goes_goto ?_ ?_ ?_)
  · simp [Pc.derefs, hlive]
  · simp [run_step, goto, set_next, take, new_node, front]
  · simp

/-- `push_front` returns. -/
theorem front_returns (hlive : s.live 0 = true) :
    Returns i (s.goto i .front_unlock) [] ((s.unlock_m 0).goto i .idle) := by
  refine ⟨_, .refl, step_goto ?_ ?_, goto_pc, ?_⟩
  · simp [Pc.derefs, hlive]
  · simp [run_step, goto, unlock_m]
  · simp [result]

/-- `push_front` returns, with the value in front of the others. Where the list was empty it has
made `last_node_ptr` point to the new node. -/
theorem push_front_spec {vs : List T} {l : List Nat} (h : Rep i s vs l) (value : T) :
    ∃ s₁ t, step .double_push_list s (.call i (.push_front value)) = some s₁ ∧
      Returns i s₁ [] t ∧ Rep i t (value :: vs) (s.count :: l) := by
  have hlive := h.chain.live 0 List.mem_cons_self
  have h0 : s.count ≠ 0 := Nat.ne_of_gt (h.chain.old 0 List.mem_cons_self)
  have hfree : s.m 0 = none := by rw [h.m]; rfl
  have hpath := h.chain.path
  rw [path_cons] at hpath
  have hhead : (front s i value).next 0 = some s.count := by simp [front, set_next]
  have hnew : (front s i value).next s.count = s.next 0 := by
    simp [front, set_next, h0, Function.update_of_ne]
  have hlive' : ∀ a ∈ (Pc.front_last s.count : Pc T).derefs, (front s i value).live a = true := by
    simp [Pc.derefs, front, hlive]
  have hgo := run_front (i := i) value hlive h0 hfree
  cases l with
  | nil =>
      -- the node is the last one
      have hend : s.next 0 = none := (path_nil.mp hpath.2)
      have hlast : run_step .double_push_list ((front s i value).goto i (.front_last s.count)) i =
          some ((front s i value).goto i (.last_lock (.push s.count))) := by
        simp only [run_step, goto_pc]
        change Option.map _ ((front s i value).next 0) = _
        rw [hhead, Option.map_some, if_pos (show ((front s i value).goto i _).next s.count = none
          from hnew.trans hend)]
        simp [goto]
      have hset := run_last (i := i) (s := front s i value) (k := .push s.count) (e := s.count)
        h.last_ptr_mtx (by simpa [front] using Or.inr hlive) hhead
      refine ⟨_, _, call_eq h.idle rfl, Returns.of_goes
        ((hgo.tail (goes_goto hlive' hlast (by simp))).trans hset) (front_returns ?_),
        rep_front h rfl rfl rfl rfl rfl rfl goto_pc rfl⟩
      simpa [front] using Or.inr hlive
  | cons a l =>
      have hend : s.next 0 = some a := (path_cons.mp hpath.2).1
      have hnot : run_step .double_push_list ((front s i value).goto i (.front_last s.count)) i =
          some ((front s i value).goto i .front_unlock) := by
        simp only [run_step, goto_pc]
        change Option.map _ ((front s i value).next 0) = _
        rw [hhead, Option.map_some, if_neg (show ((front s i value).goto i _).next s.count ≠ none
          from by rw [show ((front s i value).goto i _).next s.count = some a from hnew.trans hend]
                  simp)]
        simp [goto]
      refine ⟨_, _, call_eq h.idle rfl, Returns.of_goes
        (hgo.tail (goes_goto hlive' hnot (by simp))) (front_returns ?_),
        rep_front h rfl rfl rfl rfl rfl h.last_ptr_mtx goto_pc ?_⟩
      · simpa [front] using Or.inr hlive
      · rw [List.getLast?_cons_cons, List.getLast?_cons_cons, ← List.getLast?_cons_cons (a := 0)]
        exact h.chain.last

/-- `push_back` runs to its end where `last_node_ptr` is free and has nothing behind it. -/
theorem back_returns {value : T} {p : Nat} (hp : s.last_node_ptr = p) (hlive : s.live p = true)
    (hne : p ≠ s.count) (hnext : s.next p = none) (hfree : s.m p = none)
    (hmtx : s.last_ptr_mtx = none) :
    Returns i (s.goto i (.new_back value)) [] (((back s i value p).unlock_m p).goto i .idle) := by
  refine ⟨(back s i value p).goto i (.back_unlock p p), ?_, step_goto ?_ ?_, goto_pc, ?_⟩
  · refine .head (goes_goto (t := s.new_node value) (q := .back_read s.count) ?_ ?_ ?_) ?_
    · simp [Pc.derefs]
    · simp [run_step, goto, new_node]
    · simp
    refine .head (goes_goto (t := s.new_node value) (q := .back_lock s.count p) ?_ ?_ ?_) ?_
    · simp [Pc.derefs]
    · simp [run_step, goto, new_node, hp]
    · simp
    -- `std::lock` of both, and the pointer is read again
    refine .head (goes_goto (t := { take (s.new_node value) i p with last_ptr_mtx := some i })
      (q := .back_adopt s.count p) ?_ ?_ ?_) ?_
    · simp [Pc.derefs, hlive]
    · simp [run_step, goto, new_node, lock, take, hmtx, hne, hfree, Function.update_of_ne]
    · simp
    refine .head (goes_goto (t := { take (s.new_node value) i p with last_ptr_mtx := some i })
      (q := .back_next s.count p p) ?_ ?_ ?_) ?_
    · simp [Pc.derefs]
    · simp [run_step, goto, new_node, take, hp]
    · simp
    refine .head (goes_goto (t := { (take (s.new_node value) i p).set_next p (some s.count) with
      last_ptr_mtx := some i, pushed := s.count :: s.pushed })
      (q := .back_last s.count p p) ?_ ?_ ?_) ?_
    · simp [Pc.derefs, hlive]
    · simp [run_step, goto, new_node, take, set_next, hne, hnext, Function.update_of_ne]
    · simp
    refine .head (goes_goto (t := { back s i value p with last_ptr_mtx := some i })
      (q := .back_unlock_last p p) ?_ ?_ ?_) (.single (goes_goto ?_ ?_ ?_))
    · simp [Pc.derefs, hlive]
    · simp [run_step, goto, new_node, take, set_next, back]
    · simp
    · simp [Pc.derefs]
    · simp [run_step, goto, back]
    · simp
  · simp [Pc.derefs, back, hlive]
  · simp [run_step, goto, unlock_m]
  · simp [result]

/-- `push_back` returns, with the value behind the others. This needs that `last_node_ptr` is the
last node, which every call leaves so. -/
theorem push_back_spec {vs : List T} {l : List Nat} (h : Rep i s vs l) (value : T) :
    ∃ s₁ t, step .double_push_list s (.call i (.push_back value)) = some s₁ ∧
      Returns i s₁ [] t ∧ Rep i t (vs ++ [value]) (l ++ [s.count]) := by
  obtain ⟨hpath, hnodup, hlive, hold, hlast⟩ := h.chain
  have hmem : s.last_node_ptr ∈ 0 :: l := List.mem_of_getLast? hlast
  obtain ⟨pre, hpre⟩ := List.getLast?_eq_some_iff.mp hlast
  have hnot := h.chain.count_not_mem
  have hne : s.last_node_ptr ≠ s.count := fun heq => hnot (heq ▸ hmem)
  have hfree : s.m s.last_node_ptr = none := by rw [h.m]; rfl
  rw [hpre, path_concat] at hpath
  refine ⟨_, _, call_eq h.idle rfl, back_returns rfl (hlive _ hmem) hne hpath.2 hfree
    h.last_ptr_mtx, ⟨?_, ?_, ?_, ?_, ?_⟩, ?_, goto_pc, ?_, rfl⟩
  · -- the path up to the old last node is as it was
    change Path (back s i value s.last_node_ptr).next (some 0) (0 :: (l ++ [s.count])) none
    have hlastnext : (back s i value s.last_node_ptr).next s.last_node_ptr = some s.count := by
      simp [back, set_next]
    have hnew : (back s i value s.last_node_ptr).next s.count = none := by
      simp [back, set_next, take, new_node, hne.symm, Function.update_of_ne]
    rw [← List.cons_append, hpre, path_concat, path_concat]
    refine ⟨⟨hpath.1.congr fun a ha => ?_, hlastnext⟩, hnew⟩
    have hal : a ≠ s.last_node_ptr := by
      rintro rfl
      rw [hpre, List.nodup_append] at hnodup
      exact hnodup.2.2 _ ha _ (List.mem_singleton_self _) rfl
    have han : a ≠ s.count := by
      rintro rfl
      exact hnot (hpre ▸ List.mem_append_left _ ha)
    simp [back, set_next, take, new_node, hal, han, Function.update_of_ne]
  · rw [← List.cons_append, List.nodup_append]
    refine ⟨hnodup, List.nodup_singleton _, ?_⟩
    rintro a ha b hb rfl
    exact hnot (List.mem_singleton.mp hb ▸ ha)
  · intro a ha
    change (s.new_node value).live a = true
    rw [live_new_node]
    rw [← List.cons_append, List.mem_append, List.mem_singleton] at ha
    rcases ha with ha | rfl
    · exact Or.inr (hlive a ha)
    · exact Or.inl rfl
  · intro a ha
    change a < s.count + 1
    rw [← List.cons_append, List.mem_append, List.mem_singleton] at ha
    rcases ha with ha | rfl
    · exact Nat.lt_succ_of_lt (hold a ha)
    · exact Nat.lt_succ_self _
  · rw [← List.cons_append, List.getLast?_concat]
    rfl
  · rw [List.map_append, List.map_append, ← h.data]
    congr 1
    · refine List.map_congr_left fun a ha => ?_
      have han : a ≠ s.count := fun heq => hnot (heq ▸ List.mem_cons_of_mem _ ha)
      simp [goto, unlock_m, back, set_next, take, new_node, han, Function.update_of_ne]
    · simp [goto, unlock_m, back, set_next, take, new_node]
  · funext a
    simp [goto, unlock_m, back, set_next, take, new_node, holding, h.m, Function.update_apply]

/-! ## The loops -/

/-- The thread is at `cur` in the chain `pre ++ cur :: post`, and has locked that node. -/
structure At (i : ι) (s : LockedList ι T) (pre : List Nat) (cur : Nat) (post : List Nat) :
    Prop where
  chain : Chain s (pre ++ cur :: post)
  m : s.m = holding i [cur]
  last_ptr_mtx : s.last_ptr_mtx = none

/-- The call is over, and the chain is `c`. -/
structure Rest (i : ι) (t : LockedList ι T) (c : List Nat) : Prop where
  chain : Chain t c
  idle : t.pc i = .idle
  m : t.m = holding i []
  last_ptr_mtx : t.last_ptr_mtx = none

section At

omit [DecidableEq ι]

variable {pre post : List Nat} {cur nxt : Nat}

/-- The node a traversal stands on is there. -/
theorem At.live (h : At i s pre cur post) : s.live cur = true :=
  h.chain.live cur (List.mem_append_right _ List.mem_cons_self)

/-- So is the one it goes to next. -/
theorem At.live_next (h : At i s pre cur (nxt :: post)) : s.live nxt = true :=
  h.chain.live nxt (List.mem_append_right _ (List.mem_cons_of_mem _ List.mem_cons_self))

/-- These are two nodes: no node is in the list twice. -/
theorem At.ne (h : At i s pre cur (nxt :: post)) : nxt ≠ cur := by
  have hnodup := (List.nodup_append.mp h.chain.nodup).2.1
  rintro rfl
  exact (List.nodup_cons.mp hnodup).1 List.mem_cons_self

/-- What a traversal reads in `next` is what the list has there. -/
theorem At.next_eq (h : At i s pre cur post) : s.next cur = post.head? := by
  obtain ⟨r, -, -, hpost⟩ := path_append.mp h.chain.path
  cases post with
  | nil => exact path_nil.mp hpost
  | cons a rest => exact (path_cons.mp hpost).1

theorem At.next_next (h : At i s pre cur (nxt :: post)) : s.next nxt = post.head? := by
  obtain ⟨r, -, -, hpost⟩ := path_append.mp h.chain.path
  rw [path_cons] at hpost
  cases post with
  | nil => exact path_nil.mp hpost.2
  | cons a rest => exact (path_cons.mp hpost.2).1

theorem At.live_head (h : At i s pre cur post) : s.live 0 = true :=
  h.chain.live 0 h.chain.head_mem

/-- Nobody else holds a node, so the next lock does not wait. -/
theorem At.free_next (h : At i s pre cur (nxt :: post)) : s.m nxt = none := by
  have hne := h.ne
  simp [h.m, holding, hne]

/-- The thread goes on to the next node. -/
theorem At.advance (h : At i s pre cur (nxt :: post)) (hk : Keeps s t)
    (hm : t.m = Function.update (Function.update s.m nxt (some i)) cur none)
    (hmtx : t.last_ptr_mtx = none) : At i t (pre ++ [cur]) nxt post where
  chain := by
    rw [List.append_assoc]
    exact h.chain.keeps hk
  m := by
    have hne := h.ne
    funext a
    by_cases hc : a = cur
    · simp [hm, hc, holding, hne.symm]
    · by_cases hn : a = nxt <;> simp [hm, h.m, hc, hn, holding, hne]
  last_ptr_mtx := hmtx

end At

/-- The next node is locked. -/
theorem run_locked {pre post : List Nat} {cur nxt : Nat} {op : Op T}
    (h : At i s pre cur (nxt :: post)) :
    ReflTransGen (Goes i) (s.goto i (.next op cur))
      ((take s i nxt).goto i (.locked op cur nxt)) := by
  have hnext := h.next_eq
  refine .head (goes_goto (t := s) (q := .next_lock op cur nxt) ?_ ?_ ?_)
    (.single (goes_goto ?_ ?_ ?_))
  · simp [Pc.derefs, h.live]
  · simp [run_step, goto, hnext]
  · simp
  · simp [Pc.derefs, h.live_next]
  · simp only [run_step, goto_pc]
    exact lock_goto h.free_next
  · simp

/-- `next_lk` becomes `lk`: the predicate is false, and the thread goes on. -/
theorem run_pass {pre post : List Nat} {cur nxt : Nat} {op : Op T} {v : T}
    (h : At i s pre cur (nxt :: post)) (hdata : s.data nxt = some v)
    (hop : match op with
      | .remove_if p | .remove_first p | .insert_if p _ => p v = false
      | .for_each | .find_first_if _ => False) :
    ReflTransGen (Goes i) (s.goto i (.next op cur))
      (((take s i nxt).unlock_m cur).goto i (.next op nxt)) := by
  refine (run_locked h).trans (.head (goes_goto (t := take s i nxt) (q := .pass op cur nxt)
    ?_ ?_ ?_) (.single (goes_goto ?_ ?_ ?_)))
  · simp [Pc.derefs, h.live, h.live_next]
  · cases op with
    | for_each => exact hop.elim
    | find_first_if p => exact hop.elim
    | remove_if p =>
        have hp : p v = false := hop
        simp [run_step, locked_step, goto, take, hdata, hp]
    | remove_first p =>
        have hp : p v = false := hop
        simp [run_step, locked_step, goto, take, hdata, hp]
    | insert_if p value =>
        have hp : p v = false := hop
        simp [run_step, locked_step, goto, take, hdata, hp]
  · simp
  · simp [Pc.derefs, h.live]
  · simp [run_step, goto, unlock_m]
  · simp

/-- The guard of the last node is destroyed. -/
theorem unlock_returns {pre post : List Nat} {cur : Nat} (op : Op T) (found : Option T)
    (h : At i s pre cur post) :
    ∃ t, Returns i (s.goto i (.unlock op found cur))
        (result (s.goto i (.unlock op found cur)) i) t ∧
      Rest i t (pre ++ cur :: post) ∧ t.data = s.data := by
  refine ⟨(s.unlock_m cur).goto i .idle, ⟨_, .refl, step_goto ?_ ?_, goto_pc, rfl⟩,
    ⟨h.chain.keeps ⟨rfl, rfl, rfl, rfl, rfl⟩, goto_pc, ?_, h.last_ptr_mtx⟩, rfl⟩
  · simp [Pc.derefs, h.live]
  · simp [run_step, goto, unlock_m]
  · funext a
    by_cases hc : a = cur <;> simp [goto, unlock_m, h.m, holding, hc]

/-- The loop is left at the end of the list. -/
theorem end_returns {pre : List Nat} {cur : Nat} (op : Op T) (h : At i s pre cur []) :
    ∃ t, Returns i (s.goto i (.next op cur)) (result (s.goto i (.unlock op none cur)) i) t ∧
      Rest i t (pre ++ [cur]) ∧ t.data = s.data := by
  obtain ⟨t, hreturns, hrest, hdata⟩ := unlock_returns op none h
  refine ⟨t, hreturns.of_goes (.single (goes_goto ?_ ?_ ?_)), hrest, hdata⟩
  · simp [Pc.derefs, h.live]
  · have hnext := h.next_eq
    simp [run_step, goto, hnext]
  · simp

/-! ### `for_each` and `find_first_if` -/

/-- `nxt` is the only node locked, and its value has been given to `f`. -/
def seen (s : LockedList ι T) (i : ι) (cur nxt : Nat) : LockedList ι T :=
  { (take s i nxt).unlock_m cur with
    visited := Function.update s.visited i (s.visited i ++ [nxt]) }

omit [DecidableEq ι] in
/-- The values of the nodes ahead begin with that of the next one. -/
theorem data_cons {nxt : Nat} {post : List Nat} {vs : List T}
    (hdata : (nxt :: post).map s.data = vs.map some) :
    ∃ v vs', vs = v :: vs' ∧ s.data nxt = some v ∧ post.map s.data = vs'.map some := by
  cases vs with
  | nil => simp at hdata
  | cons v vs =>
      rw [List.map_cons, List.map_cons, List.cons.injEq] at hdata
      exact ⟨v, vs, rfl, hdata.1, hdata.2⟩

/-- `for_each` gives each value to `f`, in the order of the list, and changes nothing. By induction
on what is before it. -/
theorem for_each_traverse {post : List Nat} {vs : List T} {pre : List Nat} {cur : Nat}
    (h : At i s pre cur post) (hdata : post.map s.data = vs.map some) :
    ∃ t, Returns i (s.goto i (.next .for_each cur)) ((s.visited i).filterMap s.data ++ vs) t ∧
      Rest i t (pre ++ cur :: post) ∧ t.data = s.data := by
  induction post generalizing s pre cur vs with
  | nil =>
      obtain rfl : vs = [] := by simpa using hdata.symm
      rw [List.append_nil]
      simpa [result, goto] using end_returns .for_each h
  | cons nxt post ih =>
      obtain ⟨v, vs, rfl, hv, hdata⟩ := data_cons hdata
      -- the node is unlocked behind the thread, and its value given to `f`
      have hat : At i (seen s i cur nxt) (pre ++ [cur]) nxt post :=
        h.advance ⟨rfl, rfl, rfl, rfl, rfl⟩ rfl h.last_ptr_mtx
      obtain ⟨t, hreturns, hrest, hsame⟩ := ih hat hdata
      refine ⟨t, ?_, by simpa using hrest, hsame⟩
      have hvisited : ((seen s i cur nxt).visited i).filterMap (seen s i cur nxt).data ++ vs =
          (s.visited i).filterMap s.data ++ v :: vs := by
        simp [seen, take, unlock_m, List.filterMap_append, hv]
      rw [hvisited] at hreturns
      refine Returns.of_goes ((run_locked h).trans (.head
        (goes_goto (t := (take s i nxt).unlock_m cur) (q := .visit .for_each nxt) ?_ ?_ ?_)
        (.single (goes_goto ?_ ?_ ?_)))) hreturns
      · simp [Pc.derefs, h.live, h.live_next]
      · simp [run_step, locked_step, goto, unlock_m]
      · simp
      · simp [Pc.derefs, unlock_m, h.live_next]
      · simp [run_step, visit_step, goto, unlock_m, take, seen, hv]
      · simp

/-- `find_first_if` returns the first value that fits, and changes nothing. -/
theorem find_first_if_spec {p : T → Bool} {post : List Nat} {vs : List T} {pre : List Nat}
    {cur : Nat} (h : At i s pre cur post) (hdata : post.map s.data = vs.map some) :
    ∃ t, Returns i (s.goto i (.next (.find_first_if p) cur)) (vs.find? p).toList t ∧
      Rest i t (pre ++ cur :: post) ∧ t.data = s.data := by
  induction post generalizing s pre cur vs with
  | nil =>
      obtain rfl : vs = [] := by simpa using hdata.symm
      simpa [result, goto] using end_returns (.find_first_if p) h
  | cons nxt post ih =>
      obtain ⟨v, vs, rfl, hv, hdata⟩ := data_cons hdata
      have hat : At i ((take s i nxt).unlock_m cur) (pre ++ [cur]) nxt post :=
        h.advance ⟨rfl, rfl, rfl, rfl, rfl⟩ rfl h.last_ptr_mtx
      have hgo : ReflTransGen (Goes i) (s.goto i (.next (.find_first_if p) cur))
          (((take s i nxt).unlock_m cur).goto i (.visit (.find_first_if p) nxt)) := by
        refine (run_locked h).tail (goes_goto ?_ ?_ ?_)
        · simp [Pc.derefs, h.live, h.live_next]
        · simp [run_step, locked_step, goto, unlock_m]
        · simp
      have hvisit : ∀ a ∈ (Pc.visit (.find_first_if p) nxt : Pc T).derefs,
          ((take s i nxt).unlock_m cur).live a = true := by
        simp [Pc.derefs, unlock_m, h.live_next]
      cases hp : p v with
      | true =>
          obtain ⟨t, hreturns, hrest, hsame⟩ :=
            unlock_returns (.find_first_if p) (some v) hat
          refine ⟨t, ?_, by simpa using hrest, hsame⟩
          rw [List.find?_cons_of_pos hp]
          refine Returns.of_goes (hgo.tail (goes_goto hvisit ?_ ?_)) (by
            simpa [result, goto] using hreturns)
          · simp [run_step, visit_step, goto, unlock_m, take, hv, hp]
          · simp
      | false =>
          obtain ⟨t, hreturns, hrest, hsame⟩ := ih hat hdata
          refine ⟨t, ?_, by simpa using hrest, hsame⟩
          rw [List.find?_cons_of_neg (by simp [hp])]
          refine Returns.of_goes (hgo.tail (goes_goto hvisit ?_ ?_)) hreturns
          · simp [run_step, visit_step, goto, unlock_m, take, hv, hp]
          · simp

/-! ### `remove_if` and `remove_first` -/

/-- What follows the removal of a node with the value `v`. -/
def removed (op : Op T) (v : T) (cur : Nat) : Pc T :=
  match op with
  | .remove_first _ => .unlock op (some v) cur
  | _ => .next op cur

omit [DecidableEq ι] in
/-- The chain without the node behind `cur`. -/
theorem At.remove {pre post : List Nat} {cur nxt : Nat} (h : At i s pre cur (nxt :: post))
    (hnext : t.next cur = s.next nxt) (hrest : ∀ c, c ≠ cur → c ≠ nxt → t.next c = s.next c)
    (hlive : ∀ c, c ≠ nxt → t.live c = s.live c) (hcount : t.count = s.count) (hm : t.m = s.m)
    (hmtx : t.last_ptr_mtx = none)
    (hlast : t.last_node_ptr = if post = [] then cur else s.last_node_ptr) :
    At i t pre cur post where
  chain := by
    have hnodup := h.chain.nodup
    have hsub : (pre ++ cur :: post).Sublist (pre ++ cur :: nxt :: post) :=
      (List.Sublist.refl pre).append ((List.sublist_cons_self nxt post).cons_cons cur)
    have hnot : nxt ∉ pre ++ cur :: post := by
      have hperm := perm_behind pre post cur nxt
      exact (List.nodup_cons.mp (hperm.nodup_iff.mp hnodup)).1
    refine ⟨h.chain.path.remove_after hnodup hnext hrest, hnodup.sublist hsub, ?_, ?_, ?_⟩
    · intro a ha
      rw [hlive a fun heq => hnot (heq ▸ ha)]
      exact h.chain.live a (hsub.subset ha)
    · intro a ha
      rw [hcount]
      exact h.chain.old a (hsub.subset ha)
    · rw [hlast]
      have hold := h.chain.last
      cases post with
      | nil => simp
      | cons a rest =>
          rw [if_neg (List.cons_ne_nil _ _)]
          rw [← hold, List.getLast?_append, List.getLast?_append]
          simp [List.getLast?_cons_cons]
  m := hm.trans h.m
  last_ptr_mtx := hmtx

/-- `nxt`, locked, is not in the list any more. -/
def relinked (s : LockedList ι T) (i : ι) (cur nxt : Nat) : LockedList ι T :=
  { ((take s i nxt).set_next cur (s.next nxt)).set_next nxt none with
    removed := nxt :: s.removed }

/-- `nxt` has been destroyed, and `last_node_ptr` is at `e`. -/
def unlinked (s : LockedList ι T) (i : ι) (cur nxt e : Nat) : LockedList ι T :=
  { (relinked s i cur nxt).unlock_m nxt with
    live := Function.update s.live nxt false
    last_node_ptr := e }

/-- The next node is taken out and destroyed. -/
theorem run_remove {pre post : List Nat} {cur nxt : Nat} (op : Op T) {v : T}
    (h : At i s pre cur (nxt :: post)) (hdata : s.data nxt = some v)
    (hop : match op with
      | .remove_if p | .remove_first p => p v = true
      | .for_each | .find_first_if _ | .insert_if _ _ => False) :
    ∃ u, ReflTransGen (Goes i) (s.goto i (.next op cur)) (u.goto i (removed op v cur)) ∧
      At i u pre cur post ∧ u.data = s.data ∧ u.count = s.count := by
  have hne := h.ne
  have hlive0 : s.live 0 = true := h.live_head
  have hnext : s.next nxt = post.head? := h.next_next
  have hunlink : Goes i ((take s i nxt).goto i (.locked op cur nxt))
      ((take s i nxt).goto i (.unlink op cur nxt)) := by
    refine goes_goto ?_ ?_ (by simp)
    · simp [Pc.derefs, h.live, h.live_next]
    · cases op with
      | for_each => exact hop.elim
      | find_first_if p => exact hop.elim
      | insert_if p value => exact hop.elim
      | remove_if p =>
          have hp : p v = true := hop
          simp [run_step, locked_step, goto, take, hdata, hp]
      | remove_first p =>
          have hp : p v = true := hop
          simp [run_step, locked_step, goto, take, hdata, hp]
  -- `old_next`, and then `current->next`
  have hrelink : ReflTransGen (Goes i) ((take s i nxt).goto i (.unlink op cur nxt))
      ((relinked s i cur nxt).goto i (.removed_last op cur nxt)) := by
    refine .head (goes_goto (t := (take s i nxt).set_next cur none) (q := .relink op cur nxt)
      ?_ ?_ ?_) (.single (goes_goto ?_ ?_ ?_))
    · simp [Pc.derefs, h.live]
    · simp [run_step, goto, set_next]
    · simp
    · simp [Pc.derefs, h.live, h.live_next]
    · simp [run_step, goto, set_next, relinked, take, hne]
    · simp
  have hcurnext : (relinked s i cur nxt).next cur = s.next nxt := by
    simp [relinked, set_next, hne.symm, Function.update_of_ne]
  -- `last_node_ptr` is set when that was the last node
  have hlast : ReflTransGen (Goes i) ((relinked s i cur nxt).goto i (.removed_last op cur nxt))
      ({ relinked s i cur nxt with
          last_node_ptr := if post = [] then cur else s.last_node_ptr }.goto i
        (.unlock_next op cur nxt)) := by
    have hderefs : ∀ a ∈ (Pc.removed_last op cur nxt : Pc T).derefs,
        (relinked s i cur nxt).live a = true := by
      simp [Pc.derefs, relinked, h.live]
    by_cases hpost : post = []
    · have hend : s.next nxt = none := by rw [hnext, hpost]; rfl
      rw [if_pos hpost]
      refine .head (goes_goto (t := relinked s i cur nxt) (q := .last_lock (.remove op cur nxt))
        hderefs ?_ (by simp)) ?_
      · have hcur := hcurnext.trans hend
        simp only [run_step, goto_pc]
        rw [if_pos (show ((relinked s i cur nxt).goto i _).next cur = none from hcur)]
        simp [goto]
      · have hmtx : (relinked s i cur nxt).last_ptr_mtx = none := h.last_ptr_mtx
        have hrun := run_last (i := i) (s := relinked s i cur nxt) (k := .remove op cur nxt)
          (e := cur) hmtx (by simpa [relinked] using hlive0) rfl
        rw [← hmtx] at hrun
        exact hrun
    · rw [if_neg hpost]
      refine .single (goes_goto hderefs ?_ (by simp))
      have hcur : (relinked s i cur nxt).next cur ≠ none := by
        rw [hcurnext, hnext]
        cases post with
        | nil => exact absurd rfl hpost
        | cons a rest => simp
      simp only [run_step, goto_pc]
      rw [if_neg (show ((relinked s i cur nxt).goto i _).next cur ≠ none from hcur)]
      simp [goto, relinked, take, set_next]
  refine ⟨unlinked s i cur nxt (if post = [] then cur else s.last_node_ptr), ?_, ?_, rfl, rfl⟩
  · refine (((run_locked h).tail hunlink).trans hrelink).trans (hlast.trans (.head
      (goes_goto (t := { (relinked s i cur nxt).unlock_m nxt with
        last_node_ptr := if post = [] then cur else s.last_node_ptr })
        (q := .destroy op cur nxt) ?_ ?_ ?_) (.single (goes_goto ?_ ?_ ?_))))
    · simp [Pc.derefs, relinked, h.live_next]
    · simp [run_step, goto, unlock_m]
    · simp
    · simp [Pc.derefs, relinked, unlock_m, h.live_next]
    · have hv : (relinked s i cur nxt).data nxt = some v := hdata
      cases op <;>
        simp [run_step, goto, unlock_m, unlinked, removed, relinked, take, set_next, hdata]
    · cases op <;> simp [removed]
  · refine h.remove ?_ ?_ ?_ rfl ?_ h.last_ptr_mtx rfl
    · exact hcurnext
    · intro c hcc hcn
      simp [unlinked, unlock_m, relinked, take, set_next, hcc, hcn, Function.update_of_ne]
    · intro c hcn
      simp [unlinked, hcn, Function.update_of_ne]
    · funext a
      by_cases ha : a = nxt
      · simp [unlinked, unlock_m, ha, h.free_next]
      · simp [unlinked, relinked, take, unlock_m, set_next, ha, Function.update_of_ne]

/-- From `cur` on, the call returns `r`, and the nodes behind `cur` then hold `ws`. -/
def Ends (i : ι) (s : LockedList ι T) (op : Op T) (pre : List Nat) (cur : Nat) (r ws : List T) :
    Prop :=
  ∃ t l, Returns i (s.goto i (.next op cur)) r t ∧ Rest i t (pre ++ cur :: l) ∧
    l.map t.data = ws.map some ∧ ∀ a, a < s.count → t.data a = s.data a

/-- A node that is passed stays where it is. -/
theorem Ends.pass {pre post : List Nat} {cur nxt : Nat} {op : Op T} {v : T} {r ws : List T}
    (h : At i s pre cur (nxt :: post)) (hdata : s.data nxt = some v)
    (hop : match op with
      | .remove_if p | .remove_first p | .insert_if p _ => p v = false
      | .for_each | .find_first_if _ => False)
    (hends : At i ((take s i nxt).unlock_m cur) (pre ++ [cur]) nxt post →
      Ends i ((take s i nxt).unlock_m cur) op (pre ++ [cur]) nxt r ws) :
    Ends i s op pre cur r (v :: ws) := by
  have hat : At i ((take s i nxt).unlock_m cur) (pre ++ [cur]) nxt post :=
    h.advance ⟨rfl, rfl, rfl, rfl, rfl⟩ rfl h.last_ptr_mtx
  obtain ⟨t, l, hreturns, hrest, hvalues, hold⟩ := hends hat
  have hnxt : nxt < s.count :=
    h.chain.old nxt (List.mem_append_right _ (List.mem_cons_of_mem _ List.mem_cons_self))
  have hv : t.data nxt = some v := (hold nxt hnxt).trans hdata
  refine ⟨t, nxt :: l, hreturns.of_goes (run_pass h hdata hop), ?_, ?_, hold⟩
  · rw [List.append_assoc] at hrest
    exact hrest
  · rw [List.map_cons, List.map_cons, hv, hvalues]

/-- The loop ends behind the last node. -/
theorem Ends.nil {pre : List Nat} {cur : Nat} {op : Op T} {r : List T} (h : At i s pre cur [])
    (hr : result (s.goto i (.unlock op none cur)) i = r) : Ends i s op pre cur r [] := by
  obtain ⟨t, hreturns, hrest, hdata⟩ := end_returns op h
  rw [hr] at hreturns
  exact ⟨t, [], hreturns, hrest, rfl, fun a _ => congrFun hdata a⟩

/-- `remove_if` leaves the values that do not fit. Where it removes the last node it moves
`last_node_ptr` back to the one before. -/
theorem remove_if_spec {p : T → Bool} {post : List Nat} {vs : List T} {pre : List Nat} {cur : Nat}
    (h : At i s pre cur post) (hdata : post.map s.data = vs.map some) :
    Ends i s (.remove_if p) pre cur [] (vs.filter fun v => !p v) := by
  induction post generalizing s pre cur vs with
  | nil =>
      obtain rfl : vs = [] := by simpa using hdata.symm
      exact Ends.nil h (by simp [result])
  | cons nxt post ih =>
      obtain ⟨v, vs, rfl, hv, hdata⟩ := data_cons hdata
      cases hp : p v with
      | true =>
          rw [List.filter_cons_of_neg (by simp [hp])]
          obtain ⟨u, hgo, hat, hsame, hcount⟩ := run_remove (.remove_if p) h hv hp
          rw [← hsame] at hdata
          obtain ⟨t, l, hreturns, hrest, hvalues, hold⟩ := ih hat hdata
          rw [hcount, hsame] at hold
          exact ⟨t, l, hreturns.of_goes hgo, hrest, hvalues, hold⟩
      | false =>
          rw [List.filter_cons_of_pos (by simp [hp])]
          exact Ends.pass h hv hp fun hat => ih hat hdata

/-- `remove_first` takes out the first value that fits, and returns it. -/
theorem remove_first_spec {p : T → Bool} {post : List Nat} {vs : List T} {pre : List Nat}
    {cur : Nat} (h : At i s pre cur post) (hdata : post.map s.data = vs.map some) :
    Ends i s (.remove_first p) pre cur (vs.find? p).toList (vs.eraseP p) := by
  induction post generalizing s pre cur vs with
  | nil =>
      obtain rfl : vs = [] := by simpa using hdata.symm
      exact Ends.nil h (by simp [result])
  | cons nxt post ih =>
      obtain ⟨v, vs, rfl, hv, hdata⟩ := data_cons hdata
      cases hp : p v with
      | true =>
          rw [List.eraseP_cons_of_pos hp, List.find?_cons_of_pos hp]
          obtain ⟨u, hgo, hat, hsame, -⟩ := run_remove (.remove_first p) h hv hp
          obtain ⟨t, hreturns, hrest, hdata'⟩ :=
            unlock_returns (.remove_first p) (some v) hat
          have hresult : result (u.goto i (.unlock (.remove_first p) (some v) cur)) i = [v] := by
            simp [result]
          rw [hresult] at hreturns
          have hall : t.data = s.data := hdata'.trans hsame
          exact ⟨t, post, hreturns.of_goes hgo, hrest, by rw [hall, hdata],
            fun a _ => congrFun hall a⟩
      | false =>
          rw [List.eraseP_cons_of_neg (by simp [hp]), List.find?_cons_of_neg (by simp [hp])]
          exact Ends.pass h hv hp fun hat => ih hat hdata

/-! ### `insert_if` -/

/-- A new node with `value` is between `cur` and `nxt`. -/
def inserted (s : LockedList ι T) (i : ι) (value : T) (cur nxt : Nat) : LockedList ι T :=
  { (((((take s i nxt).new_node value).set_next cur none).set_next s.count (some nxt)).set_next
      cur (some s.count)).unlock_m nxt with
    pushed := s.count :: s.pushed }

omit [DecidableEq ι] in
/-- The chain with the new node. -/
theorem At.insert {pre post : List Nat} {cur nxt : Nat} {value : T}
    (h : At i s pre cur (nxt :: post)) :
    At i (inserted s i value cur nxt) pre cur (s.count :: nxt :: post) where
  chain := by
    have hnodup := h.chain.nodup
    have hnot : s.count ∉ pre ++ cur :: nxt :: post := h.chain.count_not_mem
    have hcur : cur ≠ s.count := fun heq =>
      hnot (heq ▸ List.mem_append_right _ List.mem_cons_self)
    have hperm := perm_behind pre (nxt :: post) cur s.count
    refine ⟨h.chain.path.insert_after hnodup hnot ?_ ?_ ?_,
      hperm.nodup_iff.mpr (List.nodup_cons.mpr ⟨hnot, hnodup⟩), ?_, ?_, ?_⟩
    · simp [inserted, unlock_m, set_next]
    · have hnext := h.next_eq
      simp [inserted, unlock_m, set_next, hcur.symm, hnext, Function.update_of_ne]
    · intro c hcc hcn
      simp [inserted, unlock_m, set_next, new_node, take, hcc, hcn, Function.update_of_ne]
    · intro a ha
      change ((take s i nxt).new_node value).live a = true
      rw [live_new_node]
      rcases List.mem_cons.mp (hperm.mem_iff.mp ha) with rfl | ha
      · exact Or.inl rfl
      · exact Or.inr (h.chain.live a ha)
    · intro a ha
      change a < s.count + 1
      rcases List.mem_cons.mp (hperm.mem_iff.mp ha) with rfl | ha
      · exact Nat.lt_succ_self _
      · exact Nat.lt_succ_of_lt (h.chain.old a ha)
    · have hold := h.chain.last
      rw [List.getLast?_append, List.getLast?_cons_cons] at hold
      rw [List.getLast?_append, List.getLast?_cons_cons, List.getLast?_cons_cons]
      exact hold
  m := by
    have hfree := h.free_next
    have hnew : s.m s.count = none := by
      have hcur : s.count ≠ cur := fun heq =>
        h.chain.count_not_mem (heq ▸ List.mem_append_right _ List.mem_cons_self)
      simp [h.m, holding, hcur]
    rw [← h.m]
    funext a
    by_cases hn : a = nxt
    · simp [inserted, unlock_m, hn, hfree]
    · by_cases hc : a = s.count
      · simp [inserted, unlock_m, set_next, new_node, take, hc, hnew, Function.update_apply]
      · simp [inserted, unlock_m, set_next, new_node, take, hn, hc, Function.update_of_ne]
  last_ptr_mtx := h.last_ptr_mtx

/-- The new node is put before the next one. -/
theorem run_insert {pre post : List Nat} {cur nxt : Nat} {p : T → Bool} {value v : T}
    (h : At i s pre cur (nxt :: post)) (hdata : s.data nxt = some v) (hp : p v = true) :
    ReflTransGen (Goes i) (s.goto i (.next (.insert_if p value) cur))
      ((inserted s i value cur nxt).goto i (.unlock (.insert_if p value) (some v) cur)) := by
  have hne : nxt ≠ s.count := fun heq => h.chain.count_not_mem
    (heq ▸ List.mem_append_right _ (List.mem_cons_of_mem _ List.mem_cons_self))
  refine (run_locked h).trans (.head (goes_goto (t := take s i nxt)
    (q := .insert_new (.insert_if p value) value cur nxt) ?_ ?_ ?_) ?_)
  · simp [Pc.derefs, h.live, h.live_next]
  · simp [run_step, locked_step, goto, take, hdata, hp]
  · simp
  refine .head (goes_goto (t := (take s i nxt).new_node value)
    (q := .insert_old (.insert_if p value) s.count cur nxt) ?_ ?_ ?_) ?_
  · simp [Pc.derefs]
  · simp [run_step, goto, new_node, take]
  · simp
  refine .head (goes_goto (t := ((take s i nxt).new_node value).set_next cur none)
    (q := .insert_next (.insert_if p value) s.count cur nxt) ?_ ?_ ?_) ?_
  · simp [Pc.derefs, h.live]
  · simp [run_step, goto, set_next]
  · simp
  refine .head (goes_goto (t := (((take s i nxt).new_node value).set_next cur none).set_next
    s.count (some nxt)) (q := .insert_head (.insert_if p value) s.count cur nxt) ?_ ?_ ?_) ?_
  · simp [Pc.derefs, take]
  · simp [run_step, goto, set_next]
  · simp
  refine .head (goes_goto (t := { ((((take s i nxt).new_node value).set_next cur none).set_next
    s.count (some nxt)).set_next cur (some s.count) with pushed := s.count :: s.pushed })
    (q := .insert_unlock (.insert_if p value) cur nxt) ?_ ?_ ?_) (.single (goes_goto ?_ ?_ ?_))
  · simp [Pc.derefs, h.live]
  · simp [run_step, goto, set_next, new_node, take]
  · simp
  · simp [Pc.derefs, h.live_next]
  · simp [run_step, goto, set_next, new_node, take, unlock_m, inserted, hne, hdata,
      Function.update_of_ne]
  · simp

/-- `insert_if` puts the value before the first one that fits, and nowhere else. -/
theorem insert_if_spec {p : T → Bool} {value : T} {post : List Nat} {vs : List T}
    {pre : List Nat} {cur : Nat} (h : At i s pre cur post)
    (hdata : post.map s.data = vs.map some) :
    Ends i s (.insert_if p value) pre cur [] (insertBefore p value vs) := by
  induction post generalizing s pre cur vs with
  | nil =>
      obtain rfl : vs = [] := by simpa using hdata.symm
      exact Ends.nil h (by simp [result])
  | cons nxt post ih =>
      have hdata' := hdata
      obtain ⟨v, vs, rfl, hv, hdata⟩ := data_cons hdata
      cases hp : p v with
      | true =>
          obtain ⟨t, hreturns, hrest, hsame⟩ := unlock_returns (.insert_if p value)
            (some v) h.insert
          have hnew : ∀ a, a < s.count → t.data a = s.data a := by
            intro a ha
            simp [hsame, inserted, unlock_m, set_next, new_node, take, ha.ne, Function.update_of_ne]
          refine ⟨t, s.count :: nxt :: post, Returns.of_goes (run_insert h hv hp) ?_, hrest, ?_,
            hnew⟩
          · simpa [result] using hreturns
          · have hvalue : t.data s.count = some value := by
              simp [hsame, inserted, unlock_m, set_next, new_node, take]
            rw [insertBefore, if_pos hp, List.map_cons, List.map_cons (l := v :: vs), hvalue,
              ← hdata']
            congr 1
            refine List.map_congr_left fun a ha => hnew a ?_
            exact h.chain.old a (List.mem_append_right _ (List.mem_cons_of_mem _ ha))
      | false =>
          rw [insertBefore, if_neg (by simp [hp])]
          exact Ends.pass h hv hp fun hat => ih hat hdata

/-! ## A call, and any calls -/

/-- The traversal has locked the head. -/
def begun (s : LockedList ι T) (i : ι) : LockedList ι T :=
  { take s i 0 with
    snapshot := Function.update s.snapshot i s.present
    visited := Function.update s.visited i [] }

/-- What each traversal answers and leaves is what the list functions say. -/
theorem traverse_spec (op : Op T) {vs : List T} {l : List Nat} (h : At i s [] 0 l)
    (hdata : l.map s.data = vs.map some) (hvisited : s.visited i = []) :
    Ends i s op [] 0 (answer (.traverse op) vs) (apply (.traverse op) vs) := by
  cases op with
  | for_each =>
      obtain ⟨t, hreturns, hrest, hsame⟩ := for_each_traverse h hdata
      rw [hvisited] at hreturns
      exact ⟨t, l, hreturns, hrest, by rw [hsame, hdata]; rfl, fun a _ => congrFun hsame a⟩
  | find_first_if p =>
      obtain ⟨t, hreturns, hrest, hsame⟩ := find_first_if_spec (p := p) h hdata
      exact ⟨t, l, hreturns, hrest, by rw [hsame, hdata]; rfl, fun a _ => congrFun hsame a⟩
  | remove_if p => exact remove_if_spec h hdata
  | remove_first p => exact remove_first_spec h hdata
  | insert_if p value => exact insert_if_spec h hdata

/-- A call returns, and does to the list what it would do to a list of the values. -/
theorem call_spec {vs : List T} {l : List Nat} (h : Rep i s vs l) (c : Call T) :
    ∃ s₁ t l', step .double_push_list s (.call i c) = some s₁ ∧ Returns i s₁ (answer c vs) t ∧
      Rep i t (apply c vs) l' := by
  cases c with
  | push_front value =>
      obtain ⟨s₁, t, hcall, hreturns, hrep⟩ := push_front_spec h value
      exact ⟨s₁, t, _, hcall, hreturns, hrep⟩
  | push_back value =>
      obtain ⟨s₁, t, hcall, hreturns, hrep⟩ := push_back_spec h value
      exact ⟨s₁, t, _, hcall, hreturns, hrep⟩
  | traverse op =>
      have hfree : s.m 0 = none := by rw [h.m]; rfl
      have hat : At i (begun s i) [] 0 l := by
        refine ⟨h.chain.keeps ⟨rfl, rfl, rfl, rfl, rfl⟩, ?_, h.last_ptr_mtx⟩
        funext a
        simp [begun, take, h.m, holding, Function.update_apply]
      have hvisited : (begun s i).visited i = [] := by simp [begun]
      obtain ⟨t, l', hreturns, hrest, hvalues, -⟩ := traverse_spec op hat h.data hvisited
      have hstart : (Call.traverse op).start .double_push_list = some (.head_lock op) := by
        cases op <;> rfl
      refine ⟨_, t, l', call_eq h.idle hstart, hreturns.of_goes (.single (goes_goto ?_ ?_ ?_)),
        ⟨hrest.chain, hvalues, hrest.idle, hrest.m, hrest.last_ptr_mtx⟩⟩
      · simp [Pc.derefs, h.chain.live 0 List.mem_cons_self]
      · simp [run_step, goto, lock, begun, take, hfree]
        rfl
      · simp

omit [DecidableEq ι] in
/-- The empty list. -/
theorem rep_init : Rep i (init : LockedList ι T) [] [] where
  chain := ⟨⟨rfl, rfl⟩, List.nodup_singleton 0, by simp [init], by simp [init], rfl⟩
  data := rfl
  idle := rfl
  m := rfl
  last_ptr_mtx := rfl

end Steps

/-- What calls one after the other leave of a list. -/
def contents (cs : List (Call T)) (vs : List T) : List T := cs.foldl (fun ws c => apply c ws) vs

/-- What they return. -/
def answers : List (Call T) → List T → List (List T)
  | [], _ => []
  | c :: cs, vs => answer c vs :: answers cs (apply c vs)

section Runs

variable [DecidableEq ι] {i : ι}

/-- Any calls, one after another, can be run to their ends. -/
theorem exists_calls {s : LockedList ι T} {vs : List T} {l : List Nat} (h : Rep i s vs l)
    (cs : List (Call T)) : ∃ rs t, Calls i s rs t ∧ rs.map Prod.fst = cs := by
  induction cs generalizing s vs l with
  | nil => exact ⟨[], s, .nil s, rfl⟩
  | cons c cs ih =>
      obtain ⟨s₁, t, l', hcall, hreturns, hrep⟩ := call_spec h c
      obtain ⟨rs, u, hcalls, hfst⟩ := ih hrep
      exact ⟨(c, answer c vs) :: rs, u, .cons hcall hreturns hcalls, by rw [List.map_cons, hfst]⟩

/-- And however they are run, they answer what the list functions say and leave the list they say.
-/
theorem calls_spec {s t : LockedList ι T} {rs : List (Call T × List T)} (hcalls : Calls i s rs t)
    {vs : List T} {l : List Nat} (h : Rep i s vs l) :
    rs.map Prod.snd = answers (rs.map Prod.fst) vs ∧
      ∃ l', Rep i t (contents (rs.map Prod.fst) vs) l' := by
  induction hcalls generalizing vs l with
  | nil s => exact ⟨rfl, l, h⟩
  | @cons s s₁ t u c r rest hcall hreturns hrest ih =>
      obtain ⟨s₁', t', l', hcall', hreturns', hrep⟩ := call_spec h c
      -- the call goes one way only
      obtain rfl : s₁ = s₁' := Option.some.inj (hcall.symm.trans hcall')
      obtain ⟨rfl, rfl⟩ := hreturns.unique hreturns'
      obtain ⟨hanswers, hcontents⟩ := ih hrep
      refine ⟨?_, hcontents⟩
      rw [List.map_cons, List.map_cons, hanswers]
      rfl

/-- **Used by one thread, the list is a list.** Any calls can be made one after the other, and
each of them returns; what they return, and the values from the head on, are those of a list;
`last_node_ptr` points to the last node, the head when there is no other. -/
theorem alone_refines (i : ι) (cs : List (Call T)) :
    (∃ rs s, Calls i init rs s ∧ rs.map Prod.fst = cs) ∧
    ∀ rs s, Calls i init rs s → rs.map Prod.fst = cs →
      rs.map Prod.snd = answers cs [] ∧
      ∃ l, Path s.next (some 0) (0 :: l) none ∧ l.map s.data = (contents cs []).map some ∧
        (0 :: l).getLast? = some s.last_node_ptr ∧ (0 :: l).Nodup ∧
        ∀ a ∈ 0 :: l, s.live a = true := by
  refine ⟨exists_calls rep_init cs, ?_⟩
  rintro rs s hcalls rfl
  obtain ⟨hanswers, l, hrep⟩ := calls_spec hcalls rep_init
  exact ⟨hanswers, l, hrep.chain.path, hrep.data, hrep.chain.last, hrep.chain.nodup,
    hrep.chain.live⟩

end Runs

end BoostNet.DoublePushAlone
