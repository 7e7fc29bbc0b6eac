/-
The queue for one producer and one consumer of Concurrent/day18-LockFreeQue
(singlepushpop.h): a list of nodes with a dummy at its end, where `tail` points.

`push` fills the dummy, links a new one behind it and moves `tail`; `pop` moves `head` and
deletes the node that it leaves. Each load and store of `head` and `tail`, each access to a
field of a node, each allocation and each deletion is one step; a swap of `data` is a read
and a write. A new node may get any address that is not in use, one that was freed among
them, and a freed node stays readable: `Safe` says that nobody reads it. A dereferenced null
pointer is a state of its own, `crashed`.

`produced`, `seen` and `pops` are histories: the values of the pushes that have moved `tail`,
how many there were when `pop` last read `tail`, and what each `pop` returned with `seen` at
its own read.

* `Inv`: the list from `head` to `tail` holds what was produced and not yet taken off, and
  each node that a thread has a pointer to is in the place that its step needs.
* `spsc_queue`: what the consumer gets, and which nodes are accessed, in every run.
-/
import BoostNet.Heap
import BoostNet.Lts

set_option autoImplicit false

namespace BoostNet.SinglePopPush

open Heap

variable {A T : Type*}

/-! ## The system -/

structure Node (A T : Type*) where
  data : Option T := none
  next : Option A := none

/-- Where the producer is in `push`. -/
inductive Push (A T : Type*) where
  | idle
  | new_node (new_value : T)
  | load_tail (new_value : T) (p : Ref A)
  /-- The swap of `data`. -/
  | read_data (new_value : T) (p old_tail : Ref A)
  | write_data (new_value : T) (p old_tail : Ref A)
  | write_next (new_value : T) (p old_tail : Ref A)
  | store_tail (new_value : T) (p old_tail : Ref A)

/-- Where the consumer is in `pop`, and in `pop_head` up to `store_head`. -/
inductive Pop (A T : Type*) where
  | idle
  | load_head
  | load_tail (old_head : Option (Ref A))
  | read_next (old_head : Option (Ref A))
  | store_head (old_head : Ref A) (next : Option A)
  | read_data (old_head : Ref A)
  | delete_head (old_head : Ref A) (res : Option T)
  | crashed

structure Que (A T : Type*) where
  mem : A → Cell (Node A T)
  head : Option A
  tail : A
  producer : Push A T := .idle
  consumer : Pop A T := .idle
  produced : List T := []
  seen : Nat := 0
  pops : List (Option T × Nat) := []

/-- The values that `pop` has returned. -/
def obtained (pops : List (Option T × Nat)) : List T := pops.filterMap Prod.fst

/-- A call of `push` or of `pop`, the allocation of a node at a free address, or the next
step of a thread. -/
inductive Act (A T : Type*) where
  | push (new_value : T)
  | new (a : A)
  | producer
  | pop
  | consumer

namespace Que

def next (s : Que A T) (a : A) : Option A := (s.mem a).val.next

def data (s : Que A T) (a : A) : Option T := (s.mem a).val.data

variable [DecidableEq A]

/-- The constructor: a dummy, and nothing else. -/
def init (dummy : A) : Que A T where
  mem := alloc (fun _ => { live := false, gen := 0, val := {} }) dummy {}
  head := some dummy
  tail := dummy

/-- A step of `push` behind the allocation. -/
def stepProducer (s : Que A T) : Option (Que A T) :=
  match s.producer with
  | .idle | .new_node _ => none
  | .load_tail new_value p =>
      some { s with producer := .read_data new_value p (ref s.mem s.tail) }
  | .read_data new_value p old_tail =>
      some { s with producer := .write_data new_value p old_tail }
  | .write_data new_value p old_tail =>
      some { s with
        producer := .write_next new_value p old_tail
        mem := store s.mem old_tail.addr
          { (s.mem old_tail.addr).val with data := some new_value } }
  | .write_next new_value p old_tail =>
      some { s with
        producer := .store_tail new_value p old_tail
        mem := store s.mem old_tail.addr
          { (s.mem old_tail.addr).val with next := some p.addr } }
  | .store_tail new_value p _ =>
      some { s with producer := .idle, tail := p.addr, produced := s.produced ++ [new_value] }

/-- `pop` returns `res`. -/
def ret (s : Que A T) (res : Option T) (seen : Nat) : Que A T :=
  { s with consumer := .idle, pops := s.pops ++ [(res, seen)] }

def stepConsumer (s : Que A T) : Option (Que A T) :=
  match s.consumer with
  | .idle => none
  | .load_head => some { s with consumer := .load_tail (s.head.map (ref s.mem)) }
  | .load_tail old_head =>
      if old_head.map Ref.addr = some s.tail then
        some { s.ret none s.produced.length with seen := s.produced.length }
      else some { s with consumer := .read_next old_head, seen := s.produced.length }
  | .read_next none => some { s with consumer := .crashed }
  | .read_next (some old_head) =>
      some { s with consumer := .store_head old_head (s.next old_head.addr) }
  | .store_head old_head next =>
      some { s with consumer := .read_data old_head, head := next }
  | .read_data old_head =>
      some { s with consumer := .delete_head old_head (s.data old_head.addr) }
  | .delete_head old_head res =>
      some { s.ret res s.seen with mem := free s.mem old_head.addr }
  | .crashed => none

def step (s : Que A T) : Act A T → Option (Que A T)
  | .push new_value =>
      match s.producer with
      | .idle => some { s with producer := .new_node new_value }
      | _ => none
  | .new a =>
      match s.producer with
      | .new_node new_value =>
          if (s.mem a).live then none
          else
            let mem := alloc s.mem a {}
            some { s with mem, producer := .load_tail new_value (ref mem a) }
      | _ => none
  | .producer => s.stepProducer
  | .pop =>
      match s.consumer with
      | .idle => some { s with consumer := .load_head }
      | _ => none
  | .consumer => s.stepConsumer

end Que

def lts [DecidableEq A] (dummy : A) : Lts (Que A T) (Act A T) where
  init := Que.init dummy
  step := Que.step

/-! ## The specification -/

/-- The node whose field the next step of the producer accesses. -/
def Push.accesses : Push A T → Option (Ref A)
  | .read_data _ _ old_tail | .write_data _ _ old_tail | .write_next _ _ old_tail => some old_tail
  | _ => none

/-- The node that the next step of the consumer reads or deletes. -/
def Pop.accesses : Pop A T → Option (Ref A)
  | .read_next old_head => old_head
  | .read_data old_head | .delete_head old_head _ => some old_head
  | _ => none

/-- The answers of a queue: a `pop` that found `seen` completed pushes returns the first of
their values that was not returned before, and nothing if there is none. -/
def Answers (produced : List T) (pops : List (Option T × Nat)) : Prop :=
  ∀ n res seen, pops[n]? = some (res, seen) →
    seen ≤ produced.length ∧ res = (produced.take seen)[(obtained (pops.take n)).length]?

/-- Nobody accesses a deleted node, and no null pointer. -/
structure Safe (s : Que A T) : Prop where
  producer : ∀ r, s.producer.accesses = some r → Valid s.mem r
  consumer : ∀ r, s.consumer.accesses = some r → Valid s.mem r
  no_crash : s.consumer ≠ .crashed

/-! ## The answers -/

section Answers

variable {produced : List T} {pops : List (Option T × Nat)}

/-- No pop has returned yet. -/
theorem answers_nil : Answers produced [] := by
  intro n res seen h
  simp at h

/-- More pushes leave the answers right. -/
theorem Answers.produce (h : Answers produced pops) (v : T) : Answers (produced ++ [v]) pops := by
  intro n res seen hn
  obtain ⟨hle, hres⟩ := h n res seen hn
  refine ⟨?_, ?_⟩
  · rw [List.length_append]
    omega
  · rw [List.take_append_of_le_length hle, hres]

/-- A pop that takes the next value, or sees that there is none, is answered right. -/
theorem Answers.pop (h : Answers produced pops) {res : Option T} {seen : Nat}
    (hseen : seen ≤ produced.length) (hres : res = (produced.take seen)[(obtained pops).length]?) :
    Answers produced (pops ++ [(res, seen)]) := by
  intro n res' seen' hn
  by_cases hlt : n < pops.length
  · rw [List.getElem?_append_left hlt] at hn
    rw [List.take_append_of_le_length (Nat.le_of_lt hlt)]
    exact h n res' seen' hn
  · obtain ⟨hlen, -⟩ := List.getElem?_eq_some_iff.mp hn
    rw [List.length_append, List.length_singleton] at hlen
    have hnlen : n = pops.length := by omega
    rw [hnlen, List.getElem?_concat_length, Option.some.injEq, Prod.mk.injEq] at hn
    rw [hnlen, List.take_append_of_le_length (Nat.le_refl _), List.take_length, ← hn.1, ← hn.2]
    exact ⟨hseen, hres⟩

/-- A pop more is a value more, if it got one. -/
theorem obtained_concat (res : Option T) (seen : Nat) :
    obtained (pops ++ [(res, seen)]) = obtained pops ++ res.toList := by
  rw [obtained, obtained, List.filterMap_append]
  cases res <;> rfl

/-- What was returned are the first values that were produced, in their order. -/
theorem Answers.obtained_eq (h : Answers produced pops) :
    obtained pops = produced.take (obtained pops).length := by
  induction pops using List.reverseRecOn with
  | nil => rfl
  | append_singleton pops answer ih =>
      obtain ⟨res, seen⟩ := answer
      have hinit : Answers produced pops := by
        intro n res' seen' hn
        obtain ⟨hlt, -⟩ := List.getElem?_eq_some_iff.mp hn
        have hn' := h n res' seen' (by rw [List.getElem?_append_left hlt, hn])
        rwa [List.take_append_of_le_length (Nat.le_of_lt hlt)] at hn'
      obtain ⟨hle, hres⟩ := h pops.length res seen List.getElem?_concat_length
      rw [List.take_append_of_le_length (Nat.le_refl _), List.take_length] at hres
      have ih := ih hinit
      rw [obtained_concat]
      cases res with
      | none => rw [Option.toList_none, List.append_nil, ← ih]
      | some v =>
          rw [Option.toList_some, List.length_append, List.length_singleton, List.take_add_one,
            ← ih]
          rw [List.getElem?_take] at hres
          split at hres
          case isTrue hlt => rw [← hres, Option.toList_some]
          case isFalse => contradiction

end Answers

/-! ## The invariant -/

/-- The node that is not in the list any more and not yet deleted. -/
def Pop.taken : Pop A T → Option (Ref A)
  | .read_data old_head | .delete_head old_head _ => some old_head
  | _ => none

/-- The node that is not yet in the list. -/
def Push.fresh : Push A T → Option (Ref A)
  | .load_tail _ p | .read_data _ p _ | .write_data _ p _ | .write_next _ p _
  | .store_tail _ p _ => some p
  | _ => none

/-- The dummy as the producer has left it. -/
def Que.ProducerAt (s : Que A T) : Push A T → Prop
  | .idle | .new_node _ | .load_tail _ _ => True
  | .read_data _ _ old_tail | .write_data _ _ old_tail =>
      old_tail.addr = s.tail ∧ Valid s.mem old_tail
  | .write_next v _ old_tail =>
      old_tail.addr = s.tail ∧ Valid s.mem old_tail ∧ s.data s.tail = some v
  | .store_tail v p old_tail =>
      old_tail.addr = s.tail ∧ Valid s.mem old_tail ∧ s.data s.tail = some v ∧
        s.next s.tail = some p.addr

/-- The consumer has a pointer to the first node. -/
def Que.AtHead (s : Que A T) (old_head : Ref A) : Prop :=
  s.head = some old_head.addr ∧ Valid s.mem old_head

/-- It has found a value that was produced before its look at `tail`. -/
def Que.Found (s : Que A T) : Prop := (obtained s.pops).length < s.seen

def Que.ConsumerAt (s : Que A T) : Pop A T → Prop
  | .idle | .load_head => True
  | .load_tail old_head => ∃ r, old_head = some r ∧ s.AtHead r
  | .read_next old_head => ∃ r, old_head = some r ∧ s.AtHead r ∧ r.addr ≠ s.tail ∧ s.Found
  | .store_head old_head next =>
      s.AtHead old_head ∧ old_head.addr ≠ s.tail ∧ s.Found ∧ next = s.next old_head.addr
  | .read_data old_head =>
      s.Found ∧ s.data old_head.addr = s.produced[(obtained s.pops).length]?
  | .delete_head _ res => s.Found ∧ res = s.produced[(obtained s.pops).length]?
  | .crashed => False

/-- How many values have been taken off. -/
def Que.gone (s : Que A T) : Nat :=
  (obtained s.pops).length + if s.consumer.taken.isSome then 1 else 0

/-- The nodes `l` from `head` to the dummy hold what was produced and not taken off, and the
nodes that one of the threads has for itself are none of them. -/
structure Inv (s : Que A T) (l : List A) : Prop where
  path : Path s.next s.head l (some s.tail)
  nodup : (s.tail :: l).Nodup
  live : ∀ a ∈ s.tail :: l, (s.mem a).live = true
  data : l.map s.data = (s.produced.drop s.gone).map some
  gone_le : s.gone ≤ s.produced.length
  seen_le : s.seen ≤ s.produced.length
  answers : Answers s.produced s.pops
  taken : ∀ r, s.consumer.taken = some r → Valid s.mem r ∧ r.addr ∉ s.tail :: l
  fresh : ∀ r, s.producer.fresh = some r → Valid s.mem r ∧ r.addr ∉ s.tail :: l
  apart : ∀ r r', s.consumer.taken = some r → s.producer.fresh = some r' → r.addr ≠ r'.addr
  producer : s.ProducerAt s.producer
  consumer : s.ConsumerAt s.consumer

section Steps

variable {s s' : Que A T} {l : List A}

/-- The dummy at the tail is not among the nodes that hold a value. -/
theorem Inv.tail_not_mem (h : Inv s l) : s.tail ∉ l := (List.nodup_cons.mp h.nodup).1

/-- The node at `head`, and whether it is the dummy. -/
theorem Inv.head_cases (h : Inv s l) :
    (l = [] ∧ s.head = some s.tail) ∨
      ∃ a rest, l = a :: rest ∧ s.head = some a ∧ a ≠ s.tail := by
  have hpath := h.path
  have hnot := h.tail_not_mem
  cases l with
  | nil => exact Or.inl ⟨rfl, path_nil.mp hpath⟩
  | cons a rest =>
      obtain ⟨hhead, -⟩ := path_cons.mp hpath
      exact Or.inr ⟨a, rest, rfl, hhead, fun heq => hnot (heq ▸ List.mem_cons_self)⟩

/-- The first node is the dummy only if all that was produced has been taken off. -/
theorem Inv.gone_of_head (h : Inv s l) (hhead : s.head = some s.tail) :
    s.gone = s.produced.length := by
  rcases h.head_cases with ⟨rfl, -⟩ | ⟨a, rest, -, hhead', hne⟩
  · have hdata := congrArg List.length h.data
    rw [List.length_map, List.length_map, List.length_drop, List.length_nil] at hdata
    have hle := h.gone_le
    omega
  · exact absurd (Option.some.inj (hhead'.symm.trans hhead)) hne

/-- While the head is not the tail there is a value that was not popped. -/
theorem Inv.gone_lt_of_head (h : Inv s l) (hhead : s.head ≠ some s.tail) :
    s.gone < s.produced.length := by
  rcases h.head_cases with ⟨-, hhead'⟩ | ⟨a, rest, rfl, -, -⟩
  · exact absurd hhead' hhead
  · have hdata := congrArg List.length h.data
    rw [List.length_map, List.length_map, List.length_drop, List.length_cons] at hdata
    omega

/-- The head is never a node that was deleted. -/
theorem Inv.head_live (h : Inv s l) {a : A} (hhead : s.head = some a) :
    (s.mem a).live = true := by
  rcases h.head_cases with ⟨-, hhead'⟩ | ⟨b, rest, rfl, hhead', -⟩
  · exact Option.some.inj (hhead'.symm.trans hhead) ▸ h.live _ List.mem_cons_self
  · exact Option.some.inj (hhead'.symm.trans hhead) ▸
      h.live _ (List.mem_cons_of_mem _ List.mem_cons_self)

/-! ## The steps of the producer -/

/-- What the consumer relies on: its pointers stay valid, and the fields of nodes that are
not the dummy as they are. -/
theorem Que.ConsumerAt.frame (hat : s.ConsumerAt s.consumer) (hhead : s'.head = s.head)
    (hpops : s'.pops = s.pops) (hseen : s'.seen = s.seen) (hseen_le : s.seen ≤ s.produced.length)
    (hproduced : ∃ vs, s'.produced = s.produced ++ vs)
    (htaken : ∀ r, s.consumer.taken = some r → Valid s.mem r ∧ r.addr ≠ s.tail)
    (hvalid : ∀ r, Valid s.mem r → Valid s'.mem r)
    (hmem : ∀ a, (s.mem a).live = true → a ≠ s.tail → (s'.mem a).val = (s.mem a).val)
    (htail : ∀ r, s.AtHead r → r.addr ≠ s.tail → r.addr ≠ s'.tail) :
    s'.ConsumerAt s.consumer := by
  have hathead : ∀ r, s.AtHead r → s'.AtHead r := fun r hr =>
    ⟨hhead.trans hr.1, hvalid r hr.2⟩
  have hfound : s.Found → s'.Found := by
    intro hf
    unfold Que.Found at hf ⊢
    rwa [hpops, hseen]
  have hvalue : s.Found → s'.produced[(obtained s'.pops).length]? =
      s.produced[(obtained s.pops).length]? := by
    intro hf
    obtain ⟨vs, hvs⟩ := hproduced
    rw [hpops, hvs, List.getElem?_append_left (Nat.lt_of_lt_of_le hf hseen_le)]
  cases hc : s.consumer with
  | idle => trivial
  | load_head => trivial
  | crashed =>
      rw [hc] at hat
      exact hat
  | load_tail old_head =>
      rw [hc] at hat
      obtain ⟨r, hr, hathd⟩ := hat
      exact ⟨r, hr, hathead r hathd⟩
  | read_next old_head =>
      rw [hc] at hat
      obtain ⟨r, hr, hathd, hne, hf⟩ := hat
      exact ⟨r, hr, hathead r hathd, htail r hathd hne, hfound hf⟩
  | store_head old_head next =>
      rw [hc] at hat
      obtain ⟨hathd, hne, hf, hnext⟩ := hat
      refine ⟨hathead _ hathd, htail _ hathd hne, hfound hf, ?_⟩
      rw [hnext, Que.next, Que.next, hmem _ hathd.2.1 hne]
  | read_data old_head =>
      rw [hc] at hat htaken
      obtain ⟨hf, hdata⟩ := hat
      obtain ⟨hval, hne⟩ := htaken old_head rfl
      refine ⟨hfound hf, ?_⟩
      rw [hvalue hf, ← hdata, Que.data, Que.data, hmem _ hval.1 hne]
  | delete_head old_head res =>
      rw [hc] at hat
      exact ⟨hfound hat.1, hat.2.trans (hvalue hat.1).symm⟩

/-- A step of the producer that leaves `tail` where it is. It writes to the dummy and to its
own node only. -/
theorem Inv.producer_step (h : Inv s l) (hhead : s'.head = s.head) (htail : s'.tail = s.tail)
    (hconsumer : s'.consumer = s.consumer) (hproduced : s'.produced = s.produced)
    (hseen : s'.seen = s.seen) (hpops : s'.pops = s.pops)
    (hvalid : ∀ r, Valid s.mem r → Valid s'.mem r)
    (hmem : ∀ a, (s.mem a).live = true → a ≠ s.tail → (s'.mem a).val = (s.mem a).val)
    (hfresh : ∀ r, s'.producer.fresh = some r → Valid s'.mem r ∧ r.addr ∉ s.tail :: l ∧
      ∀ r', s.consumer.taken = some r' → r'.addr ≠ r.addr)
    (hat : s'.ProducerAt s'.producer) : Inv s' l := by
  have hgone : s'.gone = s.gone := by
    rw [Que.gone, Que.gone, hpops, hconsumer]
  have hl : ∀ a ∈ l, (s'.mem a).val = (s.mem a).val := fun a ha =>
    hmem a (h.live a (List.mem_cons_of_mem _ ha)) fun heq => h.tail_not_mem (heq ▸ ha)
  refine ⟨?_, ?_, ?_, ?_, ?_, ?_, ?_, ?_, ?_, ?_, hat, ?_⟩
  · rw [hhead, htail]
    exact h.path.congr fun a ha => congrArg Node.next (hl a ha)
  · rw [htail]
    exact h.nodup
  · intro a ha
    rw [htail] at ha
    exact (hvalid _ (valid_ref (h.live a ha))).1
  · rw [hgone, hproduced, ← h.data]
    exact List.map_congr_left fun a ha => congrArg Node.data (hl a ha)
  · rw [hgone, hproduced]
    exact h.gone_le
  · rw [hseen, hproduced]
    exact h.seen_le
  · rw [hproduced, hpops]
    exact h.answers
  · intro r hr
    rw [hconsumer] at hr
    rw [htail]
    exact ⟨hvalid r (h.taken r hr).1, (h.taken r hr).2⟩
  · intro r hr
    rw [htail]
    exact ⟨(hfresh r hr).1, (hfresh r hr).2.1⟩
  · intro r r' hr hr'
    rw [hconsumer] at hr
    exact (hfresh r' hr').2.2 r hr
  · rw [hconsumer]
    refine h.consumer.frame hhead hpops hseen h.seen_le ⟨[], by rw [hproduced, List.append_nil]⟩
      (fun r hr => ⟨(h.taken r hr).1, fun heq => (h.taken r hr).2 (heq ▸ List.mem_cons_self)⟩)
      hvalid hmem fun r _ hne => ?_
    rw [htail]
    exact hne

/-- A push begins with an allocation that nobody sees. -/
theorem Inv.push (h : Inv s l) (v : T) : Inv { s with producer := .new_node v } l := by
  refine h.producer_step rfl rfl rfl rfl rfl rfl (fun _ hr => hr) (fun _ _ _ => rfl) ?_ trivial
  intro r hr
  contradiction

/-- The producer keeps its own node. -/
theorem Inv.fresh_of (h : Inv s l) {p : Push A T} {mem : A → Cell (Node A T)}
    (hsame : p.fresh = s.producer.fresh) (hvalid : ∀ r, Valid s.mem r → Valid mem r) :
    ∀ r, p.fresh = some r → Valid mem r ∧ r.addr ∉ s.tail :: l ∧
      ∀ r', s.consumer.taken = some r' → r'.addr ≠ r.addr := by
  intro r hr
  rw [hsame] at hr
  exact ⟨hvalid r (h.fresh r hr).1, (h.fresh r hr).2, fun r' hr' => h.apart r' r hr' hr⟩

variable [DecidableEq A]

/-- `new node`, at an address that is not in use. -/
theorem Inv.new (h : Inv s l) (v : T) {a : A} (ha : (s.mem a).live = false) :
    Inv { s with mem := alloc s.mem a {}, producer := .load_tail v (ref (alloc s.mem a {}) a) }
      l := by
  have hne : ∀ b, (s.mem b).live = true → b ≠ a := by
    rintro b hb rfl
    rw [hb] at ha
    contradiction
  refine h.producer_step rfl rfl rfl rfl rfl rfl (fun r hr => hr.of_eq ?_) (fun b hb _ => ?_) ?_
    trivial
  · exact alloc_of_ne (hne _ hr.1)
  · exact congrArg Cell.val (alloc_of_ne (hne b hb))
  · intro r hr
    obtain rfl : _ = r := Option.some.inj hr
    refine ⟨valid_ref ?_, fun hmem => hne a (h.live a hmem) rfl, fun r' hr' => ?_⟩
    · exact congrArg Cell.live alloc_self
    · exact hne _ (h.taken r' hr').1.1

/-- Writing a node leaves the references valid. -/
theorem valid_store {mem : A → Cell (Node A T)} {a : A} {v : Node A T} {r : Ref A}
    (hr : Valid mem r) : Valid (store mem a v) r := by
  by_cases hra : r.addr = a
  · exact hr.congr (by rw [hra, store_self]) (by rw [hra, store_self])
  · exact hr.of_eq (store_of_ne hra)

/-- A write to a field of the dummy. -/
theorem Inv.write_tail (h : Inv s l) {p : Push A T} {node : Node A T}
    (hfresh : p.fresh = s.producer.fresh)
    (hat : Que.ProducerAt { s with mem := store s.mem s.tail node, producer := p } p) :
    Inv { s with mem := store s.mem s.tail node, producer := p } l := by
  refine h.producer_step rfl rfl rfl rfl rfl rfl (fun r hr => valid_store hr) (fun a _ hne => ?_)
    (h.fresh_of hfresh fun r hr => valid_store hr) hat
  exact congrArg Cell.val (store_of_ne hne)

omit [DecidableEq A] in
/-- `tail.store(p)`: the dummy becomes the last node that holds a value. -/
theorem Inv.store_tail (h : Inv s l) {v : T} {p old_tail : Ref A}
    (hpc : s.producer = .store_tail v p old_tail) :
    Inv { s with producer := .idle, tail := p.addr, produced := s.produced ++ [v] }
      (l ++ [s.tail]) := by
  have hat := h.producer
  rw [hpc] at hat
  obtain ⟨-, -, hdata, hnext⟩ := hat
  obtain ⟨hpvalid, hpnot⟩ := h.fresh p (by rw [hpc]; rfl)
  have hmem : ∀ a, a ∈ p.addr :: (l ++ [s.tail]) ↔ a = p.addr ∨ a ∈ s.tail :: l := by
    intro a
    simp only [List.mem_cons, List.mem_append, List.not_mem_nil, or_false]
    tauto
  have hgone : s.gone ≤ s.produced.length := h.gone_le
  refine ⟨?_, ?_, ?_, ?_, ?_, ?_, h.answers.produce v, ?_, ?_, ?_, trivial, ?_⟩
  · exact path_concat.mpr ⟨h.path, hnext⟩
  · have hperm : (p.addr :: (l ++ [s.tail])).Perm (p.addr :: s.tail :: l) :=
      (List.perm_append_singleton s.tail l).cons p.addr
    exact hperm.nodup_iff.mpr (List.nodup_cons.mpr ⟨hpnot, h.nodup⟩)
  · intro a ha
    rcases (hmem a).mp ha with rfl | ha
    · exact hpvalid.1
    · exact h.live a ha
  · change (l ++ [s.tail]).map s.data = ((s.produced ++ [v]).drop s.gone).map some
    rw [List.map_append, h.data, List.drop_append_of_le_length hgone, List.map_append]
    rw [List.map_singleton, List.map_singleton, hdata]
  · change s.gone ≤ (s.produced ++ [v]).length
    rw [List.length_append]
    omega
  · change s.seen ≤ (s.produced ++ [v]).length
    rw [List.length_append]
    exact Nat.le_trans h.seen_le (Nat.le_add_right _ _)
  · intro r hr
    refine ⟨(h.taken r hr).1, fun hin => ?_⟩
    rcases (hmem _).mp hin with heq | hin
    · exact h.apart r p hr (by rw [hpc]; rfl) heq
    · exact (h.taken r hr).2 hin
  · intro r hr
    contradiction
  · intro r r' _ hr'
    contradiction
  · -- the consumer is at a node of the list, so not at the new dummy
    refine h.consumer.frame rfl rfl rfl h.seen_le ⟨[v], rfl⟩
      (fun r hr => ⟨(h.taken r hr).1, fun heq => (h.taken r hr).2 (heq ▸ List.mem_cons_self)⟩)
      (fun _ hr => hr) (fun _ _ _ => rfl) ?_
    intro r hr hne heq
    rcases h.head_cases with ⟨-, hhead⟩ | ⟨a, rest, rfl, hhead, -⟩
    · exact hne (Option.some.inj (hr.1.symm.trans hhead))
    · have hra : r.addr = a := Option.some.inj (hr.1.symm.trans hhead)
      have heq : r.addr = p.addr := heq
      rw [← heq, hra] at hpnot
      exact hpnot (List.mem_cons_of_mem _ List.mem_cons_self)

/-- The producer writes into the dummy, which the consumer does not read before the store to `tail`.
-/
theorem Inv.stepProducer (h : Inv s l) (hs : s.stepProducer = some s') : ∃ l', Inv s' l' := by
  have hat := h.producer
  unfold Que.stepProducer at hs
  cases hpc : s.producer with
  | idle => simp [hpc] at hs
  | new_node v => simp [hpc] at hs
  | load_tail v p =>
      simp only [hpc, Option.some.injEq] at hs
      subst hs
      refine ⟨l, h.producer_step rfl rfl rfl rfl rfl rfl (fun _ hr => hr) (fun _ _ _ => rfl)
        (h.fresh_of (by rw [hpc]; rfl) fun _ hr => hr) ⟨rfl, valid_ref ?_⟩⟩
      exact h.live _ List.mem_cons_self
  | read_data v p old_tail =>
      simp only [hpc, Option.some.injEq] at hs
      rw [hpc] at hat
      subst hs
      exact ⟨l, h.producer_step rfl rfl rfl rfl rfl rfl (fun _ hr => hr) (fun _ _ _ => rfl)
        (h.fresh_of (by rw [hpc]; rfl) fun _ hr => hr) hat⟩
  | write_data v p old_tail =>
      simp only [hpc, Option.some.injEq] at hs
      rw [hpc] at hat
      obtain ⟨haddr, hvalid⟩ := hat
      subst hs
      rw [haddr]
      refine ⟨l, h.write_tail (by rw [hpc]; rfl) ⟨haddr, valid_store hvalid, ?_⟩⟩
      simp only [Que.data, store_self]
  | write_next v p old_tail =>
      simp only [hpc, Option.some.injEq] at hs
      rw [hpc] at hat
      obtain ⟨haddr, hvalid, hdata⟩ := hat
      subst hs
      rw [haddr]
      refine ⟨l, h.write_tail (by rw [hpc]; rfl) ⟨haddr, valid_store hvalid, ?_, ?_⟩⟩
      · simpa only [Que.data, store_self] using hdata
      · simp only [Que.next, store_self]
  | store_tail v p old_tail =>
      simp only [hpc, Option.some.injEq] at hs
      subst hs
      exact ⟨_, h.store_tail hpc⟩

/-! ## The steps of the consumer -/

omit [DecidableEq A] in
/-- A step of the consumer that reads only, or returns nothing. -/
theorem Inv.consumer_step (h : Inv s l) {c : Pop A T} {pops : List (Option T × Nat)} {seen : Nat}
    (htaken : c.taken = s.consumer.taken) (hobtained : obtained pops = obtained s.pops)
    (hseen : seen ≤ s.produced.length) (hanswers : Answers s.produced pops)
    (hat : Que.ConsumerAt { s with consumer := c, pops := pops, seen := seen } c) :
    Inv { s with consumer := c, pops := pops, seen := seen } l := by
  have hgone : Que.gone { s with consumer := c, pops := pops, seen := seen } = s.gone := by
    simp only [Que.gone, hobtained, htaken]
  refine ⟨h.path, h.nodup, h.live, ?_, ?_, hseen, hanswers, ?_, h.fresh, ?_, ?_, hat⟩
  · rw [hgone]
    exact h.data
  · rw [hgone]
    exact h.gone_le
  · intro r hr
    exact h.taken r (htaken ▸ hr)
  · intro r r' hr hr'
    exact h.apart r r' (htaken ▸ hr) hr'
  · have hp := h.producer
    cases hpc : s.producer <;> rw [hpc] at hp <;> exact hp

omit [DecidableEq A] in
/-- `head.store(next)`: the first node is taken off. -/
theorem Inv.store_head (h : Inv s l) {old_head : Ref A} {next : Option A}
    (hpc : s.consumer = .store_head old_head next) :
    ∃ l', Inv { s with consumer := .read_data old_head, head := next } l' := by
  have hat := h.consumer
  rw [hpc] at hat
  obtain ⟨⟨hhead, hvalid⟩, hne, hfound, rfl⟩ := hat
  have hgone : s.gone = (obtained s.pops).length := by
    rw [Que.gone, hpc]
    rfl
  have hgone' : Que.gone { s with consumer := .read_data old_head, head := s.next old_head.addr } =
      (obtained s.pops).length + 1 := rfl
  have hlt : s.gone < s.produced.length :=
    h.gone_lt_of_head fun heq => hne (Option.some.inj (hhead.symm.trans heq))
  rcases h.head_cases with ⟨-, hhead'⟩ | ⟨a, rest, rfl, hhead', -⟩
  · exact absurd (Option.some.inj (hhead.symm.trans hhead')) hne
  · obtain rfl : old_head.addr = a := Option.some.inj (hhead.symm.trans hhead')
    have hnodup : (old_head.addr :: s.tail :: rest).Nodup :=
      (List.Perm.swap s.tail old_head.addr rest).nodup_iff.mpr h.nodup
    obtain ⟨hnot, hnodup⟩ := List.nodup_cons.mp hnodup
    have hdata := h.data
    rw [hgone, ← List.getElem_cons_drop (by omega), List.map_cons, List.map_cons,
      List.cons.injEq] at hdata
    have hsub : ∀ {b}, b ∈ s.tail :: rest → b ∈ s.tail :: old_head.addr :: rest := by
      intro b hb
      rcases List.mem_cons.mp hb with rfl | hb
      · exact List.mem_cons_self
      · exact List.mem_cons_of_mem _ (List.mem_cons_of_mem _ hb)
    refine ⟨rest, (path_cons.mp h.path).2, hnodup, fun b hb => h.live b (hsub hb), ?_, ?_,
      h.seen_le, h.answers, ?_, ?_, ?_, ?_, ⟨hfound, ?_⟩⟩
    · rw [hgone']
      exact hdata.2
    · rw [hgone']
      exact hgone ▸ hlt
    · intro r hr
      obtain rfl : old_head = r := Option.some.inj hr
      exact ⟨hvalid, hnot⟩
    · intro r hr
      exact ⟨(h.fresh r hr).1, fun hin => (h.fresh r hr).2 (hsub hin)⟩
    · intro r r' hr hr' heq
      obtain rfl : old_head = r := Option.some.inj hr
      exact (h.fresh r' hr').2 (heq ▸ List.mem_cons_of_mem _ List.mem_cons_self)
    · have hp := h.producer
      cases hpc' : s.producer <;> rw [hpc'] at hp <;> exact hp
    · have hin : (obtained s.pops).length < s.produced.length := hgone ▸ hlt
      exact hdata.1.trans (List.getElem?_eq_getElem hin).symm

/-- `delete old_head`, and `pop` returns. -/
theorem Inv.delete_head (h : Inv s l) {old_head : Ref A} {res : Option T}
    (hpc : s.consumer = .delete_head old_head res) :
    Inv { s.ret res s.seen with mem := free s.mem old_head.addr } l := by
  have hat := h.consumer
  rw [hpc] at hat
  obtain ⟨hfound, hres⟩ := hat
  obtain ⟨hvalid, hnot⟩ := h.taken old_head (by rw [hpc]; rfl)
  -- the value that is returned is there
  have hlt : (obtained s.pops).length < s.produced.length :=
    Nat.lt_of_lt_of_le hfound h.seen_le
  have hgone : s.gone = (obtained s.pops).length + 1 := by
    rw [Que.gone, hpc]
    rfl
  have hgone' : Que.gone { s.ret res s.seen with mem := free s.mem old_head.addr } = s.gone := by
    rw [hgone]
    change (obtained (s.pops ++ [(res, s.seen)])).length + 0 = _
    rw [obtained_concat, List.length_append, hres, List.getElem?_eq_getElem hlt]
    rfl
  have hother : ∀ a ∈ s.tail :: l, free s.mem old_head.addr a = s.mem a := fun a ha =>
    free_of_ne fun heq => hnot (heq ▸ ha)
  have hl : ∀ a ∈ l, free s.mem old_head.addr a = s.mem a := fun a ha =>
    hother a (List.mem_cons_of_mem _ ha)
  refine ⟨?_, h.nodup, ?_, ?_, ?_, h.seen_le, ?_, ?_, ?_, ?_, ?_, trivial⟩
  · exact h.path.congr fun a ha => congrArg (fun c => c.val.next) (hl a ha)
  · intro a ha
    exact (congrArg Cell.live (hother a ha)).trans (h.live a ha)
  · rw [hgone']
    exact (List.map_congr_left fun a ha => congrArg (fun c => c.val.data) (hl a ha)).trans h.data
  · rw [hgone']
    exact h.gone_le
  · refine h.answers.pop h.seen_le ?_
    have hin : (obtained s.pops).length < s.seen := hfound
    rw [List.getElem?_take, if_pos hin, hres]
  · intro r hr
    contradiction
  · intro r hr
    have hapart := h.apart old_head r (by rw [hpc]; rfl) hr
    exact ⟨(h.fresh r hr).1.of_eq (free_of_ne hapart.symm), (h.fresh r hr).2⟩
  · intro r r' hr
    contradiction
  · -- the dummy is another node
    have htail : free s.mem old_head.addr s.tail = s.mem s.tail := hother _ List.mem_cons_self
    have hp := h.producer
    have hkeep : ∀ r : Ref A, r.addr = s.tail → Valid s.mem r →
        Valid (free s.mem old_head.addr) r := fun r hr hv => hv.of_eq (by rw [hr, htail])
    change Que.ProducerAt _ s.producer
    cases hpc' : s.producer with
    | idle => trivial
    | new_node v => trivial
    | load_tail v p => trivial
    | read_data v p old_tail =>
        rw [hpc'] at hp
        exact ⟨hp.1, hkeep _ hp.1 hp.2⟩
    | write_data v p old_tail =>
        rw [hpc'] at hp
        exact ⟨hp.1, hkeep _ hp.1 hp.2⟩
    | write_next v p old_tail =>
        rw [hpc'] at hp
        exact ⟨hp.1, hkeep _ hp.1 hp.2.1, (congrArg (fun c => c.val.data) htail).trans hp.2.2⟩
    | store_tail v p old_tail =>
        rw [hpc'] at hp
        exact ⟨hp.1, hkeep _ hp.1 hp.2.1, (congrArg (fun c => c.val.data) htail).trans hp.2.2.1,
          (congrArg (fun c => c.val.next) htail).trans hp.2.2.2⟩

/-- The consumer takes the head off only when it has seen a tail that is further on. -/
theorem Inv.stepConsumer (h : Inv s l) (hs : s.stepConsumer = some s') : ∃ l', Inv s' l' := by
  have hat := h.consumer
  unfold Que.stepConsumer at hs
  cases hpc : s.consumer with
  | idle => simp [hpc] at hs
  | crashed => simp [hpc] at hs
  | load_head =>
      simp only [hpc, Option.some.injEq] at hs
      subst hs
      -- `head` is never null
      obtain ⟨a, ha⟩ : ∃ a, s.head = some a := by
        rcases h.head_cases with ⟨-, hhead⟩ | ⟨a, rest, -, hhead, -⟩
        · exact ⟨s.tail, hhead⟩
        · exact ⟨a, hhead⟩
      refine ⟨l, h.consumer_step (by rw [hpc]; rfl) rfl h.seen_le h.answers
        ⟨ref s.mem a, by rw [ha]; rfl, ha, valid_ref (h.head_live ha)⟩⟩
  | load_tail old_head =>
      rw [hpc] at hat
      obtain ⟨r, rfl, hhead, hvalid⟩ := hat
      have hgone : s.gone = (obtained s.pops).length := by
        rw [Que.gone, hpc]
        rfl
      simp only [hpc] at hs
      split at hs
      case isTrue heq =>
          rw [Option.some.injEq] at hs
          subst hs
          -- the list is empty: all that was produced has been returned
          have hall := h.gone_of_head (hhead.trans heq)
          have hanswers : Answers s.produced (s.pops ++ [(none, s.produced.length)]) := by
            refine h.answers.pop (Nat.le_refl _) ?_
            rw [List.take_length, List.getElem?_eq_none (by omega)]
          have hobtained : obtained (s.pops ++ [(none, s.produced.length)]) = obtained s.pops := by
            rw [obtained_concat, Option.toList_none, List.append_nil]
          exact ⟨l, h.consumer_step (by rw [hpc]; rfl) hobtained (Nat.le_refl _) hanswers trivial⟩
      case isFalse hne =>
          rw [Option.some.injEq] at hs
          subst hs
          have hlt := h.gone_lt_of_head fun heq => hne (hhead.symm.trans heq)
          refine ⟨l, h.consumer_step (by rw [hpc]; rfl) rfl (Nat.le_refl _) h.answers
            ⟨r, rfl, ⟨hhead, hvalid⟩, fun heq => hne (congrArg some heq), ?_⟩⟩
          change (obtained s.pops).length < s.produced.length
          omega
  | read_next old_head =>
      rw [hpc] at hat
      obtain ⟨r, rfl, hathead, hne, hfound⟩ := hat
      simp only [hpc, Option.some.injEq] at hs
      subst hs
      exact ⟨l, h.consumer_step (by rw [hpc]; rfl) rfl h.seen_le h.answers
        ⟨hathead, hne, hfound, rfl⟩⟩
  | store_head old_head next =>
      simp only [hpc, Option.some.injEq] at hs
      subst hs
      exact h.store_head hpc
  | read_data old_head =>
      rw [hpc] at hat
      simp only [hpc, Option.some.injEq] at hs
      subst hs
      exact ⟨l, h.consumer_step (by rw [hpc]; rfl) rfl h.seen_le h.answers ⟨hat.1, hat.2⟩⟩
  | delete_head old_head res =>
      simp only [hpc, Option.some.injEq] at hs
      subst hs
      exact ⟨l, h.delete_head hpc⟩

/-! ## Every run -/

/-- The constructor makes one dummy for both ends. -/
theorem inv_init (dummy : A) : Inv (Que.init dummy : Que A T) [] where
  path := rfl
  nodup := by simp
  live a ha := by
    obtain rfl : a = dummy := by simpa [Que.init] using ha
    exact congrArg Cell.live alloc_self
  data := rfl
  gone_le := Nat.le_refl 0
  seen_le := Nat.le_refl 0
  answers := answers_nil
  taken r hr := by contradiction
  fresh r hr := by contradiction
  apart r r' hr := by contradiction
  producer := trivial
  consumer := trivial

/-- Either thread keeps the invariant. -/
theorem step_inv (h : ∃ l, Inv s l) {a : Act A T} (ha : s.step a = some s') :
    ∃ l, Inv s' l := by
  obtain ⟨l, h⟩ := h
  cases a with
  | push v =>
      simp only [Que.step] at ha
      split at ha
      case h_1 hpc =>
          rw [Option.some.injEq] at ha
          exact ⟨l, ha ▸ h.push v⟩
      case h_2 => contradiction
  | new a =>
      simp only [Que.step] at ha
      split at ha
      case h_1 v hpc =>
          split at ha
          case isTrue => contradiction
          case isFalse hlive =>
              rw [Option.some.injEq] at ha
              exact ⟨l, ha ▸ h.new v (Bool.not_eq_true _ ▸ hlive)⟩
      case h_2 => contradiction
  | producer => exact h.stepProducer ha
  | pop =>
      simp only [Que.step] at ha
      split at ha
      case h_1 hpc =>
          rw [Option.some.injEq] at ha
          exact ⟨l, ha ▸ h.consumer_step (by rw [hpc]; rfl) rfl h.seen_le h.answers trivial⟩
      case h_2 => contradiction
  | consumer => exact h.stepConsumer ha

omit [DecidableEq A] in
/-- What is said of the queue is read off the invariant. -/
theorem Inv.safe (h : Inv s l) : Safe s where
  producer r hr := by
    have hat := h.producer
    cases hpc : s.producer with
    | idle => simp [hpc, Push.accesses] at hr
    | new_node v => simp [hpc, Push.accesses] at hr
    | load_tail v p => simp [hpc, Push.accesses] at hr
    | store_tail v p old_tail => simp [hpc, Push.accesses] at hr
    | read_data v p old_tail =>
        rw [hpc] at hat hr
        exact Option.some.inj hr ▸ hat.2
    | write_data v p old_tail =>
        rw [hpc] at hat hr
        exact Option.some.inj hr ▸ hat.2
    | write_next v p old_tail =>
        rw [hpc] at hat hr
        exact Option.some.inj hr ▸ hat.2.1
  consumer r hr := by
    have hat := h.consumer
    cases hpc : s.consumer with
    | idle => simp [hpc, Pop.accesses] at hr
    | load_head => simp [hpc, Pop.accesses] at hr
    | load_tail old_head => simp [hpc, Pop.accesses] at hr
    | store_head old_head next => simp [hpc, Pop.accesses] at hr
    | crashed => simp [hpc, Pop.accesses] at hr
    | read_next old_head =>
        rw [hpc] at hat hr
        obtain ⟨r', hr', hathead, -⟩ := hat
        exact Option.some.inj (hr'.symm.trans hr) ▸ hathead.2
    | read_data old_head =>
        rw [hpc] at hr
        exact (h.taken r (by rw [hpc]; exact hr)).1
    | delete_head old_head res =>
        rw [hpc] at hr
        exact (h.taken r (by rw [hpc]; exact hr)).1
  no_crash hcrash := by
    have hat := h.consumer
    rw [hcrash] at hat
    exact hat

/-- **The queue.** After any steps of the two threads each `pop` has returned the first value
that was produced before its look at `tail` and not returned yet, or nothing if all of these
had been returned; together the values are the first ones that were produced, in their
order, and the nodes from `head` on hold those that were not taken off; and neither thread is
about to access a node that was deleted. -/
theorem spsc_queue (dummy : A) (as : List (Act A T)) :
    ∀ s, (lts dummy).exec (Que.init dummy) as = some s →
      Answers s.produced s.pops ∧ obtained s.pops <+: s.produced ∧
        (∃ l, Path s.next s.head l (some s.tail) ∧
          l.map s.data = (s.produced.drop s.gone).map some) ∧ Safe s := by
  intro s hs
  obtain ⟨l, h⟩ := (lts dummy).exec_inv (P := fun s => ∃ l, Inv s l)
    (fun _ _ _ hi ht => step_inv hi ht) ⟨[], inv_init dummy⟩ hs
  refine ⟨h.answers, ?_, ⟨l, h.path, h.data⟩, h.safe⟩
  rw [h.answers.obtained_eq]
  exact List.take_prefix _ _

end Steps

/-- A push, and a `pop` that finds it. -/
def test_run : List (Act Nat Nat) :=
  [.push 7, .new 1] ++ List.replicate 5 .producer ++ [.pop] ++ List.replicate 6 .consumer

theorem spsc_queue_test : ∃ s, (lts 0).exec (Que.init 0) test_run = some s ∧
    s.pops = [(some 7, 1)] ∧ Answers s.produced s.pops ∧ Safe s :=
  ⟨_, rfl, rfl, (spsc_queue 0 test_run _ rfl).1, (spsc_queue 0 test_run _ rfl).2.2.2⟩

end BoostNet.SinglePopPush
