/-
`CircularQueSync` in the hands of one producer and one consumer, with the memory orders that it
gives its loads and CAS operations: what one thread does to a slot need not have happened before
what the other does there, unless a store that releases and a load that acquires say so.
`CircularQueLight` is the same with `seq_cst` throughout.

* `Inv`: the messages of `_tail_update` tell of the writes to the slots before, those of `_head` of
  the reads of the slots before. `room` is what the producer has taken over of `_head`, `filled`
  what the consumer has taken over of `_tail_update`.
* `spsc`: no access to a slot races, and the values come out in the order in which they went in.
-/
import BoostNet.Atomics
import BoostNet.Lts

set_option autoImplicit false

namespace BoostNet.CircularQueSync

open Atomics

/-! ## The queue -/

inductive Object where
  | head
  | tail
  | tail_update
  deriving DecidableEq

inductive Thread where
  | producer
  | consumer
  deriving DecidableEq

/-- The memory orders, in the order of the source: of `pop` the three loads and the CAS, of `push`
the two loads and the two CAS. -/
structure Orders where
  pop_head : MemoryOrder
  pop_tail : MemoryOrder
  pop_tail_update : MemoryOrder
  pop_cas : MemoryOrder
  push_tail : MemoryOrder
  push_head : MemoryOrder
  push_cas : MemoryOrder
  push_update : MemoryOrder
  failure : MemoryOrder

/-- Those of the class. -/
def orders : Orders where
  pop_head := .relaxed
  pop_tail := .acquire
  pop_tail_update := .acquire
  pop_cas := .release
  push_tail := .relaxed
  push_head := .acquire
  push_cas := .release
  push_update := .release
  failure := .relaxed

def CircularQueLight : Orders where
  pop_head := .seq_cst
  pop_tail := .seq_cst
  pop_tail_update := .seq_cst
  pop_cas := .seq_cst
  push_tail := .seq_cst
  push_head := .seq_cst
  push_cas := .seq_cst
  push_update := .seq_cst
  failure := .seq_cst

/-- Where `push` is. -/
inductive Push (T : Type*) where
  | idle
  | load_tail (val : T)
  | load_head (val : T) (t : Nat)
  | cas_tail (val : T) (t : Nat)
  | write (val : T) (t : Nat)
  | cas_tail_update (val : T) (t : Nat)

/-- Where `pop` is; between two calls it is at its first load. -/
inductive Pop (T : Type*) where
  | load_head
  | load_tail (h : Nat)
  | load_tail_update (h : Nat)
  | read (h : Nat)
  | cas_head (h : Nat) (val : Option T)

/-- `pushed` and `popped` are the values of the calls that have returned `true`. A slot that has
not been written holds none. -/
structure St (T : Type*) where
  mem : Mem Thread Object Nat fun _ => Nat
  data : Nat → Option T
  push : Push T
  pop : Pop T
  pushed : List T
  popped : List (Option T)

def St.init {T : Type*} : St T where
  mem := .init fun _ => 0
  data _ := none
  push := .idle
  pop := .load_head
  pushed := []
  popped := []

/-- `push(val)` is called, or a thread takes its next step, on the message at a time. -/
inductive Act (T : Type*) where
  | push (val : T)
  | producer (time : Nat)
  | consumer (time : Nat)

variable {T : Type*}

/-- `_max_size`. -/
def max_size (Cap : Nat) : Nat := Cap + 1

def producer (o : Orders) (Cap : Nat) (s : St T) (time : Nat) : Option (St T) :=
  match s.push with
  | .idle => none
  | .load_tail val => (s.mem.load .producer .tail o.push_tail time).map fun (t, mem) =>
      { s with mem, push := .load_head val t }
  | .load_head val t => (s.mem.load .producer .head o.push_head time).map fun (head, mem) =>
      { s with
        mem
        push := if (t + 1) % max_size Cap = head then .idle else .cas_tail val t }
  | .cas_tail val t => (s.mem.cas .producer .tail o.push_cas o.failure t
        ((t + 1) % max_size Cap) time).map fun (tail, mem) =>
      { s with mem, push := if tail = t then .write val t else .load_tail val }
  | .write val t => some { s with
      mem := s.mem.access .producer t true
      data := Function.update s.data t (some val)
      push := .cas_tail_update val t }
  | .cas_tail_update val t => (s.mem.cas .producer .tail_update o.push_update o.failure t
        ((t + 1) % max_size Cap) time).map fun (tailup, mem) =>
      if tailup = t then { s with mem, push := .idle, pushed := s.pushed ++ [val] }
      else { s with mem }

def consumer (o : Orders) (Cap : Nat) (s : St T) (time : Nat) : Option (St T) :=
  match s.pop with
  | .load_head => (s.mem.load .consumer .head o.pop_head time).map fun (h, mem) =>
      { s with mem, pop := .load_tail h }
  | .load_tail h => (s.mem.load .consumer .tail o.pop_tail time).map fun (tail, mem) =>
      { s with mem, pop := if h = tail then .load_head else .load_tail_update h }
  | .load_tail_update h =>
      (s.mem.load .consumer .tail_update o.pop_tail_update time).map fun (tailup, mem) =>
        { s with mem, pop := if h = tailup then .load_head else .read h }
  | .read h => some { s with
      mem := s.mem.access .consumer h false
      pop := .cas_head h (s.data h) }
  | .cas_head h val => (s.mem.cas .consumer .head o.pop_cas o.failure h
        ((h + 1) % max_size Cap) time).map fun (head, mem) =>
      if head = h then { s with mem, pop := .load_head, popped := s.popped ++ [val] }
      else { s with mem, pop := .load_head }

def lts (o : Orders) (Cap : Nat) : Lts (St T) (Act T) where
  init := .init
  step s a :=
    match a with
    | .push val =>
        match s.push with
        | .idle => some { s with push := .load_tail val }
        | _ => none
    | .producer time => producer o Cap s time
    | .consumer time => consumer o Cap s time

/-- Neither thread is about to race for a slot. -/
def RaceFree (s : St T) : Prop :=
  (∀ val t, s.push = .write val t → ¬ s.mem.Races .producer t true) ∧
    ∀ h, s.pop = .read h → ¬ s.mem.Races .consumer h false

/-- What the two threads rely on: `_tail_update` hands over the writes, and `_head` the reads. -/
def Synchronizes (o : Orders) : Prop :=
  (o.push_update.releases = true ∧ o.pop_tail_update.acquires = true) ∧
    o.pop_cas.releases = true ∧ o.push_head.acquires = true

instance (o : Orders) : Decidable (Synchronizes o) := inferInstanceAs (Decidable (_ ∧ _))

/-! ## The invariant -/

/-- The messages of `x` count round the ring, up to `n`. -/
def Counts (Cap : Nat) (x : Object) (n : Nat) (mem : Mem Thread Object Nat fun _ => Nat) : Prop :=
  mem.Sent x fun t m => t ≤ n ∧ m.value = t % max_size Cap

/-- The accesses of `i` belong to the slots of indices that have `P`. A message of `x` tells of
those of smaller indices. -/
def Tells (Cap : Nat) (i : Thread) (x : Object) (P : Nat → Prop)
    (mem : Mem Thread Object Nat fun _ => Nat) : Prop :=
  ∀ j, ∀ a ∈ mem.accesses j, a.thread = i →
    a.clock ≤ (mem.views i).cur.2 i ∧ ∃ k, k % max_size Cap = j ∧ P k ∧
      ∀ u m, k < u → mem.msgs x u = some m → a.clock ≤ m.view.2 i

/-- `tail`, `filled` and `head` are how often the three indices have been advanced. -/
structure Core (Cap tail filled head : Nat) (mem : Mem Thread Object Nat fun _ => Nat)
    (data : Nat → Option T) (pushed : List T) (popped : List (Option T)) : Prop where
  tails : Counts Cap .tail tail mem
  updates : Counts Cap .tail_update filled mem
  heads : Counts Cap .head head mem
  order : head ≤ filled ∧ filled ≤ tail
  writes : Tells Cap .producer .tail_update (fun k => k ≤ filled) mem
  reads : Tells Cap .consumer .head (fun k => k < filled ∧ k ≤ head) mem
  own_tail : tail ≤ (mem.views .producer).cur.1 .tail
  own_update : filled ≤ (mem.views .producer).cur.1 .tail_update
  own_head : head ≤ (mem.views .consumer).cur.1 .head
  room : ∃ k, mem.Acquired .producer .head k ∧ tail ≤ k + Cap
  taken : ∃ k, mem.Acquired .consumer .tail_update k ∧ head ≤ k
  length : pushed.length = filled
  taken_eq : popped = (pushed.take head).map some
  slots : ∀ k, head ≤ k → (h : k < pushed.length) →
    data (k % max_size Cap) = some (pushed.get ⟨k, h⟩)

/-- What the producer knows. -/
def Push.Knows (Cap tail filled : Nat) (mem : Mem Thread Object Nat fun _ => Nat)
    (data : Nat → Option T) : Push T → Prop
  | .idle => tail = filled
  | .load_tail _ => tail = filled
  | .load_head _ t => tail = filled ∧ t = tail % max_size Cap
  | .cas_tail _ t => tail = filled ∧ t = tail % max_size Cap ∧
      ∃ k, mem.Acquired .producer .head k ∧ tail < k + Cap
  | .write _ t => tail = filled + 1 ∧ t = filled % max_size Cap
  | .cas_tail_update val t => tail = filled + 1 ∧ t = filled % max_size Cap ∧ data t = some val

/-- The consumer has seen that the slot at `head` is filled. -/
def Filled (head : Nat) (mem : Mem Thread Object Nat fun _ => Nat) : Prop :=
  ∃ k, mem.Acquired .consumer .tail_update k ∧ head < k

/-- What the consumer knows. -/
def Pop.Knows (Cap head : Nat) (mem : Mem Thread Object Nat fun _ => Nat) (pushed : List T) :
    Pop T → Prop
  | .load_head => True
  | .load_tail h => h = head % max_size Cap
  | .load_tail_update h => h = head % max_size Cap
  | .read h => h = head % max_size Cap ∧ Filled head mem
  | .cas_head h val => h = head % max_size Cap ∧ Filled head mem ∧
      ∃ h : head < pushed.length, val = some (pushed.get ⟨head, h⟩)

structure Inv (Cap tail filled head : Nat) (s : St T) : Prop where
  core : Core Cap tail filled head s.mem s.data s.pushed s.popped
  push_knows : s.push.Knows Cap tail filled s.mem s.data
  pop_knows : s.pop.Knows Cap head s.mem s.pushed

section Knows

variable {Cap tail filled head : Nat} {mem mem' : Mem Thread Object Nat fun _ => Nat}
  {data : Nat → Option T} {pushed : List T} {val : T}

/-- What the producer knows of its own indices stays true, whatever the other thread does. -/
theorem Push.Knows.grows {p : Push T} (h : p.Knows Cap tail filled mem data)
    (hg : mem.Grows mem') : p.Knows Cap tail filled mem' data := by
  cases p with
  | idle | load_tail | load_head | write | cas_tail_update => exact h
  | cas_tail val t =>
      obtain ⟨htail, ht, k, hk, hlt⟩ := h
      exact ⟨htail, ht, k, hk.grows hg, hlt⟩

theorem Filled.grows (h : Filled head mem) (hg : mem.Grows mem') : Filled head mem' := by
  obtain ⟨k, hk, hlt⟩ := h
  exact ⟨k, hk.grows hg, hlt⟩

/-- So does what the consumer knows. -/
theorem Pop.Knows.grows {p : Pop T} (h : p.Knows Cap head mem pushed) (hg : mem.Grows mem') :
    p.Knows Cap head mem' pushed := by
  cases p with
  | load_head | load_tail | load_tail_update => exact h
  | read => exact ⟨h.1, h.2.grows hg⟩
  | cas_head => exact ⟨h.1, h.2.1.grows hg, h.2.2⟩

/-- What is pushed behind does not concern the consumer. -/
theorem Pop.Knows.append {p : Pop T} (h : p.Knows Cap head mem pushed) :
    p.Knows Cap head mem (pushed ++ [val]) := by
  cases p with
  | load_head | load_tail | load_tail_update | read => exact h
  | cas_head h' val' =>
      obtain ⟨hh, hfilled, hlt, hval⟩ := h
      have hlt' : head < (pushed ++ [val]).length :=
        hlt.trans_le (List.length_append.trans_ge (Nat.le_add_right _ _))
      refine ⟨hh, hfilled, hlt', hval.trans ?_⟩
      rw [List.get_eq_getElem, List.get_eq_getElem, List.getElem_append_left]

end Knows

/-! ## Messages and accesses -/

section Tells

variable {Cap n : Nat} {i : Thread} {x y : Object} {P Q : Nat → Prop} {o : MemoryOrder} {u j : Nat}
  {mem mem' : Mem Thread Object Nat fun _ => Nat} {m m' : Msg Thread Object Nat} {write : Bool}

/-- A new message follows the newest one. -/
theorem Counts.put (h : Counts Cap x n mem) (hmsgs : mem'.msgs = (mem.put x (n + 1) m).msgs)
    (hvalue : m.value = (n + 1) % max_size Cap) : Counts Cap x (n + 1) mem' := by
  refine Mem.Sent.put ?_ hmsgs ⟨le_rfl, hvalue⟩
  exact fun t m hm => ⟨(h t m hm).1.trans (Nat.le_succ n), (h t m hm).2⟩

/-- A message that tells more tells less. -/
theorem Tells.imp (h : Tells Cap i x P mem) (hPQ : ∀ k, P k → Q k) : Tells Cap i x Q mem := by
  intro j a ha hi
  obtain ⟨hown, k, hk, hP, htold⟩ := h j a ha hi
  exact ⟨hown, k, hk, hPQ k hP, htold⟩

theorem Tells.congr (h : Tells Cap i x P mem) (hmsgs : mem'.msgs x = mem.msgs x)
    (haccesses : mem'.accesses = mem.accesses) (hviews : mem.views ≤ mem'.views) :
    Tells Cap i x P mem' := by
  intro j a ha hi
  rw [haccesses] at ha
  obtain ⟨hown, k, hk, hP, htold⟩ := h j a ha hi
  rw [hmsgs]
  exact ⟨hown.trans ((hviews i).1.2 i), k, hk, hP, htold⟩

/-- A message that the thread itself releases tells of all its accesses. -/
theorem Tells.put (h : Tells Cap i x P mem) (hmsgs : mem'.msgs = (mem.put x u m).msgs)
    (haccesses : mem'.accesses = mem.accesses) (hviews : mem.views ≤ mem'.views)
    (htold : (mem.views i).cur ≤ m.view) : Tells Cap i x P mem' := by
  intro j a ha hi
  rw [haccesses] at ha
  obtain ⟨hown, k, hk, hP, hold⟩ := h j a ha hi
  refine ⟨hown.trans ((hviews i).1.2 i), k, hk, hP, fun w m' hlt hm' => ?_⟩
  rw [hmsgs] at hm'
  rcases Mem.put_some hm' with ⟨-, rfl⟩ | hm'
  · exact hown.trans (htold.2 i)
  · exact hold w m' hlt hm'

/-- An access of the thread for an index that no message is behind of. -/
theorem Tells.access (h : Tells Cap i x P mem) (hn : ∀ w m, mem.msgs x w = some m → w ≤ n)
    (hP : P n) : Tells Cap i x P (mem.access i (n % max_size Cap) write) := by
  intro j a ha hi
  have hold : a ∈ mem.accesses j →
      a.clock ≤ ((mem.access i (n % max_size Cap) write).views i).cur.2 i ∧
        ∃ k, k % max_size Cap = j ∧ P k ∧
        ∀ u m, k < u → mem.msgs x u = some m → a.clock ≤ m.view.2 i := by
    intro ha
    obtain ⟨hown, hrest⟩ := h j a ha hi
    exact ⟨hown.trans ((access_views i).1.2 i), hrest⟩
  by_cases hj : j = n % max_size Cap
  · rw [hj, access_accesses] at ha
    rcases List.mem_append.mp ha with ha | ha
    · exact hold (hj ▸ ha)
    · rw [List.mem_singleton.mp ha]
      refine ⟨access_own, n, hj.symm, hP, fun w m hlt hm => ?_⟩
      exact absurd (hn w m hm) (Nat.not_le_of_lt hlt)
  · rw [access_accesses_of_ne hj] at ha
    exact hold ha

/-- An access of another thread. -/
theorem Tells.access_other {i' : Thread} (h : Tells Cap i x P mem) (hi' : i' ≠ i) :
    Tells Cap i x P (mem.access i' j write) := by
  intro j' a ha hi
  have hmem : a ∈ mem.accesses j' := by
    by_cases hj : j' = j
    · rw [hj, access_accesses] at ha
      rcases List.mem_append.mp ha with ha | ha
      · exact hj ▸ ha
      · rw [List.mem_singleton.mp ha] at hi
        exact absurd hi hi'
    · rwa [access_accesses_of_ne hj] at ha
  obtain ⟨hown, hrest⟩ := h j' a hmem hi
  exact ⟨hown.trans ((access_views i).1.2 i), hrest⟩

end Tells

/-! ## Loads -/

section Core

variable {Cap tail filled head : Nat} {mem mem' : Mem Thread Object Nat fun _ => Nat}
  {data : Nat → Option T} {pushed : List T} {popped : List (Option T)} {val : T} {o : MemoryOrder}
  {t : Nat} {m m' : Msg Thread Object Nat} {i : Thread} {x : Object}

/-- At the start the three indices are zero, and nothing is in the slots. -/
theorem Core.init : Core Cap 0 0 0 (St.init : St T).mem (St.init : St T).data [] [] where
  tails := Mem.sent_init ⟨le_rfl, (Nat.zero_mod _).symm⟩
  updates := Mem.sent_init ⟨le_rfl, (Nat.zero_mod _).symm⟩
  heads := Mem.sent_init ⟨le_rfl, (Nat.zero_mod _).symm⟩
  order := ⟨le_rfl, le_rfl⟩
  writes _ _ ha := absurd ha List.not_mem_nil
  reads _ _ ha := absurd ha List.not_mem_nil
  own_tail := Nat.zero_le _
  own_update := Nat.zero_le _
  own_head := Nat.zero_le _
  room := ⟨0, Mem.acquired_init, Nat.zero_le _⟩
  taken := ⟨0, Mem.acquired_init, le_rfl⟩
  length := rfl
  taken_eq := rfl
  slots _ _ h := absurd h (Nat.not_lt_zero _)

/-- A load changes no index and no slot. -/
theorem Core.load (hc : Core Cap tail filled head mem data pushed popped)
    (hl : mem.Loaded mem' i x o t m) : Core Cap tail filled head mem' data pushed popped where
  tails := hc.tails.congr (congrFun hl.msgs _)
  updates := hc.updates.congr (congrFun hl.msgs _)
  heads := hc.heads.congr (congrFun hl.msgs _)
  order := hc.order
  writes := hc.writes.congr (congrFun hl.msgs _) hl.accesses hl.views
  reads := hc.reads.congr (congrFun hl.msgs _) hl.accesses hl.views
  own_tail := hc.own_tail.trans ((hl.views _).1.1 _)
  own_update := hc.own_update.trans ((hl.views _).1.1 _)
  own_head := hc.own_head.trans ((hl.views _).1.1 _)
  room := hc.room.imp fun _ h => ⟨h.1.grows hl.grows, h.2⟩
  taken := hc.taken.imp fun _ h => ⟨h.1.grows hl.grows, h.2⟩
  length := hc.length
  taken_eq := hc.taken_eq
  slots := hc.slots

/-- The producer never gets further ahead than the capacity. -/
theorem Core.room_le (hc : Core Cap tail filled head mem data pushed popped) :
    tail ≤ head + Cap := by
  obtain ⟨k, ⟨m, hm, -, -⟩, hle⟩ := hc.room
  exact hle.trans (Nat.add_le_add_right (hc.heads k m hm).1 Cap)

/-- What `_tail_update` has published is before the consumer. -/
theorem Core.head_lt (hc : Core Cap tail filled head mem data pushed popped)
    (hfilled : Filled head mem) : head < filled := by
  obtain ⟨k, ⟨m, hm, -, -⟩, hlt⟩ := hfilled
  exact hlt.trans_le (hc.updates k m hm).1

/-- The producer loads the newest message of `_tail`, which is its own. -/
theorem Core.load_tail (hc : Core Cap tail filled head mem data pushed popped)
    (hm : mem.msgs .tail t = some m) (hnewer : (mem.views .producer).cur.1 .tail ≤ t) :
    t = tail ∧ m.value = tail % max_size Cap := by
  obtain ⟨hle, hvalue⟩ := hc.tails t m hm
  obtain rfl := Nat.le_antisymm hle (hc.own_tail.trans hnewer)
  exact ⟨rfl, hvalue⟩

/-- The producer alone writes `_tail_update`, and so it reads its own last value. -/
theorem Core.load_update (hc : Core Cap tail filled head mem data pushed popped)
    (hm : mem.msgs .tail_update t = some m)
    (hnewer : (mem.views .producer).cur.1 .tail_update ≤ t) :
    t = filled ∧ m.value = filled % max_size Cap := by
  obtain ⟨hle, hvalue⟩ := hc.updates t m hm
  obtain rfl := Nat.le_antisymm hle (hc.own_update.trans hnewer)
  exact ⟨rfl, hvalue⟩

/-- The consumer alone writes `_head`, and so it reads its own last value. -/
theorem Core.load_head (hc : Core Cap tail filled head mem data pushed popped)
    (hm : mem.msgs .head t = some m) (hnewer : (mem.views .consumer).cur.1 .head ≤ t) :
    t = head ∧ m.value = head % max_size Cap := by
  obtain ⟨hle, hvalue⟩ := hc.heads t m hm
  obtain rfl := Nat.le_antisymm hle (hc.own_head.trans hnewer)
  exact ⟨rfl, hvalue⟩

/-- Where the producer does not find the ring full, there is room for one more. -/
theorem Core.not_full (hc : Core Cap tail filled head mem data pushed popped)
    (hl : mem.Loaded mem' .producer .head o t m) (ho : o.acquires = true)
    (hne : (tail % max_size Cap + 1) % max_size Cap ≠ m.value) :
    ∃ k, mem'.Acquired .producer .head k ∧ tail < k + Cap := by
  obtain ⟨k, ⟨-, -, -, hcur⟩, hle⟩ := hc.room
  have hkt : k ≤ t := hcur.trans hl.newer
  refine ⟨t, hl.acquired ho, lt_of_le_of_ne (hle.trans (Nat.add_le_add_right hkt Cap)) ?_⟩
  rintro rfl
  apply hne
  rw [(hc.heads t m hl.msg).2, Nat.mod_add_mod, Nat.add_assoc]
  exact Nat.add_mod_right t (Cap + 1)

/-- Where the consumer does not find `_tail_update` at its slot, the slot is filled. -/
theorem Core.not_empty (hc : Core Cap tail filled head mem data pushed popped)
    (hl : mem.Loaded mem' .consumer .tail_update o t m) (ho : o.acquires = true)
    (hne : head % max_size Cap ≠ m.value) : Filled head mem' := by
  obtain ⟨k, ⟨-, -, -, hcur⟩, hle⟩ := hc.taken
  refine ⟨t, hl.acquired ho, lt_of_le_of_ne (hle.trans (hcur.trans hl.newer)) ?_⟩
  rintro rfl
  exact hne (hc.updates head m hl.msg).2.symm

/-! ## The slots -/

/-- Less than a round apart the slots are different. -/
theorem mod_ne {k n size : Nat} (hlt : k < n) (hsize : n < k + size) : k % size ≠ n % size := by
  intro heq
  have hzero := Nat.sub_mod_eq_zero_of_mod_eq heq.symm
  rw [Nat.mod_eq_of_lt (by omega)] at hzero
  omega

/-- The producer knows all that has been done to the slot it writes. -/
theorem Core.write_known (hc : Core Cap tail filled head mem data pushed popped)
    (htail : tail = filled + 1) :
    Known true (mem.views .producer).cur (mem.accesses (filled % max_size Cap)) := by
  intro a ha _
  cases hthread : a.thread with
  | producer => exact (hc.writes _ a ha hthread).1
  | consumer =>
      obtain ⟨-, k, hk, ⟨hlt, -⟩, htold⟩ := hc.reads _ a ha hthread
      obtain ⟨K, ⟨m, hm, hview, -⟩, hle⟩ := hc.room
      have hround : k + max_size Cap ≤ filled := by
        by_contra hnot
        exact mod_ne hlt (Nat.lt_of_not_le hnot) hk
      rw [max_size] at hround
      exact (htold K m (by omega) hm).trans (hview.2 .consumer)

/-- The consumer knows of the writes to the slot it reads. -/
theorem Core.read_known (hc : Core Cap tail filled head mem data pushed popped)
    (hfilled : Filled head mem) :
    Known false (mem.views .consumer).cur (mem.accesses (head % max_size Cap)) := by
  intro a ha _
  cases hthread : a.thread with
  | consumer => exact (hc.reads _ a ha hthread).1
  | producer =>
      obtain ⟨-, k, hk, hle, htold⟩ := hc.writes _ a ha hthread
      obtain ⟨K, ⟨m, hm, hview, -⟩, hlt⟩ := hfilled
      have hle : k ≤ head := by
        by_contra hnot
        have hroom := hc.room_le
        have horder := hc.order.2
        have hsize : k < head + max_size Cap := by
          rw [max_size]
          omega
        exact mod_ne (Nat.lt_of_not_le hnot) hsize hk.symm
      exact (htold K m (hle.trans_lt hlt) hm).trans (hview.2 .producer)

/-- The producer fills the slot it has reserved. It has seen that the consumer is through with it.
-/
theorem Core.write (hc : Core Cap tail filled head mem data pushed popped)
    (htail : tail = filled + 1) :
    Core Cap tail filled head (mem.access .producer (filled % max_size Cap) true)
      (Function.update data (filled % max_size Cap) (some val)) pushed popped where
  tails := hc.tails
  updates := hc.updates
  heads := hc.heads
  order := hc.order
  writes := hc.writes.access (fun w m hm => (hc.updates w m hm).1) le_rfl
  reads := hc.reads.access_other (by decide)
  own_tail := hc.own_tail.trans ((access_views _).1.1 _)
  own_update := hc.own_update.trans ((access_views _).1.1 _)
  own_head := hc.own_head.trans ((access_views _).1.1 _)
  room := hc.room.imp fun _ h => ⟨h.1.grows access_grows, h.2⟩
  taken := hc.taken.imp fun _ h => ⟨h.1.grows access_grows, h.2⟩
  length := hc.length
  taken_eq := hc.taken_eq
  slots := by
    intro k hle hlt
    have hroom := hc.room_le
    have hne : k % max_size Cap ≠ filled % max_size Cap := by
      apply mod_ne (hc.length ▸ hlt)
      rw [max_size]
      omega
    rw [Function.update_of_ne hne]
    exact hc.slots k hle hlt

/-- The consumer reads the slot at the head. It has seen that the producer is through with it. -/
theorem Core.read (hc : Core Cap tail filled head mem data pushed popped)
    (hfilled : Filled head mem) :
    Core Cap tail filled head (mem.access .consumer (head % max_size Cap) false) data pushed
      popped where
  tails := hc.tails
  updates := hc.updates
  heads := hc.heads
  order := hc.order
  writes := hc.writes.access_other (by decide)
  reads := hc.reads.access (fun w m hm => (hc.heads w m hm).1) ⟨hc.head_lt hfilled, le_rfl⟩
  own_tail := hc.own_tail.trans ((access_views _).1.1 _)
  own_update := hc.own_update.trans ((access_views _).1.1 _)
  own_head := hc.own_head.trans ((access_views _).1.1 _)
  room := hc.room.imp fun _ h => ⟨h.1.grows access_grows, h.2⟩
  taken := hc.taken.imp fun _ h => ⟨h.1.grows access_grows, h.2⟩
  length := hc.length
  taken_eq := hc.taken_eq
  slots := hc.slots

/-! ## Advancing the indices -/

/-- A slot is reserved. -/
theorem Core.cas_tail (hc : Core Cap tail filled head mem data pushed popped)
    (hm : mem.Modified mem' .producer .tail o tail m m')
    (hvalue : m'.value = (tail + 1) % max_size Cap)
    (hroom : ∃ k, mem.Acquired .producer .head k ∧ tail < k + Cap) :
    Core Cap (tail + 1) filled head mem' data pushed popped where
  tails := hc.tails.put hm.msgs hvalue
  updates := hc.updates.congr (hm.msgs ▸ Mem.put_other (by decide))
  heads := hc.heads.congr (hm.msgs ▸ Mem.put_other (by decide))
  order := ⟨hc.order.1, hc.order.2.trans (Nat.le_succ tail)⟩
  writes := hc.writes.congr (hm.msgs ▸ Mem.put_other (by decide)) hm.accesses hm.views
  reads := hc.reads.congr (hm.msgs ▸ Mem.put_other (by decide)) hm.accesses hm.views
  own_tail := hm.seen
  own_update := hc.own_update.trans ((hm.views _).1.1 _)
  own_head := hc.own_head.trans ((hm.views _).1.1 _)
  room := hroom.imp fun _ h => ⟨h.1.grows hm.grows, h.2⟩
  taken := hc.taken.imp fun _ h => ⟨h.1.grows hm.grows, h.2⟩
  length := hc.length
  taken_eq := hc.taken_eq
  slots := hc.slots

/-- A slot is published: whoever acquires this message knows of the write. -/
theorem Core.cas_tail_update (hc : Core Cap tail filled head mem data pushed popped)
    (hm : mem.Modified mem' .producer .tail_update o filled m m')
    (hvalue : m'.value = (filled + 1) % max_size Cap) (ho : o.releases = true)
    (htail : tail = filled + 1) (hdata : data (filled % max_size Cap) = some val) :
    Core Cap tail (filled + 1) head mem' data (pushed ++ [val]) popped where
  tails := hc.tails.congr (hm.msgs ▸ Mem.put_other (by decide))
  updates := hc.updates.put hm.msgs hvalue
  heads := hc.heads.congr (hm.msgs ▸ Mem.put_other (by decide))
  order := ⟨hc.order.1.trans (Nat.le_succ filled), htail.ge⟩
  writes := (hc.writes.put hm.msgs hm.accesses hm.views (hm.told ho)).imp
    fun k hk => hk.trans (Nat.le_succ filled)
  reads := (hc.reads.congr (hm.msgs ▸ Mem.put_other (by decide)) hm.accesses hm.views).imp
    fun k hk => ⟨hk.1.trans (Nat.lt_succ_self filled), hk.2⟩
  own_tail := hc.own_tail.trans ((hm.views _).1.1 _)
  own_update := hm.seen
  own_head := hc.own_head.trans ((hm.views _).1.1 _)
  room := hc.room.imp fun _ h => ⟨h.1.grows hm.grows, h.2⟩
  taken := hc.taken.imp fun _ h => ⟨h.1.grows hm.grows, h.2⟩
  length := by rw [List.length_append, List.length_singleton, hc.length]
  taken_eq := by
    rw [List.take_append_of_le_length (hc.length ▸ hc.order.1)]
    exact hc.taken_eq
  slots := by
    intro k hle hlt
    rw [List.get_eq_getElem]
    by_cases hk : k < pushed.length
    · rw [List.getElem_append_left hk]
      exact hc.slots k hle hk
    · have hlast : k = filled := by
        rw [List.length_append, List.length_singleton, hc.length] at hlt
        rw [hc.length] at hk
        omega
      subst hlast
      rw [List.getElem_append_right (Nat.le_of_not_lt hk), List.getElem_singleton]
      exact hdata

/-- A slot is given back: whoever acquires this message knows of the read. -/
theorem Core.cas_head (hc : Core Cap tail filled head mem data pushed popped)
    (hm : mem.Modified mem' .consumer .head o head m m')
    (hvalue : m'.value = (head + 1) % max_size Cap) (ho : o.releases = true)
    (hfilled : Filled head mem) (hlt : head < pushed.length) :
    Core Cap tail filled (head + 1) mem' data pushed
      (popped ++ [some (pushed.get ⟨head, hlt⟩)]) where
  tails := hc.tails.congr (hm.msgs ▸ Mem.put_other (by decide))
  updates := hc.updates.congr (hm.msgs ▸ Mem.put_other (by decide))
  heads := hc.heads.put hm.msgs hvalue
  order := ⟨hc.head_lt hfilled, hc.order.2⟩
  writes := hc.writes.congr (hm.msgs ▸ Mem.put_other (by decide)) hm.accesses hm.views
  reads := (hc.reads.put hm.msgs hm.accesses hm.views (hm.told ho)).imp
    fun k hk => ⟨hk.1, hk.2.trans (Nat.le_succ head)⟩
  own_tail := hc.own_tail.trans ((hm.views _).1.1 _)
  own_update := hc.own_update.trans ((hm.views _).1.1 _)
  own_head := hm.seen
  room := hc.room.imp fun _ h => ⟨h.1.grows hm.grows, h.2⟩
  taken := hfilled.imp fun _ h => ⟨h.1.grows hm.grows, h.2⟩
  length := hc.length
  taken_eq := by
    rw [hc.taken_eq, List.take_succ_eq_append_getElem hlt, List.map_append]
    rfl
  slots k hle := hc.slots k ((Nat.le_succ head).trans hle)

end Core

/-! ## Steps -/

section Step

variable {o : Orders} {Cap tail filled head time : Nat} {s s' : St T}

/-- The consumer's part of the invariant, and what is left of it after a step of the producer. -/
theorem Inv.producer_step (ho : Synchronizes o) (hi : Inv Cap tail filled head s)
    (h : producer o Cap s time = some s') :
    ∃ tail' filled', Inv Cap tail' filled' head s' := by
  have hknows := hi.push_knows
  unfold producer at h
  split at h
  next => cases h
  next val hpc =>
    obtain ⟨⟨t, mem⟩, hload, rfl⟩ := Option.map_eq_some_iff.mp h
    obtain ⟨m, hvalue, hl⟩ := Mem.load_spec hload
    rw [hpc] at hknows
    -- Only the producer stores to the tail, so it loads its own last store.
    refine ⟨tail, filled, hi.core.load hl, ⟨hknows, ?_⟩, hi.pop_knows.grows hl.grows⟩
    exact hvalue.symm.trans (hi.core.load_tail hl.msg hl.newer).2
  next val t hpc =>
    obtain ⟨⟨h', mem⟩, hload, rfl⟩ := Option.map_eq_some_iff.mp h
    obtain ⟨m, hvalue, hl⟩ := Mem.load_spec hload
    rw [hpc] at hknows
    obtain ⟨htail, ht⟩ := hknows
    refine ⟨tail, filled, hi.core.load hl, ?_, hi.pop_knows.grows hl.grows⟩
    dsimp only
    split
    next => exact htail
    next hne =>
      rw [ht] at hne ⊢
      exact ⟨htail, rfl, hi.core.not_full hl ho.2.2 (hvalue ▸ hne)⟩
  next val t hpc =>
    obtain ⟨⟨t', mem⟩, hcas, rfl⟩ := Option.map_eq_some_iff.mp h
    rw [hpc] at hknows
    obtain ⟨htail, ht, hroom⟩ := hknows
    rcases Mem.cas_spec hcas with ⟨m, m', -, hvalue', rfl, hm⟩ | ⟨m, hne, -, hl⟩
    · obtain ⟨rfl, -⟩ := hi.core.load_tail hm.msg hm.newer
      refine ⟨time + 1, filled, hi.core.cas_tail hm ?_ hroom, ?_, hi.pop_knows.grows hm.grows⟩
      · rw [hvalue', ht, Nat.mod_add_mod]
      · dsimp only
        rw [if_pos rfl]
        exact ⟨congrArg (· + 1) htail, ht.trans (congrArg (· % max_size Cap) htail)⟩
    · exact absurd ((hi.core.load_tail hl.msg hl.newer).2.trans ht.symm) hne
  next val t hpc =>
    obtain rfl := Option.some.inj h
    rw [hpc] at hknows
    obtain ⟨htail, rfl⟩ := hknows
    exact ⟨tail, filled, hi.core.write htail, ⟨htail, rfl, Function.update_self ..⟩,
      hi.pop_knows.grows access_grows⟩
  next val t hpc =>
    obtain ⟨⟨t', mem⟩, hcas, rfl⟩ := Option.map_eq_some_iff.mp h
    rw [hpc] at hknows
    obtain ⟨htail, ht, hdata⟩ := hknows
    rcases Mem.cas_spec hcas with ⟨m, m', -, hvalue', rfl, hm⟩ | ⟨m, hne, -, hl⟩
    -- This publishes the element: the number of filled slots grows.
    · obtain ⟨rfl, -⟩ := hi.core.load_update hm.msg hm.newer
      subst ht
      refine ⟨tail, time + 1, ?_⟩
      dsimp only
      rw [if_pos rfl]
      refine ⟨hi.core.cas_tail_update hm ?_ ho.1.1 htail hdata, htail,
        (hi.pop_knows.grows hm.grows).append⟩
      rw [hvalue', Nat.mod_add_mod]
    · exact absurd ((hi.core.load_update hl.msg hl.newer).2.trans ht.symm) hne

/-- A step of `pop`. -/
theorem Inv.consumer_step (ho : Synchronizes o) (hi : Inv Cap tail filled head s)
    (h : consumer o Cap s time = some s') : ∃ head', Inv Cap tail filled head' s' := by
  have hknows := hi.pop_knows
  unfold consumer at h
  split at h
  next hpc =>
    obtain ⟨⟨h', mem⟩, hload, rfl⟩ := Option.map_eq_some_iff.mp h
    obtain ⟨m, hvalue, hl⟩ := Mem.load_spec hload
    refine ⟨head, hi.core.load hl, hi.push_knows.grows hl.grows, ?_⟩
    exact hvalue.symm.trans (hi.core.load_head hl.msg hl.newer).2
  next h' hpc =>
    obtain ⟨⟨t, mem⟩, hload, rfl⟩ := Option.map_eq_some_iff.mp h
    obtain ⟨m, -, hl⟩ := Mem.load_spec hload
    rw [hpc] at hknows
    refine ⟨head, hi.core.load hl, hi.push_knows.grows hl.grows, ?_⟩
    dsimp only
    split
    next => trivial
    next => exact hknows
  next h' hpc =>
    obtain ⟨⟨t, mem⟩, hload, rfl⟩ := Option.map_eq_some_iff.mp h
    obtain ⟨m, hvalue, hl⟩ := Mem.load_spec hload
    rw [hpc] at hknows
    refine ⟨head, hi.core.load hl, hi.push_knows.grows hl.grows, ?_⟩
    dsimp only
    split
    next => trivial
    next hne =>
      refine ⟨hknows, hi.core.not_empty hl ho.1.2 ?_⟩
      rw [← hknows, hvalue]
      exact hne
  next h' hpc =>
    obtain rfl := Option.some.inj h
    rw [hpc] at hknows
    obtain ⟨rfl, hfilled⟩ := hknows
    have hlt : head < s.pushed.length := hi.core.length ▸ hi.core.head_lt hfilled
    exact ⟨head, hi.core.read hfilled, hi.push_knows.grows access_grows, rfl,
      hfilled.grows access_grows, hlt, hi.core.slots head le_rfl hlt⟩
  next h' val hpc =>
    obtain ⟨⟨h'', mem⟩, hcas, rfl⟩ := Option.map_eq_some_iff.mp h
    rw [hpc] at hknows
    obtain ⟨hh, hfilled, hlt, rfl⟩ := hknows
    rcases Mem.cas_spec hcas with ⟨m, m', -, hvalue', rfl, hm⟩ | ⟨m, hne, -, hl⟩
    · obtain ⟨rfl, -⟩ := hi.core.load_head hm.msg hm.newer
      refine ⟨time + 1, ?_⟩
      dsimp only
      rw [if_pos rfl]
      refine ⟨hi.core.cas_head hm ?_ ho.2.1 hfilled hlt, hi.push_knows.grows hm.grows, trivial⟩
      rw [hvalue', hh, Nat.mod_add_mod]
    · exact absurd ((hi.core.load_head hl.msg hl.newer).2.trans hh.symm) hne

/-- A step of either thread, or a new call of `push`. -/
theorem Inv.step (ho : Synchronizes o) {a : Act T} (hi : Inv Cap tail filled head s)
    (h : (lts o Cap).step s a = some s') :
    ∃ tail' filled' head', Inv Cap tail' filled' head' s' := by
  cases a with
  | push val =>
      simp only [lts] at h
      split at h
      next hpc =>
        obtain rfl := Option.some.inj h
        have hknows := hi.push_knows
        rw [hpc] at hknows
        exact ⟨tail, filled, head, hi.core, hknows, hi.pop_knows⟩
      next => cases h
  | producer time =>
      obtain ⟨tail', filled', hi'⟩ := hi.producer_step ho h
      exact ⟨tail', filled', head, hi'⟩
  | consumer time =>
      obtain ⟨head', hi'⟩ := hi.consumer_step ho h
      exact ⟨tail, filled, head', hi'⟩

/-- Each of the two knows of the other's last access to the slot it is about to use. -/
theorem Inv.race_free (hi : Inv Cap tail filled head s) : RaceFree s := by
  constructor
  · intro val t hpc
    have hknows := hi.push_knows
    rw [hpc] at hknows
    obtain ⟨htail, rfl⟩ := hknows
    exact (hi.core.write_known htail).not_races
  · intro h hpc
    have hknows := hi.pop_knows
    rw [hpc] at hknows
    obtain ⟨rfl, hfilled⟩ := hknows
    exact (hi.core.read_known hfilled).not_races

/-- The values of the calls of `pop` are the first values that were pushed. -/
def Fifo (Cap : Nat) (s : St T) : Prop :=
  s.popped = (s.pushed.take s.popped.length).map some ∧
    s.popped.length ≤ s.pushed.length ∧ s.pushed.length ≤ s.popped.length + Cap

/-- The values popped are those of the slots behind the head, in the order of the pushes. -/
theorem Inv.fifo (hi : Inv Cap tail filled head s) : Fifo Cap s := by
  have hlength : s.popped.length = head := by
    rw [hi.core.taken_eq, List.length_map, List.length_take, hi.core.length]
    exact Nat.min_eq_left hi.core.order.1
  rw [Fifo, hlength, hi.core.length]
  exact ⟨hi.core.taken_eq, hi.core.order.1, hi.core.order.2.trans hi.core.room_le⟩

/-- **One producer and one consumer**: in no run of calls of `push` and `pop`, for no capacity,
do they race for a slot; the values come out in the order in which they went in, and there are
never more than `Cap` in the queue. -/
theorem spsc (ho : Synchronizes o) (as : List (Act T)) :
    (lts o Cap).Along (fun s => RaceFree s ∧ Fifo Cap s) (lts o Cap).init as := by
  refine (lts o Cap).along_of_inv
    (I := fun s => ∃ tail filled head, Inv Cap tail filled head s) ?_ ?_
    ⟨0, 0, 0, .init, rfl, trivial⟩
  · rintro s ⟨tail, filled, head, hi⟩
    exact ⟨hi.race_free, hi.fifo⟩
  · rintro s a s' ⟨tail, filled, head, hi⟩ h
    exact hi.step ho h

/-- A push, and a pop that reads what the push has published. -/
def handedOver : List (Act Nat) :=
  [.push 7] ++ List.replicate 5 (.producer 0) ++
    [.consumer 0, .consumer 1, .consumer 1, .consumer 0, .consumer 0]

theorem spsc_orders :
    ((lts orders 2).exec (lts orders 2).init handedOver).map St.popped = some [some 7] ∧
      (lts orders 2).Along (fun s => RaceFree s ∧ Fifo 2 s) (lts orders 2).init handedOver :=
  ⟨rfl, spsc (by decide) handedOver⟩

end Step

end BoostNet.CircularQueSync
