/-
Atomic objects with memory orders, fences, and races on plain objects: the memory that the threads
of a C++ program share. Nothing here names a component; threads, atomics, plain objects and values
are arbitrary types.

An atomic is the messages that have been stored to it, each at a time, which is its place in the
modification order. A thread has a view: the newest message of each atomic that it knows of, and
of each thread how many of its accesses to plain objects have happened before. It loads any
message that is not older than the one it knows of, and stores at any free time behind that. A
message has a view too. That of a releasing store is the view of the thread; that of another one
is the view the thread had at its last release fence. An acquiring load joins the view of the
message to that of the thread; after another load an acquire fence does that. A
read-modify-write takes the time right behind the message it has read, and hands on the view of
that message.

`seq_cst` is no more than `acq_rel` here, and a load reads what has been stored before.

An access to a plain object races with an earlier one, of which one is a write, unless the earlier
one has happened before. What a program does after a race is not defined.

* `Mem.load_spec`, `Mem.store_spec`, `Mem.rmw_spec`, `Mem.fence_spec`, `Mem.access_spec`: what an
  operation does. No view ever shrinks, so that what is known stays known.
* `Mem.Sent`: what holds of all messages of an atomic.
* `Mem.Acquired`: a thread has synchronized with a message, and remains so (`Acquired.grows`).
* `Mem.Bounded`: the views know of no message that there is not.
* `Known`: accesses that have happened before. Who knows the writes to an object may read it, and
  who knows all accesses may write it (`Known.not_races`).
-/
import Mathlib.Order.Lattice.Nat
import Mathlib.Logic.Function.Basic
import Mathlib.Order.Lattice
import Mathlib.Order.BoundedOrder.Lattice

set_option autoImplicit false

namespace BoostNet.Atomics

variable {ι L D : Type*} {V : L → Type*}

/-! ## Orders and views -/

/-- `std::memory_order`. -/
inductive MemoryOrder where
  | relaxed
  | acquire
  | release
  | acq_rel
  | seq_cst
  deriving DecidableEq

def MemoryOrder.acquires : MemoryOrder → Bool
  | .acquire | .acq_rel | .seq_cst => true
  | .relaxed | .release => false

def MemoryOrder.releases : MemoryOrder → Bool
  | .release | .acq_rel | .seq_cst => true
  | .relaxed | .acquire => false

/-- What is known: of each atomic the newest message, of each thread how many accesses. -/
abbrev View (ι L : Type*) := (L → Nat) × (ι → Nat)

/-- The message of `x` at `t` is known. -/
def seen [DecidableEq L] (x : L) (t : Nat) : View ι L := (Function.update ⊥ x t, ⊥)

/-- `n` accesses of the thread `i` are known. -/
def ticked [DecidableEq ι] (i : ι) (n : Nat) : View ι L := (⊥, Function.update ⊥ i n)

/-- The views of a thread: what it knows, what it knows after an acquire fence, and what it knew
at its last release fence. -/
structure Views (ι L : Type*) where
  cur : View ι L
  acq : View ι L
  rel : View ι L
  rel_le : rel ≤ cur
  cur_le : cur ≤ acq

instance : LE (Views ι L) where
  le v w := v.cur ≤ w.cur ∧ v.acq ≤ w.acq ∧ v.rel ≤ w.rel

instance : Preorder (Views ι L) where
  le_refl _ := ⟨le_rfl, le_rfl, le_rfl⟩
  le_trans _ _ _ h h' := ⟨h.1.trans h'.1, h.2.1.trans h'.2.1, h.2.2.trans h'.2.2⟩

namespace Views

def bot : Views ι L := ⟨⊥, ⊥, ⊥, le_rfl, le_rfl⟩

def learn (v : Views ι L) (w : View ι L) : Views ι L where
  cur := v.cur ⊔ w
  acq := v.acq ⊔ w
  rel := v.rel
  rel_le := v.rel_le.trans le_sup_left
  cur_le := sup_le_sup_right v.cur_le w

/-- The view `w` of a message that has been read. -/
def receive (v : Views ι L) (o : MemoryOrder) (w : View ι L) : Views ι L where
  cur := v.cur ⊔ if o.acquires then w else ⊥
  acq := v.acq ⊔ w
  rel := v.rel
  rel_le := v.rel_le.trans le_sup_left
  cur_le := by
    apply sup_le_sup v.cur_le
    split
    · exact le_rfl
    · exact bot_le

variable [DecidableEq L]

/-- The views after a load of the message of `x` at `t`, which has the view `w`. -/
def read (v : Views ι L) (o : MemoryOrder) (x : L) (t : Nat) (w : View ι L) : Views ι L :=
  (v.learn (seen x t)).receive o w

/-- The view of the message that is stored to `x` at `t`. -/
def message (v : Views ι L) (o : MemoryOrder) (x : L) (t : Nat) : View ι L :=
  (if o.releases then v.cur else v.rel) ⊔ seen x t

omit [DecidableEq L] in
theorem rel_le_ite (v : Views ι L) (b : Bool) : (if b then v.cur else v.rel) ≤ v.cur := by
  split
  · exact le_rfl
  · exact v.rel_le

omit [DecidableEq L] in
/-- `std::atomic_thread_fence`. -/
def fence (v : Views ι L) (o : MemoryOrder) : Views ι L where
  cur := if o.acquires then v.acq else v.cur
  acq := v.acq
  rel := if o.releases then (if o.acquires then v.acq else v.cur) else v.rel
  rel_le := by
    have hle : v.rel ≤ if o.acquires then v.acq else v.cur := by
      split
      · exact v.rel_le.trans v.cur_le
      · exact v.rel_le
    split
    · exact le_rfl
    · exact hle
  cur_le := by
    split
    · exact le_rfl
    · exact v.cur_le

end Views

/-! ## The memory -/

structure Msg (ι L α : Type*) where
  value : α
  view : View ι L

/-- The access number `clock` of a thread. -/
structure Access (ι : Type*) where
  thread : ι
  clock : Nat
  write : Bool

structure Mem (ι L D : Type*) (V : L → Type*) where
  msgs : (x : L) → Nat → Option (Msg ι L (V x))
  views : ι → Views ι L
  accesses : D → List (Access ι)

/-- Every atomic has its first message, which all threads know. -/
def Mem.init (v : (x : L) → V x) : Mem ι L D V where
  msgs x t := if t = 0 then some ⟨v x, ⊥⟩ else none
  views _ := Views.bot
  accesses _ := []

/-- What an access with or without a write must know of. -/
def Conflicts (write : Bool) (a : Access ι) : Bool := a.write || write

/-- The accesses that conflict with one of the kind `write` have happened before. -/
def Known (write : Bool) (w : View ι L) (accesses : List (Access ι)) : Prop :=
  ∀ a ∈ accesses, Conflicts write a = true → a.clock ≤ w.2 a.thread

instance (write : Bool) (w : View ι L) (accesses : List (Access ι)) :
    Decidable (Known write w accesses) :=
  inferInstanceAs (Decidable (∀ a ∈ accesses, _ → _))

namespace Mem

variable (s : Mem ι L D V) (i : ι)

/-- An access of `i` to `d` is a race. -/
def Races (d : D) (write : Bool) : Prop := ¬ Known write (s.views i).cur (s.accesses d)

instance (d : D) (write : Bool) : Decidable (s.Races i d write) :=
  inferInstanceAs (Decidable (¬ _))

def setViews [DecidableEq ι] (v : Views ι L) : Mem ι L D V :=
  { s with views := Function.update s.views i v }

/-- A new message of `x` at `t`. -/
def put [DecidableEq L] (x : L) (t : Nat) (m : Msg ι L (V x)) : Mem ι L D V :=
  { s with msgs := Function.update s.msgs x (Function.update (s.msgs x) t (some m)) }

def fence [DecidableEq ι] (o : MemoryOrder) : Mem ι L D V :=
  s.setViews i ((s.views i).fence o)

/-- `i` starts with what the thread `j` knows, or joins it. -/
def sync [DecidableEq ι] (j : ι) : Mem ι L D V :=
  s.setViews i ((s.views i).learn (s.views j).cur)

/-- An access of `i` to the plain object `d`. -/
def access [DecidableEq ι] [DecidableEq D] (d : D) (write : Bool) : Mem ι L D V :=
  let n := (s.views i).cur.2 i + 1
  { s.setViews i ((s.views i).learn (ticked i n)) with
    accesses := Function.update s.accesses d (s.accesses d ++ [⟨i, n, write⟩]) }

variable [DecidableEq ι] [DecidableEq L]

/-- `x.load(o)`, of the message at `t`. -/
def load (x : L) (o : MemoryOrder) (t : Nat) : Option (V x × Mem ι L D V) :=
  (s.msgs x t).bind fun m =>
    if (s.views i).cur.1 x ≤ t then
      some (m.value, s.setViews i ((s.views i).read o x t m.view))
    else none

/-- `x.store(a, o)`, at the time `t`. -/
def store (x : L) (o : MemoryOrder) (a : V x) (t : Nat) : Option (Mem ι L D V) :=
  if (s.views i).cur.1 x < t ∧ (s.msgs x t).isNone then
    some ((s.put x t ⟨a, (s.views i).message o x t⟩).setViews i ((s.views i).learn (seen x t)))
  else none

/-- A read-modify-write of the message at `t`. -/
def rmw (x : L) (o : MemoryOrder) (f : V x → V x) (t : Nat) : Option (V x × Mem ι L D V) :=
  (s.msgs x t).bind fun m =>
    if (s.views i).cur.1 x ≤ t ∧ (s.msgs x (t + 1)).isNone then
      let v := (s.views i).read o x t m.view
      some (m.value, (s.put x (t + 1) ⟨f m.value, v.message o x (t + 1) ⊔ m.view⟩).setViews i
        (v.learn (seen x (t + 1))))
    else none

/-- `x.compare_exchange_strong(expected, desired, o, failure)` on the message at `t`. It loads
where it fails. -/
def cas (x : L) [DecidableEq (V x)] (o failure : MemoryOrder) (expected desired : V x) (t : Nat) :
    Option (V x × Mem ι L D V) :=
  (s.msgs x t).bind fun m =>
    if m.value = expected then s.rmw i x o (fun _ => desired) t else s.load i x failure t

end Mem

/-- A mutex, with what was known when it was unlocked. -/
structure Mutex (ι L : Type*) where
  owner : Option ι
  view : View ι L

def Mutex.init : Mutex ι L := ⟨none, ⊥⟩

def Mutex.lock [DecidableEq ι] (mutex : Mutex ι L) (s : Mem ι L D V) (i : ι) :
    Option (Mutex ι L × Mem ι L D V) :=
  match mutex.owner with
  | none => some ({ mutex with owner := some i }, s.setViews i ((s.views i).learn mutex.view))
  | some _ => none

def Mutex.unlock (s : Mem ι L D V) (i : ι) : Mutex ι L := ⟨none, (s.views i).cur⟩

/-! ## Views -/

section Views

variable {v : Views ι L} {o : MemoryOrder} {w : View ι L}

/-- What is learned is added to what was known. -/
theorem Views.le_learn : v ≤ v.learn w := ⟨le_sup_left, le_sup_left, le_rfl⟩

theorem Views.learn_le : w ≤ (v.learn w).cur := le_sup_right

/-- Reading a message forgets nothing, whatever the order of the load. -/
theorem Views.le_receive : v ≤ v.receive o w := ⟨le_sup_left, le_sup_left, le_rfl⟩

/-- Nor does a fence. -/
theorem Views.le_fence : v ≤ v.fence o := by
  have hcur : v.cur ≤ (v.fence o).cur := by
    unfold Views.fence
    dsimp only
    split
    · exact v.cur_le
    · exact le_rfl
  refine ⟨hcur, le_rfl, ?_⟩
  unfold Views.fence at hcur ⊢
  dsimp only at hcur ⊢
  split
  · exact v.rel_le.trans hcur
  · exact le_rfl

variable [DecidableEq L] {x : L} {t : Nat}

theorem seen_fst : (seen x t : View ι L).1 = Function.update ⊥ x t := rfl

/-- To have seen the message at `t` is to know the object up to `t`. -/
theorem seen_le : seen x t ≤ w ↔ t ≤ w.1 x := by
  constructor
  · intro h
    have hx := h.1 x
    rwa [seen_fst, Function.update_self] at hx
  · intro h
    refine ⟨fun y => ?_, bot_le⟩
    rw [seen_fst]
    by_cases hy : y = x
    · rw [hy, Function.update_self]
      exact h
    · rw [Function.update_of_ne hy]
      exact bot_le

theorem Views.le_read : v ≤ v.read o x t w := Views.le_learn.trans Views.le_receive

/-- A load sees the message it reads, so no later load of the thread reads an older one. -/
theorem Views.seen_read : t ≤ (v.read o x t w).cur.1 x :=
  seen_le.mp (Views.learn_le.trans Views.le_receive.1)

/-- What an acquiring load learns. -/
theorem Views.le_read_cur (ho : o.acquires = true) : w ≤ (v.read o x t w).cur := by
  refine le_trans ?_ le_sup_right
  rw [if_pos ho]

/-- What a thread that knows nothing learns of the accesses of another. -/
theorem Views.bot_read_snd (i : ι) :
    ((Views.bot : Views ι L).read o x t w).cur.2 i = if o.acquires then w.2 i else 0 := by
  have hmax : ((Views.bot : Views ι L).read o x t w).cur.2 i =
      max (max 0 0) ((if o.acquires then w else ⊥).2 i) := rfl
  rw [hmax]
  split
  · exact Nat.zero_max _
  · rfl

/-- What an acquire fence will learn. -/
theorem Views.le_read_acq : w ≤ (v.read o x t w).acq := le_sup_right

/-- A store that releases sends all that its thread knows along with the value. -/
theorem Views.cur_le_message (ho : o.releases = true) : v.cur ≤ v.message o x t := by
  rw [Views.message, if_pos ho]
  exact le_sup_left

/-- A store that does not release tells what the last release fence did. -/
theorem Views.rel_le_message : v.rel ≤ v.message o x t := by
  unfold Views.message
  split
  · exact v.rel_le.trans le_sup_left
  · exact le_sup_left

end Views

/-! ## Operations -/

namespace Mem

variable {s s' : Mem ι L D V} {i j : ι} {x y : L} {o : MemoryOrder} {t u : Nat}

theorem setViews_views [DecidableEq ι] {v : Views ι L} :
    (s.setViews i v).views = Function.update s.views i v := rfl

theorem setViews_self [DecidableEq ι] {v : Views ι L} : (s.setViews i v).views i = v :=
  Function.update_self ..

theorem views_le_setViews [DecidableEq ι] {v : Views ι L} (h : s.views i ≤ v) :
    s.views ≤ (s.setViews i v).views := by
  intro j
  rw [setViews_views]
  by_cases hj : j = i
  · rw [hj, Function.update_self]
    exact h
  · rw [Function.update_of_ne hj]

section put

variable [DecidableEq L] {m m' : Msg ι L (V x)}

theorem put_msgs : (s.put x t m).msgs =
    Function.update s.msgs x (Function.update (s.msgs x) t (some m)) := rfl

theorem put_self : (s.put x t m).msgs x t = some m := by
  rw [put_msgs, Function.update_self, Function.update_self]

theorem put_of_ne (h : u ≠ t) : (s.put x t m).msgs x u = s.msgs x u := by
  rw [put_msgs, Function.update_self, Function.update_of_ne h]

theorem put_other (h : y ≠ x) : (s.put x t m).msgs y = s.msgs y := by
  rw [put_msgs, Function.update_of_ne h]

/-- A message is the new one or one of those that were there. -/
theorem put_some (h : (s.put x t m).msgs x u = some m') :
    (u = t ∧ m' = m) ∨ s.msgs x u = some m' := by
  by_cases hu : u = t
  · rw [hu, put_self] at h
    exact .inl ⟨hu, (Option.some.inj h).symm⟩
  · rw [put_of_ne hu] at h
    exact .inr h

/-- A message that is there stays there. -/
theorem put_ne_none {u : Nat} (h : s.msgs x u ≠ none) : (s.put x t m).msgs x u ≠ none := by
  by_cases hu : u = t
  · rw [hu, put_self]
    exact Option.some_ne_none m
  · rwa [put_of_ne hu]

end put

/-- `P` holds of all messages of `x`. -/
def Sent (x : L) (P : Nat → Msg ι L (V x) → Prop) (s : Mem ι L D V) : Prop :=
  ∀ t m, s.msgs x t = some m → P t m

section Sent

variable {P Q : Nat → Msg ι L (V x) → Prop}

/-- Whether all messages to an object meet `P` depends on these messages only. -/
theorem Sent.congr (h : Sent x P s) (hmsgs : s'.msgs x = s.msgs x) : Sent x P s' := by
  intro t m hm
  rw [hmsgs] at hm
  exact h t m hm

/-- A new message that meets `P` keeps it true of all. -/
theorem Sent.put [DecidableEq L] {m : Msg ι L (V x)} (h : Sent x P s)
    (hmsgs : s'.msgs = (s.put x t m).msgs) (hm : P t m) : Sent x P s' := by
  intro u m' hm'
  rw [hmsgs] at hm'
  rcases put_some hm' with ⟨rfl, rfl⟩ | hold
  · exact hm
  · exact h u m' hold

theorem init_eq_none {v : (x : L) → V x} (ht : t ≠ 0) :
    (init v : Mem ι L D V).msgs x t = none :=
  if_neg ht

theorem sent_init {v : (x : L) → V x} (h : P 0 ⟨v x, ⊥⟩) :
    Sent x P (init v : Mem ι L D V) := by
  intro t m hm
  obtain ⟨rfl, hm⟩ := Option.ite_none_right_eq_some.mp hm
  exact Option.some.inj hm ▸ h

end Sent

/-- A load of the message `m` of `x` at `t`. -/
structure Loaded (s s' : Mem ι L D V) (i : ι) (x : L) (o : MemoryOrder) (t : Nat)
    (m : Msg ι L (V x)) : Prop where
  msg : s.msgs x t = some m
  newer : (s.views i).cur.1 x ≤ t
  msgs : s'.msgs = s.msgs
  accesses : s'.accesses = s.accesses
  views : s.views ≤ s'.views
  seen : t ≤ (s'.views i).cur.1 x
  acq : m.view ≤ (s'.views i).acq
  cur : o.acquires = true → m.view ≤ (s'.views i).cur

/-- A store of the message `m` of `x` at `t`. -/
structure Stored [DecidableEq L] (s s' : Mem ι L D V) (i : ι) (x : L) (o : MemoryOrder) (t : Nat)
    (m : Msg ι L (V x)) : Prop where
  newer : (s.views i).cur.1 x < t
  free : s.msgs x t = none
  msgs : s'.msgs = (s.put x t m).msgs
  accesses : s'.accesses = s.accesses
  views : s.views ≤ s'.views
  seen : t ≤ (s'.views i).cur.1 x
  rel : (s.views i).rel ≤ m.view
  cur : o.releases = true → (s.views i).cur ≤ m.view

/-- A read-modify-write of the message `m` of `x` at `t`, by the message `m'`. -/
structure Modified [DecidableEq L] (s s' : Mem ι L D V) (i : ι) (x : L) (o : MemoryOrder) (t : Nat)
    (m m' : Msg ι L (V x)) : Prop where
  msg : s.msgs x t = some m
  newer : (s.views i).cur.1 x ≤ t
  free : s.msgs x (t + 1) = none
  msgs : s'.msgs = (s.put x (t + 1) m').msgs
  accesses : s'.accesses = s.accesses
  views : s.views ≤ s'.views
  seen : t < (s'.views i).cur.1 x
  cur : o.acquires = true → m.view ≤ (s'.views i).cur
  told : o.releases = true → (s.views i).cur ≤ m'.view
  carried : m.view ≤ m'.view

/-- What a fence does: it sends nothing, forgets nothing, and where it acquires or releases the
thread's own views meet. -/
theorem fence_spec [DecidableEq ι] (s : Mem ι L D V) (i : ι) (o : MemoryOrder) :
    (s.fence i o).msgs = s.msgs ∧ (s.fence i o).accesses = s.accesses ∧
      s.views ≤ (s.fence i o).views ∧
      (o.acquires = true → (s.views i).acq ≤ ((s.fence i o).views i).cur) ∧
      (o.releases = true → (s.views i).cur ≤ ((s.fence i o).views i).rel) := by
  refine ⟨rfl, rfl, views_le_setViews Views.le_fence, fun ho => ?_, fun ho => ?_⟩
  · rw [fence, setViews_self]
    exact (if_pos ho).ge
  · rw [fence, setViews_self]
    exact (Views.le_fence (o := o)).1.trans (if_pos ho).ge

/-- What a `join` does: the thread knows all that the other one has known. -/
theorem sync_spec [DecidableEq ι] (s : Mem ι L D V) (i j : ι) :
    (s.sync i j).msgs = s.msgs ∧ (s.sync i j).accesses = s.accesses ∧
      s.views ≤ (s.sync i j).views ∧ (s.views j).cur ≤ ((s.sync i j).views i).cur := by
  refine ⟨rfl, rfl, views_le_setViews Views.le_learn, ?_⟩
  rw [sync, setViews_self]
  exact Views.learn_le

/-- What a lock does: it waits until the mutex is free, and hands over what the last owner knew. -/
theorem lock_spec [DecidableEq ι] {mutex mutex' : Mutex ι L}
    (h : mutex.lock s i = some (mutex', s')) :
    mutex.owner = none ∧ mutex'.owner = some i ∧ s'.msgs = s.msgs ∧ s'.accesses = s.accesses ∧
      s.views ≤ s'.views ∧ mutex.view ≤ (s'.views i).cur := by
  unfold Mutex.lock at h
  split at h
  next howner =>
    obtain ⟨rfl, rfl⟩ := Prod.mk.inj (Option.some.inj h)
    refine ⟨howner, rfl, rfl, rfl, views_le_setViews Views.le_learn, ?_⟩
    rw [setViews_self]
    exact Views.learn_le
  next => cases h

variable [DecidableEq ι] [DecidableEq L] {a : V x}

/-- What a load does, with the message it has read. -/
theorem load_spec (h : s.load i x o t = some (a, s')) :
    ∃ m, m.value = a ∧ Loaded s s' i x o t m := by
  simp only [load, Option.bind_eq_some_iff, Option.ite_none_right_eq_some, Option.some.injEq,
    Prod.mk.injEq] at h
  obtain ⟨m, hm, hnewer, hvalue, rfl⟩ := h
  refine ⟨m, hvalue, hm, hnewer, rfl, rfl, views_le_setViews Views.le_read, ?_, ?_, ?_⟩
  · rw [setViews_self]
    exact Views.seen_read
  · rw [setViews_self]
    exact Views.le_read_acq
  · intro ho
    rw [setViews_self]
    exact Views.le_read_cur ho

/-- What a store does, with the message it has sent. -/
theorem store_spec (h : s.store i x o a t = some s') :
    ∃ m, m.value = a ∧ Stored s s' i x o t m := by
  simp only [store, Option.ite_none_right_eq_some, Option.some.injEq, Option.isNone_iff_eq_none]
    at h
  obtain ⟨⟨hnewer, hfree⟩, rfl⟩ := h
  refine ⟨_, rfl, hnewer, hfree, rfl, rfl, ?_, ?_, Views.rel_le_message, ?_⟩
  · exact views_le_setViews Views.le_learn
  · rw [setViews_self]
    exact seen_le.mp Views.learn_le
  · exact fun ho => Views.cur_le_message ho

/-- What a read-modify-write does. The message it sends is the next one behind the one it reads. -/
theorem rmw_spec {f : V x → V x} (h : s.rmw i x o f t = some (a, s')) :
    ∃ m m', m.value = a ∧ m'.value = f a ∧ Modified s s' i x o t m m' := by
  simp only [rmw, Option.bind_eq_some_iff, Option.ite_none_right_eq_some, Option.some.injEq,
    Prod.mk.injEq, Option.isNone_iff_eq_none] at h
  obtain ⟨m, hm, ⟨hnewer, hfree⟩, rfl, rfl⟩ := h
  refine ⟨m, _, rfl, rfl, hm, hnewer, hfree, rfl, rfl, ?_, ?_, ?_, ?_, le_sup_right⟩
  · exact views_le_setViews (Views.le_read.trans Views.le_learn)
  · rw [setViews_self]
    exact seen_le.mp Views.learn_le
  · intro ho
    rw [setViews_self]
    exact (Views.le_read_cur ho).trans Views.le_learn.1
  · intro ho
    exact (Views.le_read.1.trans (Views.cur_le_message ho)).trans le_sup_left

/-- A read-modify-write can read any message it may still see, as long as nobody has sent the next
one; the last message is always such. -/
theorem rmw_of_free {f : V x → V x} {m : Msg ι L (V x)} (hm : s.msgs x t = some m)
    (hnewer : (s.views i).cur.1 x ≤ t) (hfree : s.msgs x (t + 1) = none) :
    ∃ s', s.rmw i x o f t = some (m.value, s') := by
  rw [rmw, hm, Option.bind_some, if_pos ⟨hnewer, Option.isNone_iff_eq_none.mpr hfree⟩]
  exact ⟨_, rfl⟩

/-- A `compare_exchange` is a read-modify-write of the expected value, or a load of another. -/
theorem cas_spec [DecidableEq (V x)] {failure : MemoryOrder} {expected desired : V x}
    (h : s.cas i x o failure expected desired t = some (a, s')) :
    (∃ m m', m.value = expected ∧ m'.value = desired ∧ a = expected ∧
        Modified s s' i x o t m m') ∨
      ∃ m, m.value ≠ expected ∧ m.value = a ∧ Loaded s s' i x failure t m := by
  unfold cas at h
  obtain ⟨m₀, hm₀, h⟩ := Option.bind_eq_some_iff.mp h
  split at h
  next heq =>
    obtain ⟨m, m', hvalue, hvalue', hmod⟩ := rmw_spec h
    obtain rfl : m₀ = m := Option.some.inj (hm₀.symm.trans hmod.msg)
    exact .inl ⟨m₀, m', heq, hvalue', hvalue.symm.trans heq, hmod⟩
  next hne =>
    obtain ⟨m, hvalue, hload⟩ := load_spec h
    obtain rfl : m₀ = m := Option.some.inj (hm₀.symm.trans hload.msg)
    exact .inr ⟨m₀, hne, hvalue, hload⟩

/-! ## What the memory keeps -/

/-- From `s` to `s'` nothing is forgotten. -/
structure Grows (s s' : Mem ι L D V) : Prop where
  msgs : ∀ y u m, s.msgs y u = some m → s'.msgs y u = some m
  views : s.views ≤ s'.views

omit [DecidableEq ι] [DecidableEq L] in
/-- A load leaves all messages in place, and every thread at least as much knowledge. -/
theorem Loaded.grows {m : Msg ι L (V x)} (h : Loaded s s' i x o t m) : Grows s s' where
  msgs y u m' hm' := by rwa [h.msgs]
  views := h.views

omit [DecidableEq ι] in
/-- So does a store at a place that was free. -/
theorem put_grows {m : Msg ι L (V x)} (hfree : s.msgs x t = none)
    (hmsgs : s'.msgs = (s.put x t m).msgs) (hviews : s.views ≤ s'.views) : Grows s s' where
  msgs y u m' hm' := by
    rw [hmsgs]
    by_cases hy : y = x
    · subst hy
      rw [put_of_ne, hm']
      rintro rfl
      rw [hfree] at hm'
      exact Option.some_ne_none m' hm'.symm
    · rwa [put_other hy]
  views := hviews

omit [DecidableEq ι] in
theorem Modified.grows {m m' : Msg ι L (V x)} (h : Modified s s' i x o t m m') : Grows s s' :=
  put_grows h.free h.msgs h.views

omit [DecidableEq ι] [DecidableEq L] in
/-- The thread has synchronized with the message of `x` at `t`. -/
def Acquired (s : Mem ι L D V) (i : ι) (x : L) (t : Nat) : Prop :=
  ∃ m, s.msgs x t = some m ∧ m.view ≤ (s.views i).cur ∧ t ≤ (s.views i).cur.1 x

omit [DecidableEq ι] [DecidableEq L] in
/-- What has been acquired stays acquired. -/
theorem Acquired.grows (h : Acquired s i x t) (hg : Grows s s') : Acquired s' i x t := by
  obtain ⟨m, hm, hview, hcur⟩ := h
  exact ⟨m, hg.msgs x t m hm, hview.trans (hg.views i).1, hcur.trans ((hg.views i).1.1 x)⟩

omit [DecidableEq ι] [DecidableEq L] in
/-- After a load that acquires, the thread knows what the sender of the message knew. -/
theorem Loaded.acquired {m : Msg ι L (V x)} (h : Loaded s s' i x o t m)
    (ho : o.acquires = true) : Acquired s' i x t :=
  ⟨m, h.msgs ▸ h.msg, h.cur ho, h.seen⟩

omit [DecidableEq ι] [DecidableEq L] in
theorem acquired_init {v : (x : L) → V x} : Acquired (init v : Mem ι L D V) i x 0 :=
  ⟨⟨v x, ⊥⟩, rfl, bot_le, Nat.zero_le _⟩

/-! ## The newest message -/

/-- Nobody, and no message, knows a message of `x` newer than that at `n`. -/
def Bounded (x : L) (n : Nat) (s : Mem ι L D V) : Prop :=
  (∀ i, (s.views i).acq.1 x ≤ n) ∧ ∀ y t m, s.msgs y t = some m → m.view.1 x ≤ n

section Bounded

variable {n : Nat} {f : V y → V y} {b : V y} {m : Msg ι L (V y)}

omit [DecidableEq ι] [DecidableEq L] in
theorem bounded_init {v : (x : L) → V x} : Bounded x n (init v : Mem ι L D V) := by
  refine ⟨fun i => Nat.zero_le n, fun y t m hm => ?_⟩
  obtain ⟨rfl, hm⟩ := Option.ite_none_right_eq_some.mp hm
  exact Option.some.inj hm ▸ Nat.zero_le n

omit [DecidableEq ι] in
theorem seen_fst_le (ht : y = x → t ≤ n) : (seen y t : View ι L).1 x ≤ n := by
  rw [seen_fst]
  by_cases hy : x = y
  · rw [hy, Function.update_self]
    exact ht hy.symm
  · rw [Function.update_of_ne hy]
    exact Nat.zero_le n

omit [DecidableEq ι] [DecidableEq L] in
theorem Bounded.mono {n' : Nat} (h : Bounded x n s) (hn : n ≤ n') : Bounded x n' s :=
  ⟨fun i => (h.1 i).trans hn, fun y t m hm => (h.2 y t m hm).trans hn⟩

omit [DecidableEq ι] [DecidableEq L] in
/-- No thread has seen more of an object than there is. -/
theorem Bounded.cur_le (h : Bounded x n s) (i : ι) : (s.views i).cur.1 x ≤ n :=
  ((s.views i).cur_le.1 x).trans (h.1 i)

omit [DecidableEq L] in
theorem Bounded.setViews {v : Views ι L} (h : Bounded x n s) (hv : v.acq.1 x ≤ n) :
    Bounded x n (s.setViews i v) := by
  refine ⟨fun j => ?_, h.2⟩
  rw [setViews_views]
  by_cases hj : j = i
  · rw [hj, Function.update_self]
    exact hv
  · rw [Function.update_of_ne hj]
    exact h.1 j

omit [DecidableEq ι] in
theorem Bounded.put (h : Bounded x n s) (hm : m.view.1 x ≤ n) : Bounded x n (s.put y t m) := by
  refine ⟨h.1, fun z u m' hm' => ?_⟩
  by_cases hz : z = y
  · subst hz
    rcases put_some hm' with ⟨-, rfl⟩ | hold
    · exact hm
    · exact h.2 z u m' hold
  · rw [put_other hz] at hm'
    exact h.2 z u m' hm'

omit [DecidableEq ι] in
theorem acq_read_le {v : Views ι L} {w : View ι L} (hv : v.acq.1 x ≤ n) (ht : y = x → t ≤ n)
    (hw : w.1 x ≤ n) : (v.read o y t w).acq.1 x ≤ n :=
  max_le (max_le hv (seen_fst_le ht)) hw

omit [DecidableEq ι] in
theorem message_le {v : Views ι L} (hv : v.acq.1 x ≤ n) (ht : y = x → t ≤ n) :
    (v.message o y t).1 x ≤ n :=
  max_le (((v.rel_le_ite o.releases).trans v.cur_le).1 x |>.trans hv) (seen_fst_le ht)

/-- A load keeps within the bound, since it reads a message that is there. -/
theorem Bounded.load (h : Bounded x n s) (ht : y = x → t ≤ n)
    (hload : s.load i y o t = some (b, s')) : Bounded x n s' := by
  simp only [Mem.load, Option.bind_eq_some_iff, Option.ite_none_right_eq_some, Option.some.injEq,
    Prod.mk.injEq] at hload
  obtain ⟨m, hm, -, -, rfl⟩ := hload
  exact h.setViews (acq_read_le (h.1 i) ht (h.2 y t m hm))

/-- A store goes past the bound only where it writes. -/
theorem Bounded.store (h : Bounded x n s) (ht : y = x → t ≤ n)
    (hstore : s.store i y o b t = some s') : Bounded x n s' := by
  simp only [Mem.store, Option.ite_none_right_eq_some, Option.some.injEq] at hstore
  obtain ⟨-, rfl⟩ := hstore
  exact (h.put (message_le (h.1 i) ht)).setViews (max_le (h.1 i) (seen_fst_le ht))

/-- A read-modify-write goes one message further. -/
theorem Bounded.rmw (h : Bounded x n s) (ht : y = x → t + 1 ≤ n)
    (hrmw : s.rmw i y o f t = some (b, s')) : Bounded x n s' := by
  simp only [Mem.rmw, Option.bind_eq_some_iff, Option.ite_none_right_eq_some, Option.some.injEq,
    Prod.mk.injEq] at hrmw
  obtain ⟨m, hm, -, -, rfl⟩ := hrmw
  -- The new message tells what the thread has read, and what the old message told.
  have hread := acq_read_le (o := o) (h.1 i) (fun hy => (Nat.le_succ t).trans (ht hy))
    (h.2 y t m hm)
  exact (h.put (max_le (message_le hread ht) (h.2 y t m hm))).setViews
    (max_le hread (seen_fst_le ht))

omit [DecidableEq L] in
/-- An access to plain data leaves the atomic objects alone. -/
theorem Bounded.access [DecidableEq D] (h : Bounded x n s) (d : D) (write : Bool) :
    Bounded x n (s.access i d write) :=
  h.setViews (max_le (h.1 i) (Nat.zero_le n))

end Bounded

end Mem

/-! ## Accesses that have happened before -/

section Known

variable {write : Bool} {w w' : View ι L} {accesses : List (Access ι)} {s : Mem ι L D V} {i : ι}
  {d : D}

/-- Who knows more knows of the same accesses. -/
theorem Known.mono (h : Known write w accesses) (hle : w ≤ w') : Known write w' accesses :=
  fun a ha hc => (h a ha hc).trans (hle.2 a.thread)

theorem known_nil (write : Bool) (w : View ι L) : Known write w ([] : List (Access ι)) :=
  fun _ ha => absurd ha List.not_mem_nil

/-- Who knows all accesses knows the writes among them. -/
theorem Known.weaken (h : Known true w accesses) (write : Bool) : Known write w accesses :=
  fun a ha _ => h a ha (Bool.or_true _)

/-- A read is nothing that a read must know of. -/
theorem Known.append_read (h : Known false w accesses) {a : Access ι} (ha : a.write = false) :
    Known false w (accesses ++ [a]) := by
  intro b hb hc
  rcases List.mem_append.mp hb with hold | hnew
  · exact h b hold hc
  · rw [List.mem_singleton.mp hnew, Conflicts, ha] at hc
    exact absurd hc Bool.false_ne_true

/-- An access does not race with those its thread knows of. This is how each proof of race freedom
ends. -/
theorem Known.not_races (h : Known write (s.views i).cur (s.accesses d)) :
    ¬ s.Races i d write :=
  fun hraces => hraces h

variable [DecidableEq ι] [DecidableEq D] {d' : D} {write' : Bool}

theorem ticked_snd {n : Nat} : (ticked i n : View ι L).2 = Function.update ⊥ i n := rfl

/-- An access is noted with its thread, and with a tick of that thread's clock. -/
theorem access_accesses : (s.access i d write).accesses d =
    s.accesses d ++ [⟨i, (s.views i).cur.2 i + 1, write⟩] :=
  Function.update_self ..

theorem access_accesses_of_ne (hd : d' ≠ d) :
    (s.access i d write).accesses d' = s.accesses d' :=
  Function.update_of_ne hd ..

/-- It makes no thread forget anything. -/
theorem access_views : s.views ≤ (s.access i d write).views :=
  Mem.views_le_setViews Views.le_learn

theorem access_grows : Mem.Grows s (s.access i d write) :=
  ⟨fun _ _ _ h => h, access_views⟩

/-- Its thread knows of it. -/
theorem access_own : (s.views i).cur.2 i + 1 ≤ ((s.access i d write).views i).cur.2 i := by
  have hviews : (s.access i d write).views i =
      (s.views i).learn (ticked i ((s.views i).cur.2 i + 1)) := Function.update_self ..
  have hle := (Views.learn_le (v := s.views i) (w := ticked i ((s.views i).cur.2 i + 1))).2 i
  rwa [ticked_snd, Function.update_self, ← hviews] at hle

/-- A thread knows its own access. -/
theorem Known.access (h : Known write' (s.views i).cur (s.accesses d)) :
    Known write' ((s.access i d write).views i).cur ((s.access i d write).accesses d) := by
  rw [access_accesses]
  intro a ha hc
  rcases List.mem_append.mp ha with hold | hnew
  · exact h.mono (access_views i).1 a hold hc
  · obtain rfl := List.mem_singleton.mp hnew
    exact access_own

end Known

end BoostNet.Atomics
