/-
The lock-free ring of Concurrent/day12-circularque: `CircularQueLight`, and
`CircularQueSync`, which is the same code with weaker memory orders and the same
sequentially consistent steps.

`push` claims the slot of `_tail` by a CAS, writes it, and publishes it by a second
CAS on `_tail_update`; `pop` reads the slot of `_head` and then claims it by a CAS.
Both compare indices, which come round again after `Cap + 1` steps, so a thread that
sleeps between its load and its CAS can find the index it loaded although the ring
has gone round in between: its checks and, for `pop`, its value are of another
element.

A thread is where it is in the source (`Pc`), with the locals it still needs, and
one atomic operation or element access is one step. Three histories are added to
the members: the values in the order in which `_tail` was advanced, the values
returned in the order in which `_head` was, and how often `_tail_update` was. A
thread that has loaded an index also remembers which one in the history it is.
`std::size_t` does not wrap: every index stays below `Cap + 1`.

* `pop_fifo`: the queue is a bounded FIFO in every run in which no CAS succeeds on an
  index that has come round (for `push`: come round to a full ring). The invariant is
  `Inv`, kept by each kind of step in `inv_*`.
* `pop_repeats`: a ring of one element in which a sleeping `pop` returns the first
  value a second time and the third is lost.
-/
import BoostNet.Lts
import BoostNet.Threads
import Mathlib.Data.List.TakeDrop
import Mathlib.Order.Interval.Finset.Nat

set_option autoImplicit false

namespace BoostNet.CircularQueLight

/-! ## The members and the threads -/

/-- `_max_size`. -/
def max_size (Cap : Nat) : Nat := Cap + 1

/-- What a thread does next. `h`, `t` and `val` are the source's locals; `ver` is how
often the index had been advanced when it was loaded, `k` the position in the
history of the slot a push has claimed. -/
inductive Pc (V : Type*) where
  | idle
  | pop_load
  | pop_tail (h ver : Nat)
  | pop_update (h ver : Nat)
  | pop_read (h ver : Nat)
  | pop_cas (h : Nat) (val : Option V) (ver : Nat)
  | push_load (v : V)
  | push_head (v : V) (t ver : Nat)
  | push_cas (v : V) (t ver : Nat)
  | push_write (v : V) (t k : Nat)
  | push_update (v : V) (t k : Nat)

variable {ι V : Type*}

/-- The members, the threads and the histories. A slot that was never written holds
no value. -/
structure Que (ι V : Type*) where
  head : Nat := 0
  tail : Nat := 0
  tail_update : Nat := 0
  data : Nat → Option V := fun _ => none
  pc : ι → Pc V := fun _ => .idle
  pushed : List V := []
  popped : List (Option V) := []
  published : Nat := 0

/-- A thread calls `push` or `pop`, or takes its next step. -/
inductive Action (ι V : Type*) where
  | push (i : ι) (v : V)
  | pop (i : ι)
  | step (i : ι)

section Step

variable [DecidableEq ι]

def Que.goto (s : Que ι V) (i : ι) (p : Pc V) : Que ι V :=
  { s with pc := Function.update s.pc i p }

/-- One step of a thread inside `push` or `pop`. A CAS that fails loads the index
again; the second CAS of `push` is retried with the same expected value. -/
def Que.stepThread (Cap : Nat) (s : Que ι V) (i : ι) : Option (Que ι V) :=
  match s.pc i with
  | .idle => none
  | .pop_load => some (s.goto i (.pop_tail s.head s.popped.length))
  | .pop_tail h ver =>
      if h = s.tail then some (s.goto i .idle) else some (s.goto i (.pop_update h ver))
  | .pop_update h ver =>
      if h = s.tail_update then some (s.goto i .idle) else some (s.goto i (.pop_read h ver))
  | .pop_read h ver => some (s.goto i (.pop_cas h (s.data h) ver))
  | .pop_cas h val _ =>
      if s.head = h then
        some { s.goto i .idle with
          head := (h + 1) % max_size Cap
          popped := s.popped ++ [val] }
      else some (s.goto i .pop_load)
  | .push_load v => some (s.goto i (.push_head v s.tail s.pushed.length))
  | .push_head v t ver =>
      if (t + 1) % max_size Cap = s.head then some (s.goto i .idle)
      else some (s.goto i (.push_cas v t ver))
  | .push_cas v t _ =>
      if s.tail = t then
        some { s.goto i (.push_write v t s.pushed.length) with
          tail := (t + 1) % max_size Cap
          pushed := s.pushed ++ [v] }
      else some (s.goto i (.push_load v))
  | .push_write v t k =>
      some { s.goto i (.push_update v t k) with data := Function.update s.data t (some v) }
  | .push_update _ t _ =>
      if s.tail_update = t then
        some { s.goto i .idle with
          tail_update := (t + 1) % max_size Cap
          published := s.published + 1 }
      else some s

def Que.step (Cap : Nat) (s : Que ι V) : Action ι V → Option (Que ι V)
  | .push i v =>
      match s.pc i with
      | .idle => some (s.goto i (.push_load v))
      | _ => none
  | .pop i =>
      match s.pc i with
      | .idle => some (s.goto i .pop_load)
      | _ => none
  | .step i => s.stepThread Cap i

def system (ι V : Type*) [DecidableEq ι] (Cap : Nat) : Lts (Que ι V) (Action ι V) where
  init := {}
  step := Que.step Cap

end Step

/-! ## A bounded FIFO, and the condition -/

/-- The pops so far returned the first pushed values, in their order and each once,
and never more than `Cap` values are waiting. -/
structure Que.Fifo (Cap : Nat) (s : Que ι V) : Prop where
  order : s.popped = (s.pushed.take s.popped.length).map some
  bounded : s.pushed.length ≤ s.popped.length + Cap

/-- The thread's next step is no CAS that succeeds on an index come round: `pop`'s
index is the one it loaded, and `push`'s too unless the ring has room. -/
def Pc.Fresh (Cap : Nat) (s : Que ι V) : Pc V → Prop
  | .pop_cas h _ ver => s.head = h → ver = s.popped.length
  | .push_cas _ t ver =>
      s.tail = t → ver = s.pushed.length ∨ (s.tail + 1) % max_size Cap ≠ s.head
  | .idle | .pop_load | .pop_tail _ _ | .pop_update _ _ | .pop_read _ _ | .push_load _
  | .push_head _ _ _ | .push_write _ _ _ | .push_update _ _ _ => True

/-- No CAS succeeds on an index come round. -/
def Que.CasFresh (Cap : Nat) (s : Que ι V) : Action ι V → Prop
  | .step i => (s.pc i).Fresh Cap s
  | .push _ _ | .pop _ => True

instance (Cap : Nat) (s : Que ι V) (p : Pc V) : Decidable (p.Fresh Cap s) :=
  match p with
  | .pop_cas h _ ver => inferInstanceAs (Decidable (s.head = h → ver = s.popped.length))
  | .push_cas _ t ver => inferInstanceAs (Decidable
      (s.tail = t → ver = s.pushed.length ∨ (s.tail + 1) % max_size Cap ≠ s.head))
  | .idle | .pop_load | .pop_tail _ _ | .pop_update _ _ | .pop_read _ _ | .push_load _
  | .push_head _ _ _ | .push_write _ _ _ | .push_update _ _ _ => isTrue trivial

instance (Cap : Nat) (s : Que ι V) (a : Action ι V) : Decidable (s.CasFresh Cap a) :=
  match a with
  | .step i => inferInstanceAs (Decidable ((s.pc i).Fresh Cap s))
  | .push _ _ | .pop _ => isTrue trivial

/-! ## The invariant -/

/-- The position of the slot a push has claimed and not yet published. -/
def Pc.index : Pc V → Option Nat
  | .push_write _ _ k | .push_update _ _ k => some k
  | .idle | .pop_load | .pop_tail _ _ | .pop_update _ _ | .pop_read _ _ | .pop_cas _ _ _
  | .push_load _ | .push_head _ _ _ | .push_cas _ _ _ => none

/-- What a thread knows. Its checks, and the value read, are good for as long as the
index it loaded has not been advanced. -/
def Pc.Ok (Cap : Nat) (s : Que ι V) : Pc V → Prop
  | .idle | .pop_load | .push_load _ => True
  | .pop_tail h ver | .pop_update h ver =>
      h = ver % max_size Cap ∧ ver ≤ s.popped.length
  | .pop_read h ver =>
      h = ver % max_size Cap ∧ ver ≤ s.popped.length ∧
        (ver = s.popped.length → ver < s.published)
  | .pop_cas _ val ver =>
      ver ≤ s.popped.length ∧
        (ver = s.popped.length → ver < s.published ∧ val = s.pushed[ver]?)
  | .push_head _ t ver => t = ver % max_size Cap ∧ ver ≤ s.pushed.length
  | .push_cas _ _ ver =>
      ver ≤ s.pushed.length ∧
        (ver = s.pushed.length → s.pushed.length < s.popped.length + Cap)
  | .push_write v t k =>
      t = k % max_size Cap ∧ s.published ≤ k ∧ s.pushed[k]? = some v
  | .push_update v t k =>
      t = k % max_size Cap ∧ s.published ≤ k ∧ s.pushed[k]? = some v ∧
        s.data (k % max_size Cap) = some v

structure Inv (Cap : Nat) (s : Que ι V) : Prop where
  head : s.head = s.popped.length % max_size Cap
  tail : s.tail = s.pushed.length % max_size Cap
  tail_update : s.tail_update = s.published % max_size Cap
  popped_le : s.popped.length ≤ s.published
  published_le : s.published ≤ s.pushed.length
  fifo : s.Fifo Cap
  slots : ∀ k, s.popped.length ≤ k → k < s.published →
    s.data (k % max_size Cap) = s.pushed[k]?
  threads : ∀ i, (s.pc i).Ok Cap s
  owner : ∀ i j k, (s.pc i).index = some k → (s.pc j).index = some k → i = j

/-- Two positions less than a round apart share no slot. -/
theorem slot_inj {Cap a b n : Nat} (ha : n ≤ a) (hb : n ≤ b) (ha' : a ≤ n + Cap)
    (hb' : b ≤ n + Cap) (h : a % max_size Cap = b % max_size Cap) : a = b := by
  refine Nat.mod_injOn_Ico n (max_size Cap) ?_ ?_ h
  · simp only [Finset.coe_Ico, Set.mem_Ico, max_size]
    omega
  · simp only [Finset.coe_Ico, Set.mem_Ico, max_size]
    omega

theorem succ_mod (n m : Nat) : (n % m + 1) % m = (n + 1) % m := Nat.mod_add_mod n m 1

/-- The queue is not full exactly when the next index is not `_head`. -/
theorem Inv.room {Cap : Nat} {s : Que ι V} (h : Inv Cap s)
    (hne : (s.tail + 1) % max_size Cap ≠ s.head) :
    s.pushed.length < s.popped.length + Cap := by
  by_contra hfull
  have heq : s.pushed.length + 1 = s.popped.length + max_size Cap := by
    have hle := h.fifo.bounded
    simp only [max_size]
    omega
  apply hne
  rw [h.tail, h.head, succ_mod, heq, Nat.add_mod_right]

theorem inv_init (ι V : Type*) [DecidableEq ι] (Cap : Nat) :
    Inv Cap (system ι V Cap).init where
  head := (Nat.zero_mod _).symm
  tail := (Nat.zero_mod _).symm
  tail_update := (Nat.zero_mod _).symm
  popped_le := Nat.le_refl 0
  published_le := Nat.le_refl 0
  fifo := ⟨rfl, Nat.zero_le _⟩
  slots := fun k _ hk => absurd hk (Nat.not_lt_zero k)
  threads := fun _ => trivial
  owner := fun _ _ _ h => by cases h

/-! ### What other threads know survives -/

/-- The histories have only grown, and a claimed slot is still unpublished and
unchanged. -/
theorem Pc.Ok.mono {Cap : Nat} {s s' : Que ι V} {p : Pc V} (h : p.Ok Cap s)
    (hbound : s.published ≤ s.pushed.length)
    (hpush : s.pushed <+: s'.pushed) (hpop : s.popped.length ≤ s'.popped.length)
    (hpub : s.published ≤ s'.published)
    (hidx : ∀ k, p.index = some k → s'.published ≤ k ∧
      s'.data (k % max_size Cap) = s.data (k % max_size Cap)) :
    p.Ok Cap s' := by
  have hlen := hpush.length_le
  have hget : ∀ k : Nat, k < s.pushed.length → s'.pushed[k]? = s.pushed[k]? := by
    obtain ⟨r, hr⟩ := hpush
    intro k hk
    rw [← hr, List.getElem?_append_left hk]
  have hsome : ∀ (k : Nat) (v : V), s.pushed[k]? = some v → s'.pushed[k]? = some v := by
    intro k v hk
    rw [hget k (List.getElem?_eq_some_iff.mp hk).1, hk]
  cases p with
  | idle => trivial
  | pop_load => trivial
  | push_load v => trivial
  | pop_tail i ver => exact ⟨h.1, Nat.le_trans h.2 hpop⟩
  | pop_update i ver => exact ⟨h.1, Nat.le_trans h.2 hpop⟩
  | pop_read i ver =>
      obtain ⟨hi, hle, hnew⟩ := h
      refine ⟨hi, by omega, fun heq => ?_⟩
      have hlt := hnew (by omega)
      omega
  | pop_cas i val ver =>
      obtain ⟨hle, hnew⟩ := h
      refine ⟨by omega, fun heq => ?_⟩
      obtain ⟨hlt, hval⟩ := hnew (by omega)
      exact ⟨by omega, by rw [hval, hget ver (by omega)]⟩
  | push_head v t ver => exact ⟨h.1, Nat.le_trans h.2 hlen⟩
  | push_cas v t ver =>
      obtain ⟨hle, hnew⟩ := h
      refine ⟨by omega, fun heq => ?_⟩
      have hlt := hnew (by omega)
      omega
  | push_write v t k =>
      obtain ⟨ht, -, hk⟩ := h
      exact ⟨ht, (hidx k rfl).1, hsome k v hk⟩
  | push_update v t k =>
      obtain ⟨ht, -, hk, hdata⟩ := h
      exact ⟨ht, (hidx k rfl).1, hsome k v hk, (hidx k rfl).2.trans hdata⟩

/-- A claimed slot is one that was pushed and not published. -/
theorem Pc.Ok.index_bounds {Cap : Nat} {s : Que ι V} {p : Pc V} (h : p.Ok Cap s) {k : Nat}
    (hk : p.index = some k) : s.published ≤ k ∧ k < s.pushed.length := by
  cases p with
  | push_write v t n =>
      obtain rfl : n = k := Option.some.inj hk
      obtain ⟨-, hle, hget⟩ := h
      exact ⟨hle, (List.getElem?_eq_some_iff.mp hget).1⟩
  | push_update v t n =>
      obtain rfl : n = k := Option.some.inj hk
      obtain ⟨-, hle, hget, -⟩ := h
      exact ⟨hle, (List.getElem?_eq_some_iff.mp hget).1⟩
  | _ => cases hk

section Steps

variable [DecidableEq ι] {Cap : Nat} {s : Que ι V} {i : ι}

/-- What the threads know, when thread `i` moves to `p` and the histories grow. -/
theorem threads_step (h : Inv Cap s) {s' : Que ι V} {p : Pc V}
    (hpc : s'.pc = Function.update s.pc i p) (hp : p.Ok Cap s')
    (hpush : s.pushed <+: s'.pushed) (hpop : s.popped.length ≤ s'.popped.length)
    (hpub : s.published ≤ s'.published)
    (hidx : ∀ j, j ≠ i → ∀ k, (s.pc j).index = some k → s'.published ≤ k ∧
      s'.data (k % max_size Cap) = s.data (k % max_size Cap)) :
    ∀ j, (s'.pc j).Ok Cap s' := by
  rw [hpc]
  exact forall_update (P := fun q : Pc V => q.Ok Cap s') hp
    fun j hj => (h.threads j).mono h.published_le hpush hpop hpub (hidx j hj)

/-- A claimed slot has one owner, when the thread that moves claims no one else's. -/
theorem owner_step (h : Inv Cap s) {s' : Que ι V} {p : Pc V}
    (hpc : s'.pc = Function.update s.pc i p)
    (hp : ∀ k, p.index = some k → ∀ j, j ≠ i → (s.pc j).index ≠ some k) :
    ∀ j j' k, (s'.pc j).index = some k → (s'.pc j').index = some k → j = j' := by
  rw [hpc]
  exact Unique.update (f := Pc.index) h.owner hp

/-- A thread moves on by itself. -/
theorem inv_goto (h : Inv Cap s) {p : Pc V} (hp : p.Ok Cap s) (hidx : p.index = none) :
    Inv Cap (s.goto i p) where
  head := h.head
  tail := h.tail
  tail_update := h.tail_update
  popped_le := h.popped_le
  published_le := h.published_le
  fifo := ⟨h.fifo.order, h.fifo.bounded⟩
  slots := h.slots
  threads := by
    refine threads_step h rfl ?_ List.prefix_rfl (Nat.le_refl _) (Nat.le_refl _) ?_
    · exact hp.mono h.published_le List.prefix_rfl (Nat.le_refl _) (Nat.le_refl _)
        (by rw [hidx]; intro k hk; cases hk)
    · intro j _ k hk
      exact ⟨((h.threads j).index_bounds hk).1, rfl⟩
  owner := owner_step h rfl (by rw [hidx]; intro k hk; cases hk)

/-- `pop`'s CAS: the value is the front of the queue, if the index is the one that
was loaded. -/
theorem inv_pop (h : Inv Cap s) {n ver : Nat} {val : Option V}
    (hpc : s.pc i = .pop_cas n val ver) (hn : s.head = n) (hver : ver = s.popped.length) :
    Inv Cap { s.goto i .idle with
      head := (n + 1) % max_size Cap
      popped := s.popped ++ [val] } := by
  have hok := h.threads i
  rw [hpc] at hok
  -- the value in hand is that of the front position
  obtain ⟨hlt, hval⟩ := hok.2 hver
  have hpub := h.published_le
  have hlen : (s.popped ++ [val]).length = s.popped.length + 1 := by simp
  refine ⟨?_, h.tail, h.tail_update, ?_, hpub, ⟨?_, ?_⟩, ?_, ?_, ?_⟩
  · rw [hlen, ← hn, h.head, succ_mod]
  · show (s.popped ++ [val]).length ≤ s.published
    omega
  · show s.popped ++ [val] = (s.pushed.take (s.popped ++ [val]).length).map some
    rw [hlen, List.take_add_one, List.map_append, ← h.fifo.order, hval, hver,
      List.getElem?_eq_getElem (by omega)]
    rfl
  · have hbound := h.fifo.bounded
    show s.pushed.length ≤ (s.popped ++ [val]).length + Cap
    omega
  · intro k hk
    rw [hlen] at hk
    exact h.slots k (by omega)
  · refine threads_step h rfl trivial List.prefix_rfl (by simp) (Nat.le_refl _) ?_
    intro j _ k hk
    exact ⟨((h.threads j).index_bounds hk).1, rfl⟩
  · exact owner_step h rfl fun k hk => by cases hk

/-- `push`'s CAS claims the next slot, if the queue has room. -/
theorem inv_push (h : Inv Cap s) {t ver : Nat} {v : V}
    (hpc : s.pc i = .push_cas v t ver) (ht : s.tail = t)
    (hver : ver = s.pushed.length ∨ (s.tail + 1) % max_size Cap ≠ s.head) :
    Inv Cap { s.goto i (.push_write v t s.pushed.length) with
      tail := (t + 1) % max_size Cap
      pushed := s.pushed ++ [v] } := by
  -- either nothing was pushed since the check, or there is room again
  have hroom : s.pushed.length < s.popped.length + Cap := by
    rcases hver with hver | hne
    · have hok := h.threads i
      rw [hpc] at hok
      exact hok.2 hver
    · exact h.room hne
  have hpop := h.popped_le
  have hpub := h.published_le
  have hlen : (s.pushed ++ [v]).length = s.pushed.length + 1 := by simp
  refine ⟨h.head, ?_, h.tail_update, hpop, ?_, ⟨?_, ?_⟩, ?_, ?_, ?_⟩
  · rw [hlen, ← ht, h.tail, succ_mod]
  · show s.published ≤ (s.pushed ++ [v]).length
    omega
  · show s.popped = ((s.pushed ++ [v]).take s.popped.length).map some
    rw [List.take_append_of_le_length (by omega)]
    exact h.fifo.order
  · show (s.pushed ++ [v]).length ≤ s.popped.length + Cap
    omega
  · intro k hk hlt
    show s.data (k % max_size Cap) = (s.pushed ++ [v])[k]?
    rw [List.getElem?_append_left (show k < s.pushed.length from by
      have : k < s.published := hlt
      omega)]
    exact h.slots k hk hlt
  · refine threads_step h rfl ⟨?_, hpub, ?_⟩ (List.prefix_append _ _) (Nat.le_refl _)
      (Nat.le_refl _) ?_
    · rw [← ht, h.tail]
    · exact List.getElem?_concat_length
    · intro j _ k hk
      exact ⟨((h.threads j).index_bounds hk).1, rfl⟩
  · apply owner_step h rfl
    intro k hk j _ hj
    obtain rfl : s.pushed.length = k := Option.some.inj hk
    exact absurd ((h.threads j).index_bounds hj).2 (Nat.lt_irrefl _)

/-- `push` writes the slot it has claimed, which is no waiting value's. -/
theorem inv_write (h : Inv Cap s) {t k : Nat} {v : V} (hpc : s.pc i = .push_write v t k) :
    Inv Cap { s.goto i (.push_update v t k) with
      data := Function.update s.data t (some v) } := by
  have hok := h.threads i
  rw [hpc] at hok
  obtain ⟨ht, hle, hget⟩ := hok
  have hlt := (List.getElem?_eq_some_iff.mp hget).1
  have hpop := h.popped_le
  have hpub := h.published_le
  have hbound := h.fifo.bounded
  -- the slots of other positions in the window are not this one
  have hother : ∀ n, s.popped.length ≤ n → n < s.pushed.length → n ≠ k →
      Function.update s.data t (some v) (n % max_size Cap) = s.data (n % max_size Cap) := by
    intro n hn hn' hne
    refine Function.update_of_ne (fun heq => hne ?_) _ _
    exact slot_inj hn (by omega) (by omega) (by omega) (heq.trans ht)
  refine ⟨h.head, h.tail, h.tail_update, hpop, hpub, ⟨h.fifo.order, hbound⟩, ?_, ?_, ?_⟩
  · intro n hn hn'
    have hn'' : n < s.published := hn'
    exact (hother n hn (by omega) (by omega)).trans (h.slots n hn hn')
  · refine threads_step h rfl ⟨ht, hle, hget, ?_⟩ List.prefix_rfl (Nat.le_refl _)
      (Nat.le_refl _) ?_
    · show Function.update s.data t (some v) (k % max_size Cap) = some v
      rw [ht, Function.update_self]
    · intro j hj n hn
      obtain ⟨hn', hn''⟩ := (h.threads j).index_bounds hn
      refine ⟨hn', hother n (by omega) hn'' ?_⟩
      rintro rfl
      exact hj (h.owner j i n hn (by rw [hpc]; rfl))
  · refine owner_step h rfl fun n hn j hj hjn => hj ?_
    exact h.owner j i n hjn (by rw [hpc]; exact hn)

/-- `push` publishes its slot, which is the first unpublished one. -/
theorem inv_publish (h : Inv Cap s) {t k : Nat} {v : V} (hpc : s.pc i = .push_update v t k)
    (ht : s.tail_update = t) :
    Inv Cap { s.goto i .idle with
      tail_update := (t + 1) % max_size Cap
      published := s.published + 1 } := by
  have hok := h.threads i
  rw [hpc] at hok
  obtain ⟨htk, hle, hget, hdata⟩ := hok
  have hlt := (List.getElem?_eq_some_iff.mp hget).1
  have hpop := h.popped_le
  have hpub := h.published_le
  have hbound := h.fifo.bounded
  have hk : s.published = k := by
    refine slot_inj hpop (Nat.le_trans hpop hle) (Nat.le_trans hpub hbound)
      (Nat.le_trans (Nat.le_of_lt hlt) hbound) ?_
    rw [← h.tail_update, ht, htk]
  refine ⟨h.head, h.tail, ?_, ?_, ?_, ⟨h.fifo.order, hbound⟩, ?_, ?_, ?_⟩
  · show (t + 1) % max_size Cap = (s.published + 1) % max_size Cap
    rw [← ht, h.tail_update, succ_mod]
  · show s.popped.length ≤ s.published + 1
    omega
  · show s.published + 1 ≤ s.pushed.length
    omega
  · intro n hn hn'
    by_cases hnk : n = k
    · rw [hnk]
      exact hdata.trans hget.symm
    · apply h.slots n hn
      have : n < s.published + 1 := hn'
      omega
  · refine threads_step h rfl trivial List.prefix_rfl (Nat.le_refl _) (Nat.le_succ _) ?_
    intro j hj n hn
    have hn' := ((h.threads j).index_bounds hn).1
    refine ⟨?_, rfl⟩
    show s.published + 1 ≤ n
    rcases Nat.lt_or_ge s.published n with hlt' | hge
    · exact hlt'
    · refine absurd (h.owner j i n hn ?_) hj
      rw [hpc, show n = k by omega]
      rfl
  · exact owner_step h rfl fun n hn => by cases hn

end Steps

/-! ## The result -/

theorem inv_stepThread [DecidableEq ι] {Cap : Nat} {s t : Que ι V} {i : ι} (h : Inv Cap s)
    (hG : (s.pc i).Fresh Cap s) (hstep : s.stepThread Cap i = some t) : Inv Cap t := by
  have hok := h.threads i
  unfold Que.stepThread at hstep
  cases hpc : s.pc i with
  | idle =>
      simp only [hpc] at hstep
      cases hstep
  | pop_load =>
      simp only [hpc] at hstep
      cases hstep
      exact inv_goto h ⟨h.head, Nat.le_refl _⟩ rfl
  | pop_tail n ver =>
      rw [hpc] at hok
      simp only [hpc] at hstep
      split_ifs at hstep
      · cases hstep
        exact inv_goto h trivial rfl
      · cases hstep
        exact inv_goto h hok rfl
  | pop_update n ver =>
      rw [hpc] at hok
      simp only [hpc] at hstep
      split_ifs at hstep with hn
      · cases hstep
        exact inv_goto h trivial rfl
      · cases hstep
        obtain ⟨hmod, hle⟩ := hok
        refine inv_goto h ⟨hmod, hle, fun heq => ?_⟩ rfl
        -- the index differs from `_tail_update`, so the positions do
        have hpop := h.popped_le
        have hne : ver ≠ s.published := by
          rintro rfl
          exact hn (hmod.trans h.tail_update.symm)
        omega
  | pop_read n ver =>
      rw [hpc] at hok
      simp only [hpc] at hstep
      cases hstep
      -- if the index is still the one loaded, the slot holds the value in front
      obtain ⟨hmod, hle, hnew⟩ := hok
      refine inv_goto h ⟨hle, fun heq => ⟨hnew heq, ?_⟩⟩ rfl
      rw [hmod]
      exact h.slots ver (Nat.le_of_eq heq.symm) (hnew heq)
  | pop_cas n val ver =>
      rw [hpc] at hG
      simp only [hpc] at hstep
      split_ifs at hstep with hn
      · cases hstep
        -- only here and in `push_cas` the condition is used
        exact inv_pop h hpc hn (hG hn)
      · cases hstep
        exact inv_goto h trivial rfl
  | push_load v =>
      simp only [hpc] at hstep
      cases hstep
      exact inv_goto h ⟨h.tail, Nat.le_refl _⟩ rfl
  | push_head v n ver =>
      rw [hpc] at hok
      simp only [hpc] at hstep
      split_ifs at hstep with hn
      · cases hstep
        exact inv_goto h trivial rfl
      · cases hstep
        -- the queue had room when `_head` was read, and `_tail` was the one loaded
        obtain ⟨hmod, hle⟩ := hok
        refine inv_goto h ⟨hle, fun heq => h.room ?_⟩ rfl
        rwa [h.tail, ← heq, ← hmod]
  | push_cas v n ver =>
      rw [hpc] at hG
      simp only [hpc] at hstep
      split_ifs at hstep with hn
      · cases hstep
        exact inv_push h hpc hn (hG hn)
      · cases hstep
        exact inv_goto h trivial rfl
  | push_write v n k =>
      simp only [hpc] at hstep
      cases hstep
      exact inv_write h hpc
  | push_update v n k =>
      simp only [hpc] at hstep
      split_ifs at hstep with hn
      · cases hstep
        exact inv_publish h hpc hn
      · cases hstep
        exact h

theorem inv_step [DecidableEq ι] {Cap : Nat} {s t : Que ι V} {a : Action ι V} (h : Inv Cap s)
    (hG : s.CasFresh Cap a) (hstep : s.step Cap a = some t) : Inv Cap t := by
  cases a with
  | step i => exact inv_stepThread h hG hstep
  | push i v =>
      simp only [Que.step] at hstep
      split at hstep
      · cases hstep
        exact inv_goto h trivial rfl
      · cases hstep
  | pop i =>
      simp only [Que.step] at hstep
      split at hstep
      · cases hstep
        exact inv_goto h trivial rfl
      · cases hstep

/-- **The ring is a bounded FIFO**, in every state of every run, with any threads and any capacity,
in which no CAS succeeds on an index that has come round. The CAS compares indices only; where the
ring has been gone round between the load and the CAS it takes another element than the one that was
read. -/
theorem pop_fifo (ι V : Type*) [DecidableEq ι] (Cap : Nat) (as : List (Action ι V))
    (hG : (system ι V Cap).Always (Que.CasFresh Cap) (system ι V Cap).init as) :
    (system ι V Cap).Along (Que.Fifo Cap) (system ι V Cap).init as :=
  (system ι V Cap).along_of_always (fun _ h => h.fifo)
    (fun _ _ _ h hG hstep => inv_step h hG hstep) (inv_init ι V Cap) hG

/-- A `push` by one thread, to its end. -/
def pushBy {ι V : Type*} (i : ι) (v : V) : List (Action ι V) :=
  .push i v :: List.replicate 5 (.step i)

/-- A `pop` by one thread, to its end. -/
def popBy {ι V : Type*} (i : ι) : List (Action ι V) := .pop i :: List.replicate 5 (.step i)

/-- Three values through a ring of one element. -/
def inTurn : List (Action (Fin 2) Nat) :=
  pushBy 0 1 ++ popBy 1 ++ pushBy 0 2 ++ popBy 1 ++ pushBy 0 3 ++ popBy 1

theorem pop_fifo_inTurn :
    (system (Fin 2) Nat 1).Along (Que.Fifo 1) (system (Fin 2) Nat 1).init inTurn :=
  pop_fifo (Fin 2) Nat 1 inTurn (by decide)

/-- Thread 0 reads the first value and sleeps before its CAS; thread 1 takes that
value, passes a second one through and pushes a third, which brings `_head` round. -/
def sleepingPop : List (Action (Fin 2) Nat) :=
  pushBy 1 1 ++ .pop 0 :: List.replicate 4 (.step 0) ++
    popBy 1 ++ pushBy 1 2 ++ popBy 1 ++ pushBy 1 3 ++ [.step 0]

/-- The first value is returned again, and the third is lost. -/
theorem pop_repeats :
    ∃ s, (system (Fin 2) Nat 1).exec (system (Fin 2) Nat 1).init sleepingPop = some s ∧
      s.pushed = [1, 2, 3] ∧ s.popped = [some 1, some 2, some 1] ∧ s.head = s.tail ∧
      ¬ s.Fifo 1 :=
  ⟨_, rfl, rfl, rfl, rfl, fun h => absurd h.order (by decide)⟩

end BoostNet.CircularQueLight
