/-
`SpinLock`: `lock` does `test_and_set` until it finds the flag clear, `unlock` clears it. Any
number of threads take the lock and give it back, any number of times, and touch plain objects
while they have it.

* `mutual_exclusion`, `lock_of_free`: whatever the memory orders are, no two threads have the lock,
  and a lock that nobody has can be taken.
* `race_free_iff`: what the threads do under the lock races in no run exactly where `lock`
  acquires and `unlock` releases.
-/
import BoostNet.Atomics
import BoostNet.Lts
import BoostNet.Threads

set_option autoImplicit false

namespace BoostNet.SpinLock

open Atomics

/-! ## The lock -/

/-- The memory orders of `test_and_set` and `clear`. -/
structure Orders where
  lock : MemoryOrder
  unlock : MemoryOrder

/-- Those of the class. -/
def orders : Orders := ⟨.acquire, .release⟩

/-- `ATOMIC_FLAG_INIT` is clear. Who is inside has the lock. -/
structure St (ι D : Type*) where
  mem : Mem ι Unit D fun _ => Bool
  inside : ι → Bool

def St.init {ι D : Type*} : St ι D where
  mem := .init fun _ => false
  inside _ := false

/-- One turn of the loop in `lock`, an access under the lock, or `unlock`. -/
inductive Act (ι D : Type*) where
  | test_and_set (i : ι) (time : Nat)
  | access (i : ι) (d : D) (write : Bool)
  | clear (i : ι) (time : Nat)

section Def

variable {ι D : Type*} [DecidableEq ι] [DecidableEq D]

def lock (v : Orders) (s : St ι D) (i : ι) (t : Nat) : Option (St ι D) :=
  if s.inside i then none
  else
    (s.mem.rmw i () v.lock (fun _ => true) t).map fun (flag, mem) =>
      { mem, inside := Function.update s.inside i (!flag) }

def unlock (v : Orders) (s : St ι D) (i : ι) (t : Nat) : Option (St ι D) :=
  if s.inside i then
    (s.mem.store i () v.unlock false t).map fun mem =>
      { mem, inside := Function.update s.inside i false }
  else none

def lts (v : Orders) : Lts (St ι D) (Act ι D) where
  init := .init
  step s a :=
    match a with
    | .test_and_set i t => lock v s i t
    | .access i d write =>
        if s.inside i then some { s with mem := s.mem.access i d write } else none
    | .clear i t => unlock v s i t

/-- Nobody has the lock. -/
def Free (s : St ι D) : Prop := ∀ i, s.inside i = false

/-- No access of a thread that has the lock races. -/
def RaceFree (s : St ι D) : Prop :=
  ∀ i d write, s.inside i = true → ¬ s.mem.Races i d write

/-- `unlock` synchronizes with the next `lock`. -/
def Synchronizes (v : Orders) : Prop := v.lock.acquires = true ∧ v.unlock.releases = true

end Def

/-! ## The invariant -/

variable {ι D : Type*}

/-- `n` is the newest message. A message that says the flag is clear has been taken, by the
message right behind it, but for the newest one while the lock is free. The thread that has the
lock knows a message behind which there is no gap, so that it clears the flag behind all. -/
structure Inv (n : Nat) (s : St ι D) : Prop where
  newest : ∀ t, n < t → s.mem.msgs () t = none
  bounded : s.mem.Bounded () n
  spent : s.mem.Sent () fun t m =>
    m.value = false → (t = n ∧ ∀ i, s.inside i = false) ∨ s.mem.msgs () (t + 1) ≠ none
  free : (∀ i, s.inside i = false) → ∃ m, s.mem.msgs () n = some m ∧ m.value = false
  held : ∀ i, s.inside i = true → (∀ j, s.inside j = true → j = i) ∧
    ∀ t, (s.mem.views i).cur.1 () ≤ t → t ≤ n → s.mem.msgs () t ≠ none

/-- The thread that has the lock knows all accesses, and so does the message that says the lock
is free. -/
structure Told (n : Nat) (s : St ι D) : Prop where
  held : ∀ i, s.inside i = true → ∀ d, Known true (s.mem.views i).cur (s.mem.accesses d)
  free : (∀ i, s.inside i = false) → ∀ m, s.mem.msgs () n = some m →
    ∀ d, Known true m.view (s.mem.accesses d)

variable {v : Orders} {n t : Nat} {s s' : St ι D} {i j : ι}

/-- The flag is clear, and nobody is inside. -/
theorem Inv.init : Inv 0 (St.init : St ι D) where
  newest _ ht := Mem.init_eq_none ht.ne'
  bounded := Mem.bounded_init
  spent := Mem.sent_init fun _ => .inl ⟨rfl, fun _ => rfl⟩
  free _ := ⟨_, rfl, rfl⟩
  held _ hi := Bool.noConfusion hi

theorem Told.init : Told 0 (St.init : St ι D) where
  held _ hi := Bool.noConfusion hi
  free _ m _ _ := known_nil true m.view

/-- Two threads that are inside are the same. -/
theorem Inv.eq (hi : Inv n s) (h : s.inside i = true) (h' : s.inside j = true) : i = j :=
  ((hi.held i h).1 j h').symm

theorem Inv.le_newest (hi : Inv n s) {m : Msg ι Unit Bool} (hm : s.mem.msgs () t = some m) :
    t ≤ n := by
  by_contra hlt
  rw [hi.newest t (Nat.lt_of_not_le hlt)] at hm
  exact Option.some_ne_none m hm.symm

/-! ## Taking the lock -/

/-- Who finds the flag clear has found the newest message, of a lock that is free. -/
theorem Inv.taken (hi : Inv n s) {m : Msg ι Unit Bool} (hm : s.mem.msgs () t = some m)
    (hvalue : m.value = false) (hnone : s.mem.msgs () (t + 1) = none) : t = n ∧ Free s :=
  (hi.spent t m hm hvalue).resolve_right fun hne => hne hnone

/-- The newest message of a free lock says that the flag is clear. -/
theorem Inv.newest_of_set (hi : Inv n s) (hfree : Free s) {m : Msg ι Unit Bool}
    (hm : s.mem.msgs () t = some m) (hvalue : m.value = true) : max n (t + 1) = n := by
  obtain ⟨m₁, hm₁, hclear⟩ := hi.free hfree
  have hne : t ≠ n := by
    rintro rfl
    obtain rfl : m = m₁ := Option.some.inj (hm.symm.trans hm₁)
    rw [hvalue] at hclear
    exact Bool.noConfusion hclear
  have hle := hi.le_newest hm
  omega

/-- Where one thread has the lock it is not free. -/
theorem not_free_update [DecidableEq ι] : ¬ ∀ j, Function.update s.inside i true j = false := by
  intro hfree
  have hself := hfree i
  rw [Function.update_self] at hself
  exact Bool.noConfusion hself

theorem eq_of_update [DecidableEq ι] (hfree : Free s)
    (h : Function.update s.inside i true j = true) : j = i := by
  by_contra hji
  rw [Function.update_of_ne hji, hfree j] at h
  exact Bool.noConfusion h

/-- A thread that finds the flag clear sets it, and is inside. -/
theorem Inv.take [DecidableEq ι] (hi : Inv n s) {mem : Mem ι Unit D fun _ => Bool}
    {m m' : Msg ι Unit Bool} {o : MemoryOrder} (hb : mem.Bounded () (n + 1))
    (hm : Mem.Modified s.mem mem i () o n m m') (hvalue' : m'.value = true) (hfree : Free s) :
    Inv (n + 1) { mem, inside := Function.update s.inside i true : St ι D } where
  newest t ht := by
    rw [hm.msgs, Mem.put_of_ne ht.ne']
    exact hi.newest t (Nat.lt_of_succ_lt ht)
  bounded := hb
  spent := by
    intro t m₁ hm₁ hclear
    rw [hm.msgs] at hm₁ ⊢
    rcases Mem.put_some hm₁ with ⟨-, rfl⟩ | hold
    · rw [hvalue'] at hclear
      exact Bool.noConfusion hclear
    · refine .inr ?_
      rcases hi.spent t m₁ hold hclear with ⟨rfl, -⟩ | htaken
      · rw [Mem.put_self]
        exact Option.some_ne_none m'
      · exact Mem.put_ne_none htaken
  free hfree' := absurd hfree' not_free_update
  held := by
    intro j hj
    obtain rfl := eq_of_update hfree hj
    refine ⟨fun k hk => eq_of_update hfree hk, fun t hle hge => ?_⟩
    obtain rfl : t = n + 1 := Nat.le_antisymm hge (Nat.lt_of_lt_of_le hm.seen hle)
    rw [hm.msgs, Mem.put_self]
    exact Option.some_ne_none m'

/-- A turn of the loop that finds the flag set. -/
theorem Inv.spin (hi : Inv n s) {mem : Mem ι Unit D fun _ => Bool} {m m' : Msg ι Unit Bool}
    {o : MemoryOrder} (hb : mem.Bounded () (max n (t + 1)))
    (hm : Mem.Modified s.mem mem i () o t m m') (hvalue : m.value = true)
    (hvalue' : m'.value = true) : Inv (max n (t + 1)) { s with mem } := by
  have hle : t ≤ n := hi.le_newest hm.msg
  have hstays (hfree : Free s) := hi.newest_of_set hfree hm.msg hvalue
  refine ⟨fun u hu => ?_, hb, ?_, fun hfree => ?_, fun j hj => ⟨(hi.held j hj).1, ?_⟩⟩
  · rw [hm.msgs, Mem.put_of_ne (by omega)]
    exact hi.newest u (by omega)
  · intro u m₁ hm₁ hclear
    rw [hm.msgs] at hm₁ ⊢
    rcases Mem.put_some hm₁ with ⟨-, rfl⟩ | hold
    · rw [hvalue'] at hclear
      exact Bool.noConfusion hclear
    · rcases hi.spent u m₁ hold hclear with ⟨rfl, hfree⟩ | htaken
      · exact .inl ⟨(hstays hfree).symm, hfree⟩
      · exact .inr (Mem.put_ne_none htaken)
  · obtain ⟨m₁, hm₁, hclear⟩ := hi.free hfree
    rw [hstays hfree, hm.msgs]
    refine ⟨m₁, ?_, hclear⟩
    rw [Mem.put_of_ne, hm₁]
    rintro rfl
    rw [hm.free] at hm₁
    exact Option.some_ne_none m₁ hm₁.symm
  · intro u hcur hu
    rw [hm.msgs]
    by_cases hut : u ≤ n
    · exact Mem.put_ne_none ((hi.held j hj).2 u (((hm.views j).1.1 ()).trans hcur) hut)
    · obtain rfl : u = t + 1 := by omega
      rw [Mem.put_self]
      exact Option.some_ne_none m'

/-! ## Under the lock, and giving it back -/

/-- Accesses to the data do not touch the flag. -/
theorem Inv.access [DecidableEq ι] [DecidableEq D] (hi : Inv n s) (i : ι) (d : D) (write : Bool) :
    Inv n { s with mem := s.mem.access i d write } where
  newest := hi.newest
  bounded := hi.bounded.access d write
  spent := hi.spent
  free := hi.free
  held j hj := ⟨(hi.held j hj).1, fun t hle =>
    (hi.held j hj).2 t (((access_views (s := s.mem) j).1.1 ()).trans hle)⟩

/-- Behind the message that the thread knows there is no gap, so that it clears the flag behind
the newest one. -/
theorem Inv.newest_lt (hi : Inv n s) (h : s.inside i = true)
    (hcur : (s.mem.views i).cur.1 () < t) (hnone : s.mem.msgs () t = none) : n < t := by
  by_contra hle
  exact (hi.held i h).2 t hcur.le (Nat.le_of_not_lt hle) hnone

/-- As long as a thread is inside the lock is taken. -/
theorem Inv.not_free (h : s.inside i = true) : ¬ Free s := by
  intro hfree
  rw [hfree i] at h
  exact Bool.noConfusion h

theorem free_update [DecidableEq ι] (hi : Inv n s) (h : s.inside i = true) (j : ι) :
    Function.update s.inside i false j = false := by
  by_cases hji : j = i
  · rw [hji, Function.update_self]
  · rw [Function.update_of_ne hji]
    by_contra hne
    exact hji (hi.eq (Bool.eq_true_of_not_eq_false hne) h)

/-- The thread that is inside clears the flag, and nobody is. -/
theorem Inv.give [DecidableEq ι] (hi : Inv n s) (h : s.inside i = true)
    {mem : Mem ι Unit D fun _ => Bool} {m : Msg ι Unit Bool} {o : MemoryOrder}
    (hb : mem.Bounded () t) (hm : Mem.Stored s.mem mem i () o t m) (hvalue : m.value = false) :
    Inv t { mem, inside := Function.update s.inside i false : St ι D } := by
  have hlt := hi.newest_lt h hm.newer hm.free
  refine ⟨fun u hu => ?_, hb, ?_, fun _ => ⟨m, ?_, hvalue⟩, fun j hj => ?_⟩
  · rw [hm.msgs, Mem.put_of_ne hu.ne']
    exact hi.newest u (hlt.trans hu)
  · intro u m₁ hm₁ hclear
    rw [hm.msgs] at hm₁ ⊢
    rcases Mem.put_some hm₁ with ⟨rfl, -⟩ | hold
    · exact .inl ⟨rfl, free_update hi h⟩
    · rcases hi.spent u m₁ hold hclear with ⟨-, hfree⟩ | htaken
      · exact absurd hfree (Inv.not_free h)
      · exact .inr (Mem.put_ne_none htaken)
  · rw [hm.msgs, Mem.put_self]
  · exact Bool.noConfusion ((free_update hi h j).symm.trans hj)

/-! ## What the lock hands on -/

/-- Who takes the lock with an acquire knows what the last one inside has done. -/
theorem Told.take [DecidableEq ι] (ht : Told n s) {mem : Mem ι Unit D fun _ => Bool}
    {m m' : Msg ι Unit Bool} {o : MemoryOrder} (ho : o.acquires = true)
    (hm : Mem.Modified s.mem mem i () o n m m') (hfree : Free s) :
    Told (n + 1) { mem, inside := Function.update s.inside i true : St ι D } where
  held := by
    intro j hj d
    obtain rfl := eq_of_update hfree hj
    rw [hm.accesses]
    exact (ht.free hfree m hm.msg d).mono (hm.cur ho)
  free hfree' := absurd hfree' not_free_update

/-- A test of the set flag hands on what is told: it is part of the release sequence. -/
theorem Told.spin (hi : Inv n s) (ht : Told n s) {mem : Mem ι Unit D fun _ => Bool}
    {m m' : Msg ι Unit Bool} {o : MemoryOrder} (hm : Mem.Modified s.mem mem i () o t m m')
    (hvalue : m.value = true) : Told (max n (t + 1)) { s with mem } where
  held := by
    intro j hj d
    rw [hm.accesses]
    exact (ht.held j hj d).mono (hm.views j).1
  free := by
    intro hfree m₁ hm₁ d
    obtain ⟨m₂, hm₂, -⟩ := hi.free hfree
    have hne : n ≠ t + 1 := by
      rintro rfl
      rw [hm.free] at hm₂
      exact Option.some_ne_none m₂ hm₂.symm
    rw [hi.newest_of_set hfree hm.msg hvalue, hm.msgs, Mem.put_of_ne hne] at hm₁
    rw [hm.accesses]
    exact ht.free hfree m₁ hm₁ d

/-- What the thread inside does it knows itself. -/
theorem Told.access [DecidableEq ι] [DecidableEq D] (hi : Inv n s) (ht : Told n s)
    (h : s.inside i = true) (d : D) (write : Bool) :
    Told n { s with mem := s.mem.access i d write } where
  held := by
    intro j hj d'
    obtain rfl := hi.eq h hj
    by_cases hd : d' = d
    · rw [hd]
      exact (ht.held i h d).access
    · rw [access_accesses_of_ne hd]
      exact (ht.held i h d').mono (access_views i).1
  free hfree := absurd hfree (Inv.not_free h)

/-- Who gives the lock back with a release tells what has been done. -/
theorem Told.give [DecidableEq ι] (ht : Told n s) (h : s.inside i = true)
    {mem : Mem ι Unit D fun _ => Bool} {m : Msg ι Unit Bool} {o : MemoryOrder}
    (ho : o.releases = true) (hi : Inv n s) (hm : Mem.Stored s.mem mem i () o t m) :
    Told t { mem, inside := Function.update s.inside i false : St ι D } where
  held := by
    intro j hj
    exact Bool.noConfusion ((free_update hi h j).symm.trans hj)
  free := by
    intro _ m₁ hm₁ d
    rw [hm.msgs, Mem.put_self] at hm₁
    obtain rfl := Option.some.inj hm₁
    rw [hm.accesses]
    exact (ht.held i h d).mono (hm.cur ho)

/-! ## Steps -/

/-- Who is inside knows of all earlier accesses, so it races with none. -/
theorem Told.race_free (ht : Told n s) : RaceFree s :=
  fun i d write hin => ((ht.held i hin d).weaken write).not_races

variable [DecidableEq ι] [DecidableEq D]

/-- One step keeps the invariant, and what is told if `unlock` synchronizes with `lock`. -/
theorem Inv.step (hi : Inv n s) {a : Act ι D} (h : (lts v).step s a = some s') :
    ∃ n', Inv n' s' ∧ (Synchronizes v → Told n s → Told n' s') := by
  cases a with
  | test_and_set i t =>
      obtain ⟨hout, h⟩ := Option.ite_none_left_eq_some.mp h
      obtain ⟨⟨flag, mem⟩, hrmw, rfl⟩ := Option.map_eq_some_iff.mp h
      obtain ⟨m, m', hvalue, hvalue', hm⟩ := Mem.rmw_spec hrmw
      dsimp only
      cases flag with
      -- The flag was clear: the loop ends, and the thread has the lock.
      | false =>
          obtain ⟨rfl, hfree⟩ := hi.taken hm.msg hvalue hm.free
          have hb := (hi.bounded.mono (Nat.le_succ t)).rmw (fun _ => le_rfl) hrmw
          exact ⟨t + 1, hi.take hb hm hvalue' hfree, fun hv ht => ht.take hv.1 hm hfree⟩
      -- It was set. What this turn stores need not be the newest message.
      | true =>
          have hb := (hi.bounded.mono (Nat.le_max_left n (t + 1))).rmw
            (fun _ => Nat.le_max_right n (t + 1)) hrmw
          have hsame : Function.update s.inside i (!true) = s.inside :=
            Function.update_eq_self_iff.mpr (Bool.eq_false_of_not_eq_true hout).symm
          rw [hsame]
          exact ⟨_, hi.spin hb hm hvalue hvalue', fun _ ht => ht.spin hi hm hvalue⟩
  | access i d write =>
      obtain ⟨hin, h⟩ := Option.ite_none_right_eq_some.mp h
      obtain rfl := Option.some.inj h
      exact ⟨n, hi.access i d write, fun _ ht => ht.access hi hin d write⟩
  | clear i t =>
      obtain ⟨hin, h⟩ := Option.ite_none_right_eq_some.mp h
      obtain ⟨mem, hstore, rfl⟩ := Option.map_eq_some_iff.mp h
      obtain ⟨m, hvalue, hm⟩ := Mem.store_spec hstore
      have hb := (hi.bounded.mono (hi.newest_lt hin hm.newer hm.free).le).store
        (fun _ => le_rfl) hstore
      exact ⟨t, hi.give hin hb hm hvalue, fun hv ht => ht.give hin hv.2 hi hm⟩

omit [DecidableEq D] in
/-- A free lock can be taken: the flag's last message is clear. -/
theorem Inv.lock_of_free (hi : Inv n s) (hfree : Free s) (i : ι) :
    ∃ t s', lock v s i t = some s' ∧ s'.inside i = true := by
  obtain ⟨m, hm, hclear⟩ := hi.free hfree
  obtain ⟨mem, hrmw⟩ := Mem.rmw_of_free (o := v.lock) (f := fun _ => true) hm
    (hi.bounded.cur_le i) (hi.newest (n + 1) (Nat.lt_succ_self n))
  refine ⟨n, { mem, inside := Function.update s.inside i true }, ?_, Function.update_self ..⟩
  rw [lock, if_neg (Bool.eq_false_iff.mp (hfree i)), hrmw, Option.map_some, hclear]
  rfl

/-! ## The lock in all runs -/

/-- **Mutual exclusion**, whatever the memory orders are: in every state of every run at most one
thread has the lock, and where nobody has it every thread can take it with its next turn. -/
theorem mutual_exclusion (v : Orders) (as : List (Act ι D)) :
    (lts v).Along (fun s => (∀ i j, s.inside i = true → s.inside j = true → i = j) ∧
      (Free s → ∀ i, ∃ t s', lock v s i t = some s' ∧ s'.inside i = true)) (lts v).init as := by
  refine (lts v).along_of_inv (I := fun s => ∃ n, Inv n s) ?_ ?_ ⟨0, .init⟩
  · rintro s ⟨n, hi⟩
    exact ⟨fun i j h h' => hi.eq h h', hi.lock_of_free⟩
  · rintro s a s' ⟨n, hi⟩ h
    obtain ⟨n', hi', -⟩ := hi.step h
    exact ⟨n', hi'⟩

/-- A thread writes under the lock. Unless `unlock` releases, nothing of that is in the message
by which it gives the lock back. -/
theorem writing_run (v : Orders) {i j : ι} (hij : i ≠ j) (d : D) :
    ∃ s m, (lts v).exec .init [.test_and_set i 0, .access i d true, .clear i 2] = some s ∧
      s.inside j = false ∧ s.mem.msgs () 2 = some m ∧ s.mem.msgs () 3 = none ∧
      s.mem.views j = .bot ∧ s.mem.accesses d = [⟨i, 1, true⟩] ∧ m.value = false ∧
      (v.unlock.releases = false → m.view.2 i = 0) := by
  have hticked : (ticked i 1 : View ι Unit).1 () = 0 := rfl
  simp only [Lts.exec, lts, lock, unlock, St.init, Mem.init, Mem.rmw, Mem.store, Mem.put,
    Mem.setViews, Mem.access, Views.bot, Views.read, Views.learn, Views.receive, seen,
    Views.message]
  suffices hview : v.unlock.releases = false →
      (if v.unlock.releases = true then (Function.update ⊥ () 1, ⊥) ⊔ ticked i 1
        else (⊥ : View ι Unit)).2 i = 0 by
    simpa [Function.update_of_ne hij.symm, hticked] using hview
  intro hrel
  rw [hrel]
  rfl

/-- A thread writes under the lock, and another takes the lock. -/
def racing (i j : ι) (d : D) : List (Act ι D) :=
  [.test_and_set i 0, .access i d true, .clear i 2] ++ [.test_and_set j 2]

/-- Where one of the two orders is too weak, the second thread inside does not know of the first
one's access. -/
theorem racing_races (hv : ¬ Synchronizes v) {i j : ι} (hij : i ≠ j) (d : D) :
    ∃ s, (lts v).exec .init (racing i j d) = some s ∧ ¬ RaceFree s := by
  obtain ⟨s, m, hrun, hout, hm, hnone, hviews, haccesses, hclear, hrel⟩ := writing_run v hij d
  have hnewer : (s.mem.views j).cur.1 () ≤ 2 := by
    rw [hviews]
    exact Nat.zero_le 2
  obtain ⟨mem, hrmw⟩ := Mem.rmw_of_free (o := v.lock) (f := fun _ => true) hm hnewer hnone
  refine ⟨{ mem, inside := Function.update s.inside j true }, ?_, ?_⟩
  · rw [racing, Lts.exec_append _ hrun, Lts.exec_cons]
    simp only [lts, lock, hout, hrmw, hclear]
    rfl
  · intro hfree
    apply hfree j d true (Function.update_self ..)
    intro hknown
    simp only [Mem.rmw, hm, Option.bind_some, Option.ite_none_right_eq_some, Option.some.injEq,
      Prod.mk.injEq] at hrmw
    obtain ⟨-, -, rfl⟩ := hrmw
    have hlt := hknown ⟨i, 1, true⟩ (haccesses ▸ List.mem_singleton_self _) rfl
    rw [Mem.setViews_self, hviews] at hlt
    -- Either the message does not say what was written, or the load does not look.
    have hview : ((Views.bot : Views ι Unit).read v.lock () 2 m.view).cur.2 i = 0 := by
      rw [Views.bot_read_snd]
      split
      next hacq => exact hrel (Bool.eq_false_iff.mpr fun h => hv ⟨hacq, h⟩)
      next => rfl
    have hle : 1 ≤ max (((Views.bot : Views ι Unit).read v.lock () 2 m.view).cur.2 i) 0 := hlt
    omega

/-- **Data races**: what the threads do under the lock races in no run exactly where `unlock`
releases and `lock` acquires. Mutual exclusion needs only that the flag is one atomic object; that
the next holder sees the data is what the orders are for. -/
theorem race_free_iff [Nontrivial ι] [Nonempty D] (v : Orders) :
    (∀ as, (lts v).Along (RaceFree (ι := ι) (D := D)) (lts v).init as) ↔ Synchronizes v := by
  constructor
  · intro hall
    by_contra hv
    obtain ⟨i, j, hij⟩ := exists_pair_ne ι
    obtain ⟨d⟩ := ‹Nonempty D›
    obtain ⟨s, hrun, hraces⟩ := racing_races hv hij d
    exact hraces ((hall (racing i j d)).last (lts v) hrun)
  · intro hv as
    refine (lts v).along_of_inv (I := fun s => ∃ n, Inv n s ∧ Told n s) ?_ ?_ ⟨0, .init, .init⟩
    · rintro s ⟨n, -, ht⟩
      exact ht.race_free
    · rintro s a s' ⟨n, hi, ht⟩ h
      obtain ⟨n', hi', htold⟩ := hi.step h
      exact ⟨n', hi', htold hv ht⟩

theorem race_free_iff_orders :
    (∀ as, (lts orders).Along (RaceFree (ι := Bool) (D := Unit)) (lts orders).init as) ↔
      Synchronizes orders :=
  race_free_iff orders

end BoostNet.SpinLock
