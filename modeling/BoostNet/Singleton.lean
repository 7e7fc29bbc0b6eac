/-
`GetInst` of the singletons that look twice: once before they take the mutex, and once under it.
`SingleMemoryModel` looks at an atomic flag, `SingleAuto` at the pointer itself. Any number of
threads call it any number of times.

* `Pc.Knows`: what a thread knows at each step. Who has seen the flag set, and who has found under
  the mutex that there is an instance, knows of its construction.
* `getInst_iff`: there is no data race in any run, and a single instance that all calls return,
  exactly where the look outside the mutex is at the flag and synchronizes with the store to it.
-/
import BoostNet.Atomics
import BoostNet.Lts
import BoostNet.Threads

set_option autoImplicit false

namespace BoostNet.Singleton

open Atomics

/-! ## The threads -/

/-- Where `GetInst` looks, with the memory orders of the two loads of `_b_init` and of the store
to it. -/
inductive Variant where
  | pointer
  | flag (check recheck publish : MemoryOrder)

def SingleAuto : Variant := .pointer

def SingleMemoryModel : Variant := .flag .acquire .relaxed .release

/-- Where a thread is in `GetInst`. An instance is its number. -/
inductive Pc where
  | check
  | lock
  | recheck
  | construct
  | publish
  | unlock
  | result
  | done (inst : Option Nat)
  deriving DecidableEq

/-- `single`, and how often its constructor was called. -/
structure St (ι : Type*) where
  mem : Mem ι Unit Unit fun _ => Bool
  s_mutex : Mutex ι Unit
  single : Option Nat
  constructed : Nat
  pc : ι → Pc

def St.init {ι : Type*} : St ι where
  mem := .init fun _ => false
  s_mutex := .init
  single := none
  constructed := 0
  pc _ := .check

/-- The next step of a thread, on the message of `_b_init` at a time. -/
structure Act (ι : Type*) where
  thread : ι
  time : Nat

variable {ι : Type*} [DecidableEq ι]

def St.goto (s : St ι) (i : ι) (p : Pc) : St ι := { s with pc := Function.update s.pc i p }

/-- Look whether there is an instance. -/
def look (s : St ι) (i : ι) (flag : Option MemoryOrder) (t : Nat) :
    Option (Bool × Mem ι Unit Unit fun _ => Bool) :=
  match flag with
  | none => some (s.single.isSome, s.mem.access i () false)
  | some o => s.mem.load i () o t

/-- The orders of the two looks. -/
def Variant.check : Variant → Option MemoryOrder
  | .pointer => none
  | .flag check _ _ => some check

def Variant.recheck : Variant → Option MemoryOrder
  | .pointer => none
  | .flag _ recheck _ => some recheck

def GetInst (v : Variant) (s : St ι) (i : ι) (t : Nat) : Option (St ι) :=
  match s.pc i with
  | .check => (look s i v.check t).map fun (found, mem) =>
      { s with mem }.goto i (if found then .result else .lock)
  | .lock => (s.s_mutex.lock s.mem i).map fun (s_mutex, mem) =>
      { s with s_mutex, mem }.goto i .recheck
  | .recheck => (look s i v.recheck t).map fun (found, mem) =>
      { s with mem }.goto i (if found then .unlock else .construct)
  | .construct => some ({ s with
      mem := s.mem.access i () true
      single := some (s.constructed + 1)
      constructed := s.constructed + 1 }.goto i .publish)
  | .publish =>
      match v with
      | .pointer => some (s.goto i .unlock)
      | .flag _ _ publish => (s.mem.store i () publish true t).map fun mem =>
          { s with mem }.goto i .unlock
  | .unlock => some ({ s with s_mutex := Mutex.unlock s.mem i }.goto i .result)
  | .result => some ({ s with mem := s.mem.access i () false }.goto i (.done s.single))
  | .done _ => some (s.goto i .check)

def lts (v : Variant) : Lts (St ι) (Act ι) where
  init := .init
  step s a := GetInst v s a.thread a.time

/-- The access to `single` that a thread does next. -/
def Pc.accesses (v : Variant) : Pc → Option Bool
  | .check => if v.check.isNone then some false else none
  | .recheck => if v.recheck.isNone then some false else none
  | .construct => some true
  | .result => some false
  | _ => none

omit [DecidableEq ι] in
/-- No thread is about to race for `single`. -/
def RaceFree (v : Variant) (s : St ι) : Prop :=
  ∀ i write, (s.pc i).accesses v = some write → ¬ s.mem.Races i () write

omit [DecidableEq ι] in
/-- At most one instance is made, and all calls return it. -/
def Once (s : St ι) : Prop :=
  s.constructed ≤ 1 ∧ ∀ i r, s.pc i = .done r → r = some 1

/-- The look outside the mutex is at the flag, and synchronizes with the store to it. -/
def Synchronizes : Variant → Prop
  | .pointer => False
  | .flag check _ publish => check.acquires = true ∧ publish.releases = true

/-! ## What the threads know -/

omit [DecidableEq ι]

/-- There is an instance, and `w` knows of its construction. -/
def Made (single : Option Nat) (accesses : List (Access ι)) (w : View ι Unit) : Prop :=
  single = some 1 ∧ Known false w accesses

/-- What a thread with the view `w` knows. -/
def Pc.Knows (single : Option Nat) (accesses : List (Access ι)) (w : View ι Unit) : Pc → Prop
  | .check => True
  | .lock => True
  | .recheck => single = none ∨ Made single accesses w ∧ 0 < w.1 ()
  | .construct => single = none
  | .publish => Made single accesses w
  | .unlock => Made single accesses w ∧ 0 < w.1 ()
  | .result => Made single accesses w
  | .done r => r = some 1

/-- The threads that hold the mutex. -/
def Pc.locked : Pc → Bool
  | .recheck | .construct | .publish | .unlock => true
  | _ => false

/-- All messages but the first say that there is an instance, and tell of its construction. -/
def Flag (single : Option Nat) (accesses : List (Access ι)) (t : Nat)
    (m : Msg ι Unit Bool) : Prop :=
  (0 < t → m.value = true) ∧ (m.value = true → Made single accesses m.view)

structure Inv (s : St ι) : Prop where
  flag : s.mem.Sent () (Flag s.single (s.mem.accesses ()))
  single : s.single = none ∧ s.constructed = 0 ∧ s.mem.accesses () = [] ∨
    s.single = some 1 ∧ s.constructed = 1
  guarded : Guarded Pc.locked s.s_mutex.owner s.pc
  mutex : s.s_mutex.owner = none → s.single = none ∨
    Made s.single (s.mem.accesses ()) s.s_mutex.view ∧ 0 < s.s_mutex.view.1 ()
  knows : ∀ i, (s.pc i).Knows s.single (s.mem.accesses ()) (s.mem.views i).cur

section Knows

variable {single : Option Nat} {accesses : List (Access ι)} {w w' : View ι Unit} {a : Access ι}
  {p : Pc}

/-- What a thread knows of the instance it still knows when it has seen more. -/
theorem Made.mono (h : Made single accesses w) (hle : w ≤ w') : Made single accesses w' :=
  ⟨h.1, h.2.mono hle⟩

/-- Reading the instance does not change that it is made. -/
theorem Made.append_read (h : Made single accesses w) (ha : a.write = false) :
    Made single (accesses ++ [a]) w :=
  ⟨h.1, h.2.append_read ha⟩

theorem Pc.Knows.mono (h : p.Knows single accesses w) (hle : w ≤ w') :
    p.Knows single accesses w' := by
  cases p with
  | check | lock => trivial
  | recheck => exact h.imp_right fun h => ⟨h.1.mono hle, Nat.lt_of_lt_of_le h.2 (hle.1 ())⟩
  | construct => exact h
  | publish | result => exact Made.mono h hle
  | unlock => exact ⟨h.1.mono hle, Nat.lt_of_lt_of_le h.2 (hle.1 ())⟩
  | done r => exact h

/-- A read is nothing that has to be known. -/
theorem Pc.Knows.append_read (h : p.Knows single accesses w) (ha : a.write = false) :
    p.Knows single (accesses ++ [a]) w := by
  cases p with
  | check | lock => trivial
  | recheck => exact h.imp_right fun h => ⟨h.1.append_read ha, h.2⟩
  | construct => exact h
  | publish | result => exact Made.append_read h ha
  | unlock => exact ⟨h.1.append_read ha, h.2⟩
  | done r => exact h

end Knows

/-- At first there is no instance and the flag is false. -/
theorem Inv.init : Inv (St.init : St ι) where
  flag := Mem.sent_init ⟨fun h => absurd h (lt_irrefl 0), fun h => Bool.noConfusion h⟩
  single := .inl ⟨rfl, rfl, rfl⟩
  guarded _ := iff_of_false Bool.false_ne_true (Option.some_ne_none _).symm
  mutex _ := .inl rfl
  knows _ := trivial

variable {s s' : St ι} {i j : ι} {t : Nat}

/-- Who holds the mutex before the instance is made is the only one to know something. -/
theorem Pc.Knows.of_none {p : Pc} {accesses accesses' : List (Access ι)} {w w' : View ι Unit}
    {single : Option Nat} (h : p.Knows none accesses w) (hlocked : p.locked = false) :
    p.Knows single accesses' w' := by
  cases p with
  | check | lock => trivial
  | recheck | construct | publish | unlock => exact Bool.noConfusion hlocked
  | result => exact absurd h.1 (Option.some_ne_none 1).symm
  | done r => exact h

/-! ## Steps -/

variable [DecidableEq ι]

/-- A step that leaves `single` and its accesses alone, of a thread that takes or gives back no
mutex. -/
theorem Inv.move (hi : Inv s) {mem : Mem ι Unit Unit fun _ => Bool} {p : Pc}
    (hflag : mem.Sent () (Flag s.single (s.mem.accesses ())))
    (haccesses : mem.accesses = s.mem.accesses) (hviews : s.mem.views ≤ mem.views)
    (hp : p.Knows s.single (s.mem.accesses ()) (mem.views i).cur)
    (hlocked : p.locked = (s.pc i).locked) : Inv ({ s with mem }.goto i p) where
  flag := by
    dsimp only [St.goto]
    rwa [haccesses]
  single := by
    dsimp only [St.goto]
    rw [haccesses]
    exact hi.single
  guarded := hi.guarded.move hlocked
  mutex := by
    dsimp only [St.goto]
    rw [haccesses]
    exact hi.mutex
  knows := by
    dsimp only [St.goto]
    rw [haccesses]
    exact forall_update_at (P := fun j (p : Pc) => p.Knows s.single _ (mem.views j).cur) hp
      fun j _ => (hi.knows j).mono (hviews j).1

omit [DecidableEq ι] in
/-- A load of the flag takes a message that the invariant speaks of, also a stale one. -/
theorem Inv.load_flag (hi : Inv s) {mem : Mem ι Unit Unit fun _ => Bool} {o : MemoryOrder}
    {m : Msg ι Unit Bool} (hl : Mem.Loaded s.mem mem i () o t m) :
    mem.Sent () (Flag s.single (s.mem.accesses ())) :=
  hi.flag.congr (congrFun hl.msgs ())

/-- The check outside of the lock: true is believed only because the load acquires. -/
theorem Inv.check (hi : Inv s) (hpc : s.pc i = .check) {o : MemoryOrder}
    (ho : o.acquires = true) {found : Bool} {mem : Mem ι Unit Unit fun _ => Bool}
    (hload : s.mem.load i () o t = some (found, mem)) :
    Inv ({ s with mem }.goto i (if found then .result else .lock)) := by
  obtain ⟨m, hvalue, hl⟩ := Mem.load_spec hload
  cases found with
  | true =>
      refine hi.move (hi.load_flag hl) hl.accesses hl.views ?_ (hpc ▸ rfl)
      exact ((hi.flag t m hl.msg).2 hvalue).mono (hl.cur ho)
  | false => exact hi.move (hi.load_flag hl) hl.accesses hl.views trivial (hpc ▸ rfl)

/-- The mutex was last released after all that was done under it. -/
theorem Inv.lock (hi : Inv s) {s_mutex : Mutex ι Unit}
    {mem : Mem ι Unit Unit fun _ => Bool} (hlock : s.s_mutex.lock s.mem i = some (s_mutex, mem)) :
    Inv ({ s with s_mutex, mem }.goto i .recheck) := by
  obtain ⟨hfree, howner, hmsgs, haccesses, hviews, hview⟩ := Mem.lock_spec hlock
  refine ⟨?_, ?_, ?_, fun hnone => ?_, ?_⟩
  · dsimp only [St.goto]
    rw [haccesses]
    exact hi.flag.congr (congrFun hmsgs ())
  · dsimp only [St.goto]
    rw [haccesses]
    exact hi.single
  · have hguarded := hi.guarded
    rw [hfree] at hguarded
    exact howner.symm ▸ hguarded.lock rfl
  · exact absurd (howner.symm.trans hnone) (Option.some_ne_none i)
  · dsimp only [St.goto]
    rw [haccesses]
    refine forall_update_at (P := fun j (p : Pc) => p.Knows s.single _ (mem.views j).cur) ?_
      fun j _ => (hi.knows j).mono (hviews j).1
    exact (hi.mutex hfree).imp_right fun h =>
      ⟨h.1.mono hview, Nat.lt_of_lt_of_le h.2 (hview.1 ())⟩

/-- Under the lock the flag is what the last holder left, so a false one means that there is no
instance. -/
theorem Inv.recheck (hi : Inv s) (hpc : s.pc i = .recheck) {o : MemoryOrder} {found : Bool}
    {mem : Mem ι Unit Unit fun _ => Bool} (hload : s.mem.load i () o t = some (found, mem)) :
    Inv ({ s with mem }.goto i (if found then .unlock else .construct)) := by
  obtain ⟨m, hvalue, hl⟩ := Mem.load_spec hload
  have hknows := hi.knows i
  rw [hpc] at hknows
  cases found with
  | true =>
      refine hi.move (hi.load_flag hl) hl.accesses hl.views ?_ (hpc ▸ rfl)
      rcases hknows with hnone | ⟨hmade, hlt⟩
      · have hmade := ((hi.flag t m hl.msg).2 hvalue).1
        rw [hnone] at hmade
        exact absurd hmade.symm (Option.some_ne_none 1)
      · exact ⟨hmade.mono (hl.views i).1, Nat.lt_of_lt_of_le hlt ((hl.views i).1.1 ())⟩
  | false =>
      refine hi.move (hi.load_flag hl) hl.accesses hl.views ?_ (hpc ▸ rfl)
      refine hknows.resolve_right fun ⟨_, hlt⟩ => ?_
      -- the mutex has told that the flag is set
      have hset := (hi.flag t m hl.msg).1 (Nat.lt_of_lt_of_le hlt hl.newer)
      exact Bool.false_ne_true (hvalue.symm.trans hset)

/-- The instance is made once, by the holder of the lock, when nobody else knows of it. -/
theorem Inv.construct (hi : Inv s) (hpc : s.pc i = .construct) :
    Inv ({ s with
      mem := s.mem.access i () true
      single := some (s.constructed + 1)
      constructed := s.constructed + 1 }.goto i .publish) := by
  have hnone : s.single = none := by
    have hknows := hi.knows i
    rwa [hpc] at hknows
  obtain ⟨-, hcount, haccesses⟩ : s.single = none ∧ s.constructed = 0 ∧ s.mem.accesses () = [] :=
    hi.single.resolve_right fun h => Option.some_ne_none 1 (h.1.symm.trans hnone)
  have hin : (s.pc i).locked = true := hpc ▸ rfl
  rw [hcount]
  refine ⟨fun u m hm => ⟨(hi.flag u m hm).1, fun hset => ?_⟩, .inr ⟨rfl, rfl⟩,
    hi.guarded.move (hpc ▸ rfl), fun hfree => ?_, ?_⟩
  · have hmade := ((hi.flag u m hm).2 hset).1
    rw [hnone] at hmade
    exact absurd hmade.symm (Option.some_ne_none 1)
  · exact absurd (((hi.guarded i).mp hin).symm.trans hfree) (Option.some_ne_none i)
  · refine forall_update_at
      (P := fun j (p : Pc) => p.Knows (some 1) _ ((s.mem.access i () true).views j).cur) ⟨rfl, ?_⟩
      fun j hj => ?_
    · apply Known.access
      rw [haccesses]
      exact known_nil false _
    · have hknows := hi.knows j
      rw [hnone] at hknows
      exact hknows.of_none (hi.guarded.outside hin hj)

/-- The store releases, and so the message carries the construction with it. -/
theorem Inv.publish (hi : Inv s) (hpc : s.pc i = .publish) {o : MemoryOrder}
    (ho : o.releases = true) {mem : Mem ι Unit Unit fun _ => Bool}
    (hstore : s.mem.store i () o true t = some mem) : Inv ({ s with mem }.goto i .unlock) := by
  obtain ⟨m, hvalue, hs⟩ := Mem.store_spec hstore
  have hmade := hi.knows i
  rw [hpc] at hmade
  refine hi.move (hi.flag.put hs.msgs ⟨fun _ => hvalue, fun _ => ?_⟩) hs.accesses hs.views ⟨?_, ?_⟩
    (hpc ▸ rfl)
  · exact Made.mono hmade (hs.cur ho)
  · exact Made.mono hmade (hs.views i).1
  · exact (Nat.zero_lt_of_lt hs.newer).trans_le hs.seen

/-- What was done under the lock goes to the next holder. -/
theorem Inv.unlock (hi : Inv s) (hpc : s.pc i = .unlock) :
    Inv ({ s with s_mutex := Mutex.unlock s.mem i }.goto i .result) := by
  have hknows := hi.knows i
  rw [hpc] at hknows
  exact ⟨hi.flag, hi.single, hi.guarded.unlock (hpc ▸ rfl) rfl, fun _ => .inr hknows,
    forall_update_at (P := fun j (p : Pc) => p.Knows s.single _ (s.mem.views j).cur) hknows.1
      fun j _ => hi.knows j⟩

/-- The pointer is read by a thread that knows the construction, hence there is no race. -/
theorem Inv.result (hi : Inv s) (hpc : s.pc i = .result) :
    Inv ({ s with mem := s.mem.access i () false }.goto i (.done s.single)) := by
  have hmade := hi.knows i
  rw [hpc] at hmade
  have haccesses : (s.mem.access i () false).accesses () = _ := access_accesses
  refine ⟨?_, ?_, hi.guarded.move (hpc ▸ rfl), fun hfree => ?_, ?_⟩
  · intro u m hm
    dsimp only [St.goto]
    rw [haccesses]
    exact ⟨(hi.flag u m hm).1, fun hset => ((hi.flag u m hm).2 hset).append_read rfl⟩
  · exact .inr (hi.single.resolve_left fun h => Option.some_ne_none 1 (hmade.1.symm.trans h.1))
  · dsimp only [St.goto]
    rw [haccesses]
    exact (hi.mutex hfree).imp_right fun h => ⟨h.1.append_read rfl, h.2⟩
  · dsimp only [St.goto]
    rw [haccesses]
    exact forall_update_at (P := fun j (p : Pc) => p.Knows s.single _
      ((s.mem.access i () false).views j).cur) hmade.1
      fun j _ => ((hi.knows j).append_read rfl).mono (access_views j).1

/-- One case for each line of `GetInst`. -/
theorem Inv.step {v : Variant} (hv : Synchronizes v) (s : St ι) (a : Act ι) (s' : St ι)
    (hi : Inv s) (h : (lts v).step s a = some s') : Inv s' := by
  obtain ⟨i, t⟩ := a
  cases v with
  | pointer => exact hv.elim
  | flag check recheck publish =>
      simp only [lts, GetInst] at h
      split at h
      next hpc =>
        obtain ⟨⟨found, mem⟩, hload, rfl⟩ := Option.map_eq_some_iff.mp h
        exact hi.check hpc hv.1 hload
      next hpc =>
        obtain ⟨⟨s_mutex, mem⟩, hlock, rfl⟩ := Option.map_eq_some_iff.mp h
        exact hi.lock hlock
      next hpc =>
        obtain ⟨⟨found, mem⟩, hload, rfl⟩ := Option.map_eq_some_iff.mp h
        exact hi.recheck hpc hload
      next hpc =>
        obtain rfl := Option.some.inj h
        exact hi.construct hpc
      next hpc =>
        obtain ⟨mem, hstore, rfl⟩ := Option.map_eq_some_iff.mp h
        exact hi.publish hpc hv.2 hstore
      next hpc =>
        obtain rfl := Option.some.inj h
        exact hi.unlock hpc
      next hpc =>
        obtain rfl := Option.some.inj h
        exact hi.result hpc
      next r hpc =>
        obtain rfl := Option.some.inj h
        exact hi.move hi.flag rfl le_rfl trivial (hpc ▸ rfl)

/-! ## The instance in all runs -/

omit [DecidableEq ι] in
/-- All accesses of the instance are ordered. -/
theorem Inv.race_free {check recheck publish : MemoryOrder} (hi : Inv s) :
    RaceFree (.flag check recheck publish) s := by
  intro i write h
  have hknows := hi.knows i
  apply Known.not_races
  cases hpc : s.pc i with
  | construct =>
      rw [hpc] at hknows
      have haccesses : s.mem.accesses () = [] :=
        (hi.single.resolve_right fun h => Option.some_ne_none 1 (h.1.symm.trans hknows)).2.2
      rw [haccesses]
      exact known_nil write _
  | result =>
      rw [hpc] at h hknows
      obtain rfl := Option.some.inj h
      exact hknows.2
  | check | lock | recheck | publish | unlock | done =>
      rw [hpc] at h
      cases h

omit [DecidableEq ι] in
/-- And all calls return the one instance. -/
theorem Inv.once (hi : Inv s) : Once s := by
  refine ⟨?_, fun i r hpc => ?_⟩
  · rcases hi.single with h | h
    · exact h.2.1.trans_le (Nat.zero_le 1)
    · exact h.2.le
  · have hknows := hi.knows i
    rwa [hpc] at hknows

/-- One thread makes the instance, and another is about to look at the pointer. -/
theorem constructing_run {i j : ι} (hij : i ≠ j) :
    ∃ s, (lts .pointer).exec .init [⟨i, 0⟩, ⟨i, 0⟩, ⟨i, 0⟩, ⟨i, 0⟩] = some s ∧
      s.pc j = .check ∧ s.mem.views j = .bot ∧ ⟨i, 3, true⟩ ∈ s.mem.accesses () := by
  have hticked (n : Nat) : (ticked i n : View ι Unit).2 i = n := Function.update_self ..
  simp only [Lts.exec, lts, GetInst, look, St.init, Mem.init, Mem.setViews, Mem.access, Views.bot,
    Views.learn, Mutex.init, Mutex.lock, Variant.check, Variant.recheck, St.goto]
  simp [Function.update_of_ne hij.symm, hticked]

/-- One thread makes the instance and sets the flag. Unless the store releases, nothing of that
is in the message. -/
theorem publishing_run (check recheck publish : MemoryOrder) {i j : ι} (hij : i ≠ j) :
    ∃ s m, (lts (.flag check recheck publish)).exec .init
        [⟨i, 0⟩, ⟨i, 0⟩, ⟨i, 0⟩, ⟨i, 0⟩, ⟨i, 1⟩] = some s ∧
      s.pc j = .check ∧ s.mem.views j = .bot ∧ ⟨i, 1, true⟩ ∈ s.mem.accesses () ∧
      s.mem.msgs () 1 = some m ∧ m.value = true ∧
      (publish.releases = false → m.view.2 i = 0) := by
  have hticked : (ticked i 1 : View ι Unit).1 () = 0 := rfl
  have hseen : (seen () 0 : View ι Unit) = ⊥ := le_bot_iff.mp (seen_le.mpr (Nat.zero_le _))
  suffices hview : publish.releases = false →
      (if publish.releases = true then ticked i 1 else ⊥ : View ι Unit).2 i = 0 ∧
        (seen () 1 : View ι Unit).2 i = 0 by
    simp only [Lts.exec, lts, GetInst, look, St.init, Mem.init, Mem.setViews, Mem.access,
      Views.bot, Views.learn, Mutex.init, Mutex.lock, Variant.check, Variant.recheck, St.goto,
      Mem.load, Mem.store, Mem.put, Views.read, Views.receive, Views.message]
    simpa [Function.update_of_ne hij.symm, hticked, hseen] using hview
  intro hrel
  rw [hrel]
  exact ⟨rfl, rfl⟩

/-- A look at the pointer outside the mutex races with its construction. -/
theorem pointer_races {i j : ι} (hij : i ≠ j) :
    ∃ as, ∃ s : St ι, (lts .pointer).exec .init as = some s ∧ ¬ RaceFree .pointer s := by
  obtain ⟨s, hrun, hpc, hviews, hmem⟩ := constructing_run hij
  refine ⟨_, s, hrun, fun hfree => hfree j false ?_ fun hknown => ?_⟩
  · rw [hpc]
    rfl
  · have hle : 3 ≤ (s.mem.views j).cur.2 i := hknown _ hmem rfl
    rw [hviews] at hle
    exact absurd hle (by decide : ¬ 3 ≤ 0)

/-- A thread that sees the flag but does not synchronize races for the pointer. -/
theorem flag_races {check recheck publish : MemoryOrder}
    (hv : ¬ (check.acquires = true ∧ publish.releases = true)) {i j : ι} (hij : i ≠ j) :
    ∃ as, ∃ s : St ι, (lts (.flag check recheck publish)).exec .init as = some s ∧
      ¬ RaceFree (.flag check recheck publish) s := by
  obtain ⟨s, m, hrun, hpc, hviews, hmem, hm, hset, hrel⟩ :=
    publishing_run check recheck publish hij
  have hnewer : (s.mem.views j).cur.1 () ≤ 1 := by
    rw [hviews]
    exact Nat.zero_le 1
  let mem := s.mem.setViews j ((s.mem.views j).read check () 1 m.view)
  have hload : s.mem.load j () check 1 = some (true, mem) := by
    rw [Mem.load, hm, Option.bind_some, if_pos hnewer, hset]
  refine ⟨_ ++ [⟨j, 1⟩], ({ s with mem } : St ι).goto j .result,
    (Lts.exec_append _ hrun).trans ?_, fun hfree => hfree j false ?_ fun hknown => ?_⟩
  · rw [Lts.exec_cons]
    simp only [lts, GetInst, hpc, look, Variant.check, hload]
    rfl
  · dsimp only [St.goto]
    rw [Function.update_self]
    rfl
  · have hle : 1 ≤ (mem.views j).cur.2 i := hknown _ hmem rfl
    rw [Mem.setViews_self, hviews, Views.bot_read_snd] at hle
    split at hle
    next hacq =>
      rw [hrel (Bool.eq_false_iff.mpr fun h => hv ⟨hacq, h⟩)] at hle
      exact absurd hle (by decide)
    next => exact absurd hle (by decide)

/-- **The singleton**: no run has a data race for the pointer, and all calls return the one
instance, exactly where the look outside the mutex synchronizes with the store to the flag. The look
under the mutex is ordered by the mutex; only the one outside of it rests on the orders of the flag.
-/
theorem getInst_iff [Nontrivial ι] (v : Variant) :
    (∀ as, (lts v).Along (fun s : St ι => RaceFree v s ∧ Once s) (lts v).init as) ↔
      Synchronizes v := by
  constructor
  · intro hall
    by_contra hv
    obtain ⟨i, j, hij⟩ := exists_pair_ne ι
    have hraces : ∃ as, ∃ s : St ι, (lts v).exec .init as = some s ∧ ¬ RaceFree v s := by
      cases v with
      | pointer => exact pointer_races hij
      | flag check recheck publish => exact flag_races hv hij
    obtain ⟨as, s, hrun, hraces⟩ := hraces
    exact hraces ((hall as).last (lts v) hrun).1
  · intro hv as
    cases v with
    | pointer => exact hv.elim
    | flag check recheck publish =>
        exact (lts _).along_of_inv (fun s hi => ⟨Inv.race_free hi, Inv.once hi⟩) (Inv.step hv)
          .init

theorem getInst_iff_singleMemoryModel :
    (∀ as, (lts SingleMemoryModel).Along
      (fun s : St Bool => RaceFree SingleMemoryModel s ∧ Once s) (lts SingleMemoryModel).init as) ↔
      Synchronizes SingleMemoryModel :=
  getInst_iff SingleMemoryModel

end BoostNet.Singleton
