/-
The tests that publish `x` by `y`: `write_x_then_y` and `read_y_then_x`, in the variants of
`TestOrderRelaxed`, `TestOrderSeqCst`, `TestReleaseAcquire`, `TestRelaxed` and `TestFence`, which
differ in the memory orders and in the fences. Some of them assert in the reader that `x` is set,
the others count it in `z`, which the main thread asserts after the joins.

* `Inv`: what holds in every state, if the store to `y` synchronizes with the load that sees it.
* `assertions_hold_iff`: the assertions hold in all runs exactly where it does.
-/
import BoostNet.Atomics
import BoostNet.Lts

set_option autoImplicit false

namespace BoostNet.MessagePassing

open Atomics

/-! ## The threads -/

inductive Object where
  | x
  | y
  | z
  deriving DecidableEq

/-- `std::atomic<bool> x, y; std::atomic<int> z;` -/
abbrev Value : Object → Type
  | .x => Bool
  | .y => Bool
  | .z => Int

/-- What the variants differ in. -/
structure Variant where
  store_x : MemoryOrder
  release_fence : Bool
  store_y : MemoryOrder
  load_y : MemoryOrder
  acquire_fence : Bool
  load_x : MemoryOrder

def TestOrderRelaxed : Variant := ⟨.relaxed, false, .relaxed, .relaxed, false, .relaxed⟩

def TestOrderSeqCst : Variant := ⟨.seq_cst, false, .seq_cst, .seq_cst, false, .seq_cst⟩

def TestReleaseAcquire : Variant := ⟨.relaxed, false, .release, .acquire, false, .relaxed⟩

def TestRelaxed : Variant := ⟨.relaxed, false, .relaxed, .relaxed, false, .relaxed⟩

def TestFence : Variant := ⟨.relaxed, true, .relaxed, .relaxed, true, .relaxed⟩

inductive Thread where
  | main
  | writer
  | reader
  deriving DecidableEq

/-- Where `write_x_then_y` is. -/
inductive Writer where
  | store_x
  | fence
  | store_y
  | done
  deriving DecidableEq

/-- Where `read_y_then_x` is. It knows in the end whether `x` was set. -/
inductive Reader where
  | load_y
  | fence
  | load_x
  | count
  | done (found : Bool)
  deriving DecidableEq

/-- Where the main thread is, from the joins to what `z.load() != 0` was. -/
inductive Main where
  | join_writer
  | join_reader
  | load_z
  | done (nonzero : Bool)
  deriving DecidableEq

structure St where
  mem : Mem Thread Object Empty Value
  writer : Writer
  reader : Reader
  main : Main

def St.init : St where
  mem := Mem.init fun
    | .x => false
    | .y => false
    | .z => 0
  writer := .store_x
  reader := .load_y
  main := .join_writer

/-- The next step of a thread, on the message at a time. -/
structure Act where
  thread : Thread
  time : Nat

def writeXThenY (v : Variant) (s : St) (t : Nat) : Option St :=
  match s.writer with
  | .store_x => (s.mem.store .writer .x v.store_x true t).map fun mem =>
      { s with mem, writer := if v.release_fence then .fence else .store_y }
  | .fence => some { s with mem := s.mem.fence .writer .release, writer := .store_y }
  | .store_y => (s.mem.store .writer .y v.store_y true t).map fun mem =>
      { s with mem, writer := .done }
  | .done => none

def readYThenX (v : Variant) (s : St) (t : Nat) : Option St :=
  match s.reader with
  | .load_y => (s.mem.load .reader .y v.load_y t).map fun (y, mem) =>
      { s with
        mem
        reader := if y then (if v.acquire_fence then .fence else .load_x) else .load_y }
  | .fence => some { s with mem := s.mem.fence .reader .acquire, reader := .load_x }
  | .load_x => (s.mem.load .reader .x v.load_x t).map fun (x, mem) =>
      { s with mem, reader := if x then .count else .done false }
  | .count => (s.mem.rmw .reader .z .seq_cst (· + 1) t).map fun (_, mem) =>
      { s with mem, reader := .done true }
  | .done _ => none

def mainThread (s : St) (t : Nat) : Option St :=
  match s.main with
  | .join_writer =>
      if s.writer = .done then
        some { s with mem := s.mem.sync .main .writer, main := .join_reader }
      else none
  | .join_reader =>
      match s.reader with
      | .done _ => some { s with mem := s.mem.sync .main .reader, main := .load_z }
      | _ => none
  | .load_z => (s.mem.load .main .z .seq_cst t).map fun (z, mem) =>
      { s with mem, main := .done (z ≠ 0) }
  | .done _ => none

def lts (v : Variant) : Lts St Act where
  init := .init
  step s a :=
    match a.thread with
    | .writer => writeXThenY v s a.time
    | .reader => readYThenX v s a.time
    | .main => mainThread s a.time

/-- A store to `y` synchronizes with the load of it. -/
def Synchronizes (v : Variant) : Prop :=
  (v.store_y.releases = true ∨ v.release_fence = true) ∧
    (v.load_y.acquires = true ∨ v.acquire_fence = true)

instance (v : Variant) : Decidable (Synchronizes v) := inferInstanceAs (Decidable (_ ∧ _))

/-! ## What the threads know -/

variable {v : Variant} {s s' : St} {t : Nat}

/-- The writer knows its store to `x`, and a release fence tells it. -/
def Writer.Knows (v : Variant) (w : Views Thread Object) : Writer → Prop
  | .store_x => True
  | .fence => 0 < w.cur.1 .x
  | .store_y => 0 < w.cur.1 .x ∧ (v.release_fence = true → 0 < w.rel.1 .x)
  | .done => True

/-- Once `y` was set the reader knows the store to `x`, after the acquire fence if there is
one. -/
def Reader.Knows (w : Views Thread Object) : Reader → Prop
  | .load_y => True
  | .fence => 0 < w.acq.1 .x
  | .load_x => 0 < w.cur.1 .x
  | .count => True
  | .done found => found = true ∧ 0 < w.cur.1 .z

/-- The main thread knows that `z` was counted. -/
def Main.Knows (w : Views Thread Object) : Main → Prop
  | .join_writer => True
  | .join_reader => True
  | .load_z => 0 < w.cur.1 .z
  | .done nonzero => nonzero = true

section Knows

variable {w w' : Views Thread Object}

/-- A thread keeps what it knows when it sees more. -/
theorem Writer.Knows.mono {p : Writer} (h : p.Knows v w) (hle : w ≤ w') : p.Knows v w' := by
  cases p with
  | store_x => trivial
  | fence => exact Nat.lt_of_lt_of_le h (hle.1.1 .x)
  | store_y =>
      exact ⟨Nat.lt_of_lt_of_le h.1 (hle.1.1 .x),
        fun hfence => Nat.lt_of_lt_of_le (h.2 hfence) (hle.2.2.1 .x)⟩
  | done => trivial

theorem Reader.Knows.mono {p : Reader} (h : p.Knows w) (hle : w ≤ w') : p.Knows w' := by
  cases p with
  | load_y => trivial
  | fence => exact Nat.lt_of_lt_of_le h (hle.2.1.1 .x)
  | load_x => exact Nat.lt_of_lt_of_le h (hle.1.1 .x)
  | count => trivial
  | done found => exact ⟨h.1, Nat.lt_of_lt_of_le h.2 (hle.1.1 .z)⟩

theorem Main.Knows.mono {p : Main} (h : p.Knows w) (hle : w ≤ w') : p.Knows w' := by
  cases p with
  | join_writer => trivial
  | join_reader => trivial
  | load_z => exact Nat.lt_of_lt_of_le h (hle.1.1 .z)
  | done nonzero => exact h

end Knows

/-- The messages of `x`: all but the first say that it is set. -/
def XSet (t : Nat) (m : Msg Thread Object Bool) : Prop := 0 < t → m.value = true

/-- A message of `y` that says it is set tells of the store to `x`. -/
def YCarries (_ : Nat) (m : Msg Thread Object Bool) : Prop := m.value = true → 0 < m.view.1 .x

/-- The messages of `z` count. -/
def ZCounts (t : Nat) (m : Msg Thread Object Int) : Prop := m.value = t

structure Inv (v : Variant) (s : St) : Prop where
  x_set : s.mem.Sent .x XSet
  y_carries : s.mem.Sent .y YCarries
  z_counts : s.mem.Sent .z ZCounts
  writer : s.writer.Knows v (s.mem.views .writer)
  reader : s.reader.Knows (s.mem.views .reader)
  main : s.main.Knows (s.mem.views .main)

/-- Neither of the variables was written. -/
theorem Inv.init : Inv v St.init where
  x_set := Mem.sent_init fun h => absurd h (lt_irrefl 0)
  y_carries := Mem.sent_init fun h => Bool.noConfusion h
  z_counts := Mem.sent_init rfl
  writer := trivial
  reader := trivial
  main := trivial

/-! ## Steps -/

/-- The store to `y` comes with what the thread has seen, the store to `x` included. -/
theorem Inv.writer_step (hv : Synchronizes v) (hi : Inv v s) (h : writeXThenY v s t = some s') :
    Inv v s' := by
  unfold writeXThenY at h
  split at h
  -- The store to `x`: from now on the writer knows it.
  next hw =>
    obtain ⟨mem, hstore, rfl⟩ := Option.map_eq_some_iff.mp h
    obtain ⟨m, hvalue, hs⟩ := Mem.store_spec hstore
    have hknows : 0 < (mem.views .writer).cur.1 .x := (Nat.zero_lt_of_lt hs.newer).trans_le hs.seen
    refine ⟨hi.x_set.put hs.msgs fun _ => hvalue, ?_, ?_, ?_, hi.reader.mono (hs.views .reader),
      hi.main.mono (hs.views .main)⟩
    · exact hi.y_carries.congr (hs.msgs ▸ Mem.put_other (by decide))
    · exact hi.z_counts.congr (hs.msgs ▸ Mem.put_other (by decide))
    · dsimp only
      split
      · exact hknows
      next hfence => exact ⟨hknows, fun h => absurd h hfence⟩
  next hw =>
    obtain rfl := Option.some.inj h
    -- The release fence: what the writer knows goes with every later store.
    obtain ⟨hmsgs, -, hviews, -, hrel⟩ := s.mem.fence_spec .writer .release
    have hknows := hi.writer
    rw [hw] at hknows
    refine ⟨hi.x_set, hi.y_carries, hi.z_counts, ⟨?_, fun _ => ?_⟩,
      hi.reader.mono (hviews .reader), hi.main.mono (hviews .main)⟩
    · exact Nat.lt_of_lt_of_le hknows ((hviews .writer).1.1 .x)
    · exact Nat.lt_of_lt_of_le hknows ((hrel rfl).1 .x)
  next hw =>
    obtain ⟨mem, hstore, rfl⟩ := Option.map_eq_some_iff.mp h
    obtain ⟨m, hvalue, hs⟩ := Mem.store_spec hstore
    have hknows := hi.writer
    rw [hw] at hknows
    -- The store to `y` carries it, be it by itself or through the fence.
    refine ⟨?_, hi.y_carries.put hs.msgs fun _ => ?_, ?_, trivial,
      hi.reader.mono (hs.views .reader), hi.main.mono (hs.views .main)⟩
    · exact hi.x_set.congr (hs.msgs ▸ Mem.put_other (by decide))
    · rcases hv.1 with hrel | hfence
      · exact Nat.lt_of_lt_of_le hknows.1 ((hs.cur hrel).1 .x)
      · exact Nat.lt_of_lt_of_le (hknows.2 hfence) (hs.rel.1 .x)
    · exact hi.z_counts.congr (hs.msgs ▸ Mem.put_other (by decide))
  next hw => cases h

/-- A load of `y` that gives true has got the message of the writer with all that it carries. -/
theorem Inv.reader_step (hv : Synchronizes v) (hi : Inv v s) (h : readYThenX v s t = some s') :
    Inv v s' := by
  have hknows := hi.reader
  unfold readYThenX at h
  split at h
  next hr =>
    obtain ⟨⟨y, mem⟩, hload, rfl⟩ := Option.map_eq_some_iff.mp h
    obtain ⟨m, hvalue, hl⟩ := Mem.load_spec hload
    refine ⟨hi.x_set.congr (congrFun hl.msgs _), hi.y_carries.congr (congrFun hl.msgs _),
      hi.z_counts.congr (congrFun hl.msgs _), hi.writer.mono (hl.views .writer), ?_,
      hi.main.mono (hl.views .main)⟩
    dsimp only
    split
    next hy =>
      have hcarried : 0 < m.view.1 .x := hi.y_carries t m hl.msg (hvalue.trans hy)
      split
      -- With a fence to come it is enough that the fence will learn it.
      next => exact hcarried.trans_le (hl.acq.1 .x)
      next hfence =>
        exact hcarried.trans_le ((hl.cur (hv.2.resolve_right hfence)).1 .x)
    next => trivial
  next hr =>
    obtain rfl := Option.some.inj h
    obtain ⟨hmsgs, -, hviews, hacq, -⟩ := s.mem.fence_spec .reader .acquire
    rw [hr] at hknows
    exact ⟨hi.x_set, hi.y_carries, hi.z_counts, hi.writer.mono (hviews .writer),
      Nat.lt_of_lt_of_le hknows ((hacq rfl).1 .x), hi.main.mono (hviews .main)⟩
  next hr =>
    obtain ⟨⟨x, mem⟩, hload, rfl⟩ := Option.map_eq_some_iff.mp h
    obtain ⟨m, hvalue, hl⟩ := Mem.load_spec hload
    rw [hr] at hknows
    -- the reader knows a store to `x`, and loads nothing older
    have hx : x = true :=
      hvalue.symm.trans (hi.x_set t m hl.msg (Nat.lt_of_lt_of_le hknows hl.newer))
    refine ⟨hi.x_set.congr (congrFun hl.msgs _), hi.y_carries.congr (congrFun hl.msgs _),
      hi.z_counts.congr (congrFun hl.msgs _), hi.writer.mono (hl.views .writer), ?_,
      hi.main.mono (hl.views .main)⟩
    dsimp only
    rw [if_pos hx]
    trivial
  next hr =>
    obtain ⟨⟨z, mem⟩, hrmw, rfl⟩ := Option.map_eq_some_iff.mp h
    obtain ⟨m, m', hvalue, hvalue', hm⟩ := Mem.rmw_spec hrmw
    refine ⟨?_, ?_, hi.z_counts.put hm.msgs ?_, hi.writer.mono (hm.views .writer), ⟨rfl, ?_⟩,
      hi.main.mono (hm.views .main)⟩
    · exact hi.x_set.congr (hm.msgs ▸ Mem.put_other (by decide))
    · exact hi.y_carries.congr (hm.msgs ▸ Mem.put_other (by decide))
    · have hcount : m.value = t := hi.z_counts t m hm.msg
      show m'.value = ((t + 1 : Nat) : Int)
      rw [hvalue', ← hvalue, hcount, Int.natCast_succ]
    · exact Nat.zero_lt_of_lt hm.seen
  next hr => cases h

/-- The main thread joins the others first, and joining orders everything. -/
theorem Inv.main_step (hi : Inv v s) (h : mainThread s t = some s') : Inv v s' := by
  unfold mainThread at h
  split at h
  next hm =>
    obtain ⟨hdone, h⟩ := Option.ite_none_right_eq_some.mp h
    obtain rfl := Option.some.inj h
    obtain ⟨hmsgs, -, hviews, -⟩ := s.mem.sync_spec .main .writer
    exact ⟨hi.x_set, hi.y_carries, hi.z_counts, hi.writer.mono (hviews .writer),
      hi.reader.mono (hviews .reader), trivial⟩
  next hm =>
    split at h
    next found hdone =>
      obtain rfl := Option.some.inj h
      obtain ⟨hmsgs, -, hviews, hjoin⟩ := s.mem.sync_spec .main .reader
      have hknows := hi.reader
      rw [hdone] at hknows
      exact ⟨hi.x_set, hi.y_carries, hi.z_counts, hi.writer.mono (hviews .writer),
        hi.reader.mono (hviews .reader), Nat.lt_of_lt_of_le hknows.2 (hjoin.1 .z)⟩
    next => cases h
  next hm =>
    obtain ⟨⟨z, mem⟩, hload, rfl⟩ := Option.map_eq_some_iff.mp h
    obtain ⟨m, hvalue, hl⟩ := Mem.load_spec hload
    have hknows := hi.main
    rw [hm] at hknows
    have hz : z = t := hvalue.symm.trans (hi.z_counts t m hl.msg)
    have ht : 0 < t := Nat.lt_of_lt_of_le hknows hl.newer
    refine ⟨hi.x_set.congr (congrFun hl.msgs _), hi.y_carries.congr (congrFun hl.msgs _),
      hi.z_counts.congr (congrFun hl.msgs _), hi.writer.mono (hl.views .writer),
      hi.reader.mono (hl.views .reader), decide_eq_true ?_⟩
    rw [hz]
    exact Int.natCast_ne_zero.mpr ht.ne'
  next hm => cases h

/-- The three threads together. -/
theorem Inv.step (hv : Synchronizes v) (s : St) (a : Act) (s' : St) (hi : Inv v s)
    (h : (lts v).step s a = some s') : Inv v s' := by
  simp only [lts] at h
  split at h
  · exact hi.writer_step hv h
  · exact hi.reader_step hv h
  · exact hi.main_step h

/-! ## The assertions -/

/-- The assertion of the reader holds. -/
theorem Inv.reader_asserts (hi : Inv v s) : s.reader ≠ .done false := by
  intro hr
  have hknows := hi.reader
  rw [hr] at hknows
  exact Bool.false_ne_true hknows.1

/-- So does the one at the end of `main`. -/
theorem Inv.main_asserts (hi : Inv v s) : s.main ≠ .done false := by
  intro hm
  have hknows := hi.main
  rw [hm] at hknows
  exact Bool.false_ne_true hknows

/-- The reader sees `y` set and then the first message of `x`. -/
def failing (v : Variant) : List Act :=
  (if v.release_fence then [⟨.writer, 1⟩, ⟨.writer, 0⟩, ⟨.writer, 1⟩]
    else [⟨.writer, 1⟩, ⟨.writer, 1⟩]) ++
  (if v.acquire_fence then [⟨.reader, 1⟩, ⟨.reader, 0⟩, ⟨.reader, 0⟩]
    else [⟨.reader, 1⟩, ⟨.reader, 0⟩]) ++
  [⟨.main, 0⟩, ⟨.main, 0⟩, ⟨.main, 0⟩]

/-- Nothing tells the message of `y` of the store to `x`. -/
theorem failing_of_not_releases {store_x store_y load_y load_x : MemoryOrder}
    (acquire_fence : Bool) (h : store_y.releases = false) :
    ((lts ⟨store_x, false, store_y, load_y, acquire_fence, load_x⟩).exec .init
      (failing ⟨store_x, false, store_y, load_y, acquire_fence, load_x⟩)).map
      (fun s => (s.reader, s.main)) = some (.done false, .done false) := by
  cases store_y with
  | relaxed | acquire => cases load_y <;> cases load_x <;> cases acquire_fence <;> rfl
  | release | acq_rel | seq_cst => exact Bool.noConfusion h

/-- The reader does not take over what the message of `y` tells. -/
theorem failing_of_not_acquires {store_x store_y load_y load_x : MemoryOrder}
    (release_fence : Bool) (h : load_y.acquires = false) :
    ((lts ⟨store_x, release_fence, store_y, load_y, false, load_x⟩).exec .init
      (failing ⟨store_x, release_fence, store_y, load_y, false, load_x⟩)).map
      (fun s => (s.reader, s.main)) = some (.done false, .done false) := by
  cases load_y with
  | relaxed | release => cases store_y <;> cases load_x <;> cases release_fence <;> rfl
  | acquire | acq_rel | seq_cst => exact Bool.noConfusion h

/-- A run on which both fail: without release and acquire the reader may still see the old `x`. -/
theorem failing_fails (hv : ¬ Synchronizes v) :
    ((lts v).exec .init (failing v)).map (fun s => (s.reader, s.main)) =
      some (.done false, .done false) := by
  obtain ⟨store_x, release_fence, store_y, load_y, acquire_fence, load_x⟩ := v
  simp only [Synchronizes, not_and_or, not_or, Bool.not_eq_true] at hv
  rcases hv with ⟨hstore, rfl⟩ | ⟨hload, rfl⟩
  · exact failing_of_not_releases acquire_fence hstore
  · exact failing_of_not_acquires release_fence hload

theorem exists_failing (hv : ¬ Synchronizes v) :
    ∃ s, (lts v).exec (lts v).init (failing v) = some s ∧ s.reader = .done false ∧
      s.main = .done false := by
  obtain ⟨s, hs, heq⟩ := Option.map_eq_some_iff.mp (failing_fails hv)
  obtain ⟨hreader, hmain⟩ := Prod.mk.inj heq
  exact ⟨s, hs, hreader, hmain⟩

/-- **The assertions**: that of the reader on `x` holds in all runs exactly where the store to `y`
synchronizes with the load, and so does that of the main thread on `z`. What the reader has counted
in `z` the main thread sees in any case, since it has joined the reader. -/
theorem assertions_hold_iff (v : Variant) :
    ((∀ as, (lts v).Along (fun s => s.reader ≠ .done false) (lts v).init as) ↔ Synchronizes v) ∧
      ((∀ as, (lts v).Along (fun s => s.main ≠ .done false) (lts v).init as) ↔
        Synchronizes v) := by
  constructor
  · constructor
    · intro hall
      by_contra hv
      obtain ⟨s, hrun, hreader, -⟩ := exists_failing hv
      exact (hall (failing v)).last (lts v) hrun hreader
    · intro hv as
      exact (lts v).along_of_inv (fun s hi => Inv.reader_asserts hi) (Inv.step hv) .init
  · constructor
    · intro hall
      by_contra hv
      obtain ⟨s, hrun, -, hmain⟩ := exists_failing hv
      exact (hall (failing v)).last (lts v) hrun hmain
    · intro hv as
      exact (lts v).along_of_inv (fun s hi => Inv.main_asserts hi) (Inv.step hv) .init

example : Synchronizes TestOrderSeqCst ∧ Synchronizes TestReleaseAcquire ∧
    Synchronizes TestFence ∧ ¬ Synchronizes TestOrderRelaxed ∧ ¬ Synchronizes TestRelaxed := by
  decide

end BoostNet.MessagePassing
