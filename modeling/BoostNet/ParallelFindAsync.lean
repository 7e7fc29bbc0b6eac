/-
`parallel_find_async` (Concurrent/day21-ParallenAlgorithm/parallen_find.h): a search by halves,
with `std::async` for the second half.

`Find` is a call of `parallel_find_impl` that is being executed, with the calls under it: the
one of the first half, in the same thread, and the one of the second half, in another. A step
is one load of `done`, one comparison, one store, or what a call does with the results of the
two others; a run takes the steps of the calls in any order. A deferred task that nobody waits
for is never run (`destroy`). Iterators are indices; `is_match` says which elements are equal to
`match`.

A call that does not find anything returns the end of its range, also when it has been stopped
by `done`. `Inv` says what each call has looked at, `Found` that a call will return what
has been found: no call sets `done` otherwise.

* `returned_spec`: what the first call returns.
* `exists_step`, `length_le`: it does return.
-/
import BoostNet.Blocks
import BoostNet.Lts

set_option autoImplicit false

namespace BoostNet.ParallelFindAsync

open Blocks

/-- A call of `parallel_find_impl`. -/
inductive Find
  | call (first last : Nat)
  | loop (first last : Nat)
  | compare (first last : Nat)
  | store (first : Nat)
  /-- The task of the second half, and the call for the first half. -/
  | both (mid_point : Nat) (async_result direct : Find)
  /-- `async_result.get()` -/
  | get (async_result : Find)
  /-- The destructor of `async_result` waits, and `direct_result` is returned. -/
  | destroy (async_result : Find) (direct_result : Nat)
  | returned (it : Nat)

/-- Which call takes a step. -/
inductive Side
  | async | direct

namespace Find

/-- The next step of a call itself, with the value of `done` after it. -/
def next (is_match : Nat → Bool) (done : Bool) : Find → Option (Bool × Find)
  | call first last =>
      some (done,
        if last - first < 2 * min_per_thread then loop first last
        else
          let mid_point := first + (last - first) / 2
          both mid_point (call mid_point last) (call first mid_point))
  | loop first last =>
      some (done, if first ≠ last ∧ done = false then compare first last else returned last)
  | compare first last =>
      some (done, if is_match first then store first else loop (first + 1) last)
  -- done = true; return first;
  | store first => some (true, returned first)
  -- (direct_result == mid_point) ? async_result.get() : direct_result
  | both mid_point async_result (returned it) =>
      some (done, if it = mid_point then get async_result else destroy async_result it)
  | get (returned it) => some (done, returned it)
  | destroy (returned _) it => some (done, returned it)
  | destroy (call _ _) it => some (done, returned it)
  | _ => none

/-- The next step of the call at the end of `path`. -/
def step (is_match : Nat → Bool) (done : Bool) : Find → List Side → Option (Bool × Find)
  | t, [] => next is_match done t
  | both mid_point async_result direct, .async :: path =>
      (step is_match done async_result path).map fun r => (r.1, both mid_point r.2 direct)
  | both mid_point async_result direct, .direct :: path =>
      (step is_match done direct path).map fun r => (r.1, both mid_point async_result r.2)
  | get async_result, .async :: path =>
      (step is_match done async_result path).map fun r => (r.1, get r.2)
  | destroy async_result it, .async :: path =>
      (step is_match done async_result path).map fun r => (r.1, destroy r.2 it)
  | _, _ :: _ => none

/-- Steps that are left. -/
def size : Find → Nat
  | call first last =>
      if last - first < 2 * min_per_thread then 2 * (last - first) + 3 else 4 * (last - first) - 10
  | loop first last => 2 * (last - first) + 2
  | compare first last => 2 * (last - first) + 1
  | store _ => 1
  | both _ async_result direct => size async_result + size direct + 2
  | get async_result => size async_result + 1
  | destroy async_result _ => size async_result + 1
  | returned _ => 0

theorem size_call_le {first last : Nat} (hlen : min_per_thread ≤ last - first) :
    (call first last).size ≤ 4 * (last - first) - 10 := by
  have hmin : 25 ≤ last - first := hlen
  by_cases hfew : last - first < 2 * min_per_thread
  · rw [size, if_pos hfew]
    omega
  · rw [size, if_neg hfew]

/-! ## The invariant -/

section Inv

variable (is_match : Nat → Bool)

/-- No element between `a` and `b` matches. -/
def NoMatch (a b : Nat) : Prop := ∀ x, a ≤ x → x < b → is_match x = false

/-- The call is for the range from `a` to `b`. -/
def Inv (done : Bool) (a b : Nat) : Find → Prop
  | call first last => first = a ∧ last = b ∧ a ≤ b
  | loop first last => last = b ∧ a ≤ first ∧ first ≤ b ∧ NoMatch is_match a first
  | compare first last => last = b ∧ a ≤ first ∧ first < b ∧ NoMatch is_match a first
  | store first => a ≤ first ∧ first < b ∧ is_match first = true
  | both mid_point async_result direct =>
      a ≤ mid_point ∧ mid_point ≤ b ∧ Inv done mid_point b async_result ∧
        Inv done a mid_point direct
  | get async_result => ∃ mid_point, a ≤ mid_point ∧ mid_point ≤ b ∧
      Inv done mid_point b async_result ∧ (done = true ∨ NoMatch is_match a mid_point)
  | destroy async_result it => a ≤ it ∧ it < b ∧ is_match it = true ∧
      ∃ mid_point, Inv done mid_point b async_result
  | returned it => (a ≤ it ∧ it < b ∧ is_match it = true) ∨
      (it = b ∧ (done = true ∨ NoMatch is_match a b))

/-- The call will return an element before `b`. -/
def Found (b : Nat) : Find → Prop
  | both mid_point async_result direct => Found b async_result ∨ Found mid_point direct
  | get async_result => Found b async_result
  | destroy _ it => it < b
  | returned it => it < b
  | _ => False

variable {is_match}

theorem NoMatch.append {a b c : Nat} (hab : NoMatch is_match a b) (hbc : NoMatch is_match b c) :
    NoMatch is_match a c := by
  intro x hax hxc
  rcases Nat.lt_or_ge x b with hlt | hge
  · exact hab x hax hlt
  · exact hbc x hge hxc

theorem NoMatch.succ {a b : Nat} (hab : NoMatch is_match a b) (hb : is_match b = false) :
    NoMatch is_match a (b + 1) := by
  refine hab.append fun x hbx hxb => ?_
  obtain rfl : x = b := by omega
  exact hb

/-- Other calls may set `done`. -/
theorem Inv.mono {done done' : Bool} {a b : Nat} {t : Find} (h : t.Inv is_match done a b)
    (hdone : done = true → done' = true) : t.Inv is_match done' a b := by
  induction t generalizing a b with
  | call first last => exact h
  | loop first last => exact h
  | compare first last => exact h
  | store first => exact h
  | both mid_point async_result direct ihasync ihdirect =>
      obtain ⟨ha, hb, hasync, hdirect⟩ := h
      exact ⟨ha, hb, ihasync hasync, ihdirect hdirect⟩
  | get async_result ih =>
      obtain ⟨mid_point, ha, hb, hasync, hnone⟩ := h
      exact ⟨mid_point, ha, hb, ih hasync, hnone.imp_left hdone⟩
  | destroy async_result it ih =>
      obtain ⟨ha, hb, hit, mid_point, hasync⟩ := h
      exact ⟨ha, hb, hit, mid_point, ih hasync⟩
  | returned it => exact h.imp_right fun hend => ⟨hend.1, hend.2.imp_left hdone⟩

/-- What a step does to a call for the range from `a` to `b`, and to `done`. -/
structure Advance (is_match : Nat → Bool) (done done' : Bool) (a b : Nat) (t t' : Find) :
    Prop where
  inv : t'.Inv is_match done' a b
  stays : done = true → done' = true
  found : done' = true → done = true ∨ t'.Found b
  keeps : t.Found b → t'.Found b
  shorter : t'.size < t.size

/-- A step that leaves `done` alone. -/
theorem Advance.of_inv {done : Bool} {a b : Nat} {t t' : Find}
    (hinv : t'.Inv is_match done a b) (hkeeps : t.Found b → t'.Found b)
    (hsize : t'.size < t.size) : Advance is_match done done a b t t' :=
  ⟨hinv, id, Or.inl, hkeeps, hsize⟩

/-- The step of a call itself. -/
theorem next_spec {done done' : Bool} {a b : Nat} {t t' : Find}
    (h : t.Inv is_match done a b) (hnext : t.next is_match done = some (done', t')) :
    Advance is_match done done' a b t t' := by
  unfold next at hnext
  split at hnext
  case h_1 first last =>
    obtain ⟨rfl, rfl⟩ := Prod.mk.inj (Option.some.inj hnext)
    obtain ⟨rfl, rfl, hle⟩ := h
    split
    case isTrue hfew =>
      -- a short range is searched by the call itself
      refine .of_inv ⟨rfl, le_rfl, hle, fun x hx hlt => by omega⟩ id ?_
      rw [size, size, if_pos hfew]
      omega
    case isFalse hmany =>
      have hlen : 50 ≤ last - first := Nat.le_of_not_lt hmany
      refine .of_inv ⟨by omega, by omega, ⟨rfl, rfl, by omega⟩, rfl, rfl, by omega⟩
        False.elim ?_
      have hsecond : (call (first + (last - first) / 2) last).size ≤ _ :=
        size_call_le (by omega)
      have hfirst : (call first (first + (last - first) / 2)).size ≤ _ :=
        size_call_le (by omega)
      have hwhole : (call first last).size = 4 * (last - first) - 10 := if_neg hmany
      rw [hwhole, size]
      omega
  case h_2 first last =>
    obtain ⟨rfl, rfl⟩ := Prod.mk.inj (Option.some.inj hnext)
    obtain ⟨rfl, ha, hb, hnone⟩ := h
    split
    case isTrue hgo =>
      refine .of_inv ⟨rfl, ha, by omega, hnone⟩ id ?_
      simp only [size]
      omega
    case isFalse hstop =>
      -- the loop ends at the end of the range, or because another call has found something
      refine .of_inv (Or.inr ⟨rfl, ?_⟩) False.elim (by simp only [size]; omega)
      rw [not_and_or, not_not, Bool.not_eq_false] at hstop
      rcases hstop with rfl | hdone
      · exact Or.inr hnone
      · exact Or.inl hdone
  case h_3 first last =>
    obtain ⟨rfl, rfl⟩ := Prod.mk.inj (Option.some.inj hnext)
    obtain ⟨rfl, ha, hb, hnone⟩ := h
    split
    case isTrue hmatch =>
      refine .of_inv ⟨ha, hb, hmatch⟩ False.elim ?_
      simp only [size]
      omega
    case isFalse hmatch =>
      refine .of_inv ⟨rfl, by omega, hb, hnone.succ (Bool.not_eq_true _ ▸ hmatch)⟩ id ?_
      simp only [size]
      omega
  case h_4 first =>
    obtain ⟨rfl, rfl⟩ := Prod.mk.inj (Option.some.inj hnext)
    exact ⟨Or.inl h, fun _ => rfl, fun _ => Or.inr h.2.1, False.elim, Nat.one_pos⟩
  case h_5 mid_point async_result it =>
    obtain ⟨rfl, rfl⟩ := Prod.mk.inj (Option.some.inj hnext)
    obtain ⟨ha, hb, hasync, hdirect⟩ := h
    split
    case isTrue heq =>
      -- the first half has returned its end, so the result is that of the second half
      subst heq
      refine .of_inv ⟨it, ha, hb, hasync, ?_⟩ ?_ (by simp only [size]; omega)
      · rcases hdirect with hfound | hend
        · omega
        · exact hend.2
      · rintro (hfound | hfound)
        · exact hfound
        · exact absurd hfound (Nat.lt_irrefl it)
    case isFalse hne =>
      rcases hdirect with ⟨hit, hlt, hmatch⟩ | hend
      · refine .of_inv ⟨hit, by omega, hmatch, mid_point, hasync⟩
          (fun _ => ?_) (by simp only [size]; omega)
        exact Nat.lt_of_lt_of_le hlt hb
      · exact absurd hend.1 hne
  case h_6 it =>
    obtain ⟨rfl, rfl⟩ := Prod.mk.inj (Option.some.inj hnext)
    obtain ⟨mid_point, ha, hb, hasync, hnone⟩ := h
    -- nothing in the first half either, unless `done` was set
    refine .of_inv ?_ id (by simp only [size]; omega)
    rcases hasync with ⟨hit, hlt, hmatch⟩ | ⟨rfl, hend⟩
    · exact Or.inl ⟨by omega, hlt, hmatch⟩
    · refine Or.inr ⟨rfl, ?_⟩
      rcases hnone with hd | hnone
      · exact Or.inl hd
      · exact hend.imp_right hnone.append
  case h_7 it' it =>
    obtain ⟨rfl, rfl⟩ := Prod.mk.inj (Option.some.inj hnext)
    obtain ⟨ha, hb, hmatch, -⟩ := h
    exact .of_inv (Or.inl ⟨ha, hb, hmatch⟩) (fun _ => hb) (Nat.succ_pos _)
  case h_8 first last it =>
    -- the task has been deferred
    obtain ⟨rfl, rfl⟩ := Prod.mk.inj (Option.some.inj hnext)
    obtain ⟨ha, hb, hmatch, -⟩ := h
    exact .of_inv (Or.inl ⟨ha, hb, hmatch⟩) (fun _ => hb) (Nat.succ_pos _)
  case h_9 => cases hnext

theorem step_spec {done done' : Bool} {a b : Nat} {t t' : Find} {path : List Side}
    (h : t.Inv is_match done a b) (hstep : t.step is_match done path = some (done', t')) :
    Advance is_match done done' a b t t' := by
  induction path generalizing t a b t' with
  | nil =>
      refine next_spec h ?_
      rwa [step] at hstep
  | cons side path ih =>
      unfold step at hstep
      split at hstep
      case h_1 => contradiction
      case h_2 mid_point async_result direct path heq =>
        -- a step in the second half may set `done`, which the first half does not mind
        obtain ⟨-, rfl⟩ := List.cons.inj heq
        obtain ⟨ha, hb, hasync, hdirect⟩ := h
        obtain ⟨⟨done₁, t₁⟩, hsub, heq⟩ := Option.map_eq_some_iff.mp hstep
        obtain ⟨rfl, rfl⟩ := Prod.mk.inj heq
        obtain ⟨hinv, hstays, hfound, hkeeps, hsize⟩ := ih hasync hsub
        refine ⟨⟨ha, hb, hinv, hdirect.mono hstays⟩, hstays, ?_, ?_, ?_⟩
        · exact fun hd => (hfound hd).imp_right Or.inl
        · exact fun hf => hf.imp_left hkeeps
        · simp only [size]
          omega
      case h_3 mid_point async_result direct path heq =>
        obtain ⟨-, rfl⟩ := List.cons.inj heq
        obtain ⟨ha, hb, hasync, hdirect⟩ := h
        obtain ⟨⟨done₁, t₁⟩, hsub, heq⟩ := Option.map_eq_some_iff.mp hstep
        obtain ⟨rfl, rfl⟩ := Prod.mk.inj heq
        obtain ⟨hinv, hstays, hfound, hkeeps, hsize⟩ := ih hdirect hsub
        refine ⟨⟨ha, hb, hasync.mono hstays, hinv⟩, hstays, ?_, ?_, ?_⟩
        · exact fun hd => (hfound hd).imp_right Or.inr
        · exact fun hf => hf.imp_right hkeeps
        · simp only [size]
          omega
      case h_4 async_result path heq =>
        obtain ⟨-, rfl⟩ := List.cons.inj heq
        obtain ⟨mid_point, ha, hb, hasync, hnone⟩ := h
        obtain ⟨⟨done₁, t₁⟩, hsub, heq⟩ := Option.map_eq_some_iff.mp hstep
        obtain ⟨rfl, rfl⟩ := Prod.mk.inj heq
        obtain ⟨hinv, hstays, hfound, hkeeps, hsize⟩ := ih hasync hsub
        refine ⟨⟨mid_point, ha, hb, hinv, hnone.imp_left hstays⟩, hstays, hfound, hkeeps, ?_⟩
        simp only [size]
        omega
      case h_5 async_result it path heq =>
        obtain ⟨-, rfl⟩ := List.cons.inj heq
        obtain ⟨ha, hb, hmatch, mid_point, hasync⟩ := h
        obtain ⟨⟨done₁, t₁⟩, hsub, heq⟩ := Option.map_eq_some_iff.mp hstep
        obtain ⟨rfl, rfl⟩ := Prod.mk.inj heq
        obtain ⟨hinv, hstays, -, -, hsize⟩ := ih hasync hsub
        refine ⟨⟨ha, hb, hmatch, mid_point, hinv⟩, hstays, fun _ => Or.inr hb, fun _ => hb, ?_⟩
        simp only [size]
        omega
      case h_6 => cases hstep

end Inv

/-- A call that has not returned can take a step, or one under it can. -/
theorem exists_step (is_match : Nat → Bool) (done : Bool) (t : Find) :
    (∃ it, t = returned it) ∨ ∃ path r, t.step is_match done path = some r := by
  induction t with
  | call first last => exact Or.inr ⟨[], _, rfl⟩
  | loop first last => exact Or.inr ⟨[], _, rfl⟩
  | compare first last => exact Or.inr ⟨[], _, rfl⟩
  | store first => exact Or.inr ⟨[], _, rfl⟩
  | both mid_point async_result direct ihasync ihdirect =>
      rcases ihdirect with ⟨it, rfl⟩ | ⟨path, r, hstep⟩
      · exact Or.inr ⟨[], _, rfl⟩
      · exact Or.inr ⟨.direct :: path, _, by rw [step, hstep]; rfl⟩
  | get async_result ih =>
      rcases ih with ⟨it, rfl⟩ | ⟨path, r, hstep⟩
      · exact Or.inr ⟨[], _, rfl⟩
      · exact Or.inr ⟨.async :: path, _, by rw [step, hstep]; rfl⟩
  | destroy async_result it ih =>
      rcases ih with ⟨it', rfl⟩ | ⟨path, r, hstep⟩
      · exact Or.inr ⟨[], _, rfl⟩
      · exact Or.inr ⟨.async :: path, _, by rw [step, hstep]; rfl⟩
  | returned it => exact Or.inl ⟨it, rfl⟩

end Find

/-! ## Runs -/

/-- `done`, and the first call. -/
def lts (is_match : Nat → Bool) (first last : Nat) : Lts (Bool × Find) (List Side) where
  init := (false, .call first last)
  step := fun s path => s.2.step is_match s.1 path

/-- What a run keeps: `done` is set only when something has been found. -/
structure Good (is_match : Nat → Bool) (first last : Nat) (s : Bool × Find) : Prop where
  inv : s.2.Inv is_match s.1 first last
  found : s.1 = true → s.2.Found last

variable {is_match : Nat → Bool} {first last : Nat} {s : Bool × Find}

theorem good_run (hle : first ≤ last) {as : List (List Side)}
    (hrun : (lts is_match first last).exec (false, .call first last) as = some s) :
    Good is_match first last s := by
  have hstart : Good is_match first last (false, .call first last) :=
    ⟨⟨rfl, rfl, hle⟩, fun hd => by cases hd⟩
  refine (lts is_match first last).exec_inv ?_ hstart hrun
  rintro ⟨done, t⟩ path ⟨done', t'⟩ ⟨hinv, hfound⟩ hstep
  obtain ⟨hinv', -, hfound', hkeeps, -⟩ := Find.step_spec hinv hstep
  refine ⟨hinv', fun hd => ?_⟩
  rcases hfound' hd with hd | hf
  · exact hkeeps (hfound hd)
  · exact hf

/-- A run comes to its end. -/
theorem length_le (hle : first ≤ last) {as : List (List Side)}
    (hrun : (lts is_match first last).exec (false, .call first last) as = some s) :
    as.length ≤ (Find.call first last).size := by
  have hstart : (Find.call first last).Inv is_match false first last := ⟨rfl, rfl, hle⟩
  have hlen := (lts is_match first last).length_le_of_inv
    (P := fun u => u.2.Inv is_match u.1 first last) (fun u => u.2.size) ?_ hstart hrun
  · exact Nat.le_trans (Nat.le_add_right _ _) hlen
  · rintro u path ⟨done, t⟩ hu hstep
    obtain ⟨hinv, -, -, -, hsize⟩ := Find.step_spec hu hstep
    exact ⟨hinv, hsize⟩

/-- What the first call returns matches, or is the end of the range, and then nothing
matches. -/
theorem returned_spec (h : Good is_match first last s) {it : Nat} (hit : s.2 = .returned it) :
    (first ≤ it ∧ it < last ∧ is_match it = true) ∨
      (it = last ∧ Find.NoMatch is_match first last) := by
  have hinv := h.inv
  rw [hit] at hinv
  rcases hinv with hfound | ⟨rfl, hd | hnone⟩
  · exact Or.inl hfound
  · have hfound := h.found hd
    rw [hit] at hfound
    exact absurd hfound (Nat.lt_irrefl it)
  · exact Or.inr ⟨rfl, hnone⟩

end BoostNet.ParallelFindAsync
