/-
The lifetimes of the elements in the four rings of Concurrent/day12-circularque.

A slot is raw or constructed; `allocate` gives raw slots. `slots` replays what a queue has done
to its slots: a construction needs a raw slot, an assignment, a move or a destruction a
constructed one. `Balanced` is a replay that goes through and leaves every slot raw.

`CircularQueLk` and `CircularQueSeq` are those of `CircularQue`. `CircularQueLight` and
`CircularQueSync` are modelled here by their calls one after another; how their steps interleave
is the subject of `CircularQueLight`, which has no lifetimes.

* `lifetimes_balance_iff`: for the locked rings the lifetimes balance if and only if no `pop`
  takes an element, which it moves from and never destroys; for the others if and only if no
  `push` finds room, since it assigns to a slot that nobody constructs.
-/
import BoostNet.CircularQue
import BoostNet.Loop

set_option autoImplicit false

namespace BoostNet.CircularQue

open BoostNet.Ring

/-! ## Replay -/

/-- The slots: which of them are constructed. -/
def slots : Lts (Nat → Bool) Lifetime where
  init := fun _ => false
  step := fun live e =>
    match e with
    | .construct i => if live i then none else some (Function.update live i true)
    | .use i => if live i then some live else none
    | .destroy i => if live i then some (Function.update live i false) else none

/-- Every step is allowed, and every construction is matched by a destruction. -/
def Balanced (events : List Lifetime) : Prop :=
  ∃ live, slots.exec slots.init events = some live ∧ ∀ i, live i = false

/-- What has happened stays in the replay. -/
theorem slots_snoc {events : List Lifetime} {e : Lifetime} {live : Nat → Bool} :
    slots.exec slots.init (events ++ [e]) = some live ↔
      ∃ before, slots.exec slots.init events = some before ∧ slots.step before e = some live := by
  rw [slots.exec_append_some]
  refine exists_congr fun before => and_congr_right fun _ => ?_
  rw [slots.exec_cons_some]
  exact ⟨fun ⟨t, ht, h⟩ => ht.trans h, fun h => ⟨live, h, rfl⟩⟩

/-- Only its destructor ends the lifetime of an element. -/
theorem slots_step_keep {e : Lifetime} {live after : Nat → Bool} {i : Nat}
    (hlive : live i = true) (hkeep : e ≠ .destroy i) (hstep : slots.step live e = some after) :
    after i = true := by
  cases e with
  | construct j =>
      simp only [slots] at hstep
      split at hstep
      case isTrue => cases hstep
      case isFalse =>
        obtain rfl := Option.some.inj hstep
        by_cases hij : i = j
        · rw [hij, Function.update_self]
        · rwa [Function.update_of_ne hij]
  | use j =>
      simp only [slots] at hstep
      split at hstep
      case isTrue => exact Option.some.inj hstep ▸ hlive
      case isFalse => cases hstep
  | destroy j =>
      have hij : i ≠ j := fun hij => hkeep (hij ▸ rfl)
      simp only [slots] at hstep
      split at hstep
      case isTrue =>
        obtain rfl := Option.some.inj hstep
        rwa [Function.update_of_ne hij]
      case isFalse => cases hstep

/-- A slot that is not destroyed stays constructed. -/
theorem slots_keep {events : List Lifetime} {live after : Nat → Bool} {i : Nat}
    (hlive : live i = true) (hkeep : ∀ e ∈ events, e ≠ .destroy i)
    (hrun : slots.exec live events = some after) : after i = true :=
  slots.exec_inv_of_always (P := fun live => live i = true) (G := fun _ e => e ≠ .destroy i)
    (fun _ _ _ => slots_step_keep) hlive (slots.always_of_forall (fun e he _ => hkeep e he) live)
    hrun

/-! ## The destructor -/

/-- `_head != _tail` -/
def not_empty (tail : Nat) (s : Nat × List Lifetime) : Option Bool := some (decide (s.1 ≠ tail))

/-- One pass: the element at `_head` is destroyed, and `_head` goes on. -/
def destroy_head (Cap : Nat) (s : Nat × List Lifetime) : Option (Nat × List Lifetime) :=
  some (next (max_size Cap) s.1, s.2 ++ [.destroy s.1])

/-- The loop of the four destructors. -/
def destroy_all (Cap fuel head tail : Nat) (events : List Lifetime) : Option (List Lifetime) :=
  (while_do (not_empty tail) (destroy_head Cap) fuel (head, events)).map Prod.snd

/-- What the destructor of a ring with `m` stored elements does. -/
def destructions (n h m : Nat) : List Lifetime :=
  (List.range m).map fun k => Lifetime.destroy (place n h k)

theorem destructions_succ {n h : Nat} (hh : h < n) (m : Nat) :
    destructions n h (m + 1) = .destroy h :: destructions n (next n h) m := by
  rw [destructions, List.range_succ_eq_map, List.map_cons, place_zero hh, List.map_map]
  congr 1
  exact List.map_congr_left fun k _ => congrArg Lifetime.destroy place_next.symm

/-- The destructor of the queue goes round the ring from the head to the tail. -/
theorem destroy_all_eq {Cap fuel h t m : Nat} (hs : Spans (max_size Cap) h t m)
    (hfuel : m < fuel) (events : List Lifetime) :
    destroy_all Cap fuel h t events = some (events ++ destructions (max_size Cap) h m) := by
  induction m generalizing fuel h events with
  | zero =>
      obtain ⟨fuel, rfl⟩ : ∃ f, fuel = f + 1 := ⟨fuel - 1, by omega⟩
      have hexit : not_empty t (h, events) = some false := by simp [not_empty, hs.empty_iff]
      rw [destroy_all, while_do_exit hexit, Option.map_some, destructions, List.range_zero,
        List.map_nil, List.append_nil]
  | succ m ih =>
      obtain ⟨fuel, rfl⟩ : ∃ f, fuel = f + 1 := ⟨fuel - 1, by omega⟩
      have hpass : not_empty t (h, events) = some true := by simp [not_empty, hs.empty_iff]
      have hrest := ih hs.pop (Nat.lt_of_succ_lt_succ hfuel) (events ++ [.destroy h])
      have hbody : destroy_head Cap (h, events) =
          some (next (max_size Cap) h, events ++ [.destroy h]) := rfl
      rw [destroy_all] at hrest ⊢
      rw [while_do_pass hpass hbody, hrest, destructions_succ hs.head_lt, List.append_assoc,
        List.singleton_append]

/-- The constructed slots are the `m` slots from `h` on. -/
def Live (n h m : Nat) (live : Nat → Bool) : Prop :=
  ∀ i, live i = true ↔ ∃ k < m, i = place n h k

theorem Live.front {n h m : Nat} {live : Nat → Bool} (hlive : Live n h (m + 1) live)
    (hh : h < n) : live h = true :=
  (hlive h).mpr ⟨0, Nat.succ_pos m, (place_zero hh).symm⟩

/-- A push constructs an element in a slot that has none. -/
theorem Live.push {n h t m : Nat} {live : Nat → Bool} (hlive : Live n h m live)
    (hs : Spans n h t m) : live t = false ∧ Live n h (m + 1) (Function.update live t true) := by
  constructor
  · rw [← Bool.not_eq_true, hlive t]
    rintro ⟨k, hk, heq⟩
    exact hs.place_ne_tail hk heq.symm
  · intro i
    by_cases hi : i = t
    · rw [hi, Function.update_self]
      exact iff_of_true rfl ⟨m, Nat.lt_succ_self m, hs.tail_eq⟩
    · rw [Function.update_of_ne hi, hlive i]
      constructor
      · rintro ⟨k, hk, heq⟩
        exact ⟨k, Nat.lt_succ_of_lt hk, heq⟩
      · rintro ⟨k, hk, heq⟩
        have hne : k ≠ m := fun hkm => hi (heq.trans (hkm ▸ hs.tail_eq.symm))
        exact ⟨k, by omega, heq⟩

/-- A pop that destroys takes the first one away. -/
theorem Live.destroy {n h m : Nat} {live : Nat → Bool} (hlive : Live n h (m + 1) live)
    (hh : h < n) (hm : m + 1 < n) : Live n (next n h) m (Function.update live h false) := by
  intro i
  by_cases hi : i = h
  · rw [hi, Function.update_self]
    refine iff_of_false Bool.false_ne_true ?_
    rintro ⟨k, hk, heq⟩
    rw [place_next] at heq
    exact place_ne_self hh (Nat.succ_pos k) (by omega) heq.symm
  · rw [Function.update_of_ne hi, hlive i]
    constructor
    · rintro ⟨k, hk, heq⟩
      cases k with
      | zero => exact absurd (heq.trans (place_zero hh)) hi
      | succ k => exact ⟨k, Nat.lt_of_succ_lt_succ hk, heq.trans place_next.symm⟩
    · rintro ⟨k, hk, heq⟩
      exact ⟨k + 1, Nat.succ_lt_succ hk, heq.trans place_next⟩

/-- The destructor makes the stored slots raw. -/
theorem Live.destructions {n h t m : Nat} {live : Nat → Bool} (hlive : Live n h m live)
    (hs : Spans n h t m) :
    ∃ after, slots.exec live (destructions n h m) = some after ∧ ∀ i, after i = false := by
  induction m generalizing h live with
  | zero =>
      refine ⟨live, rfl, fun i => ?_⟩
      rw [← Bool.not_eq_true, hlive i]
      rintro ⟨k, hk, -⟩
      exact Nat.not_lt_zero k hk
  | succ m ih =>
      obtain ⟨after, hrun, hraw⟩ := ih (hlive.destroy hs.head_lt hs.length_lt) hs.pop
      refine ⟨after, ?_, hraw⟩
      rw [destructions_succ hs.head_lt, slots.exec_cons_some]
      exact ⟨_, if_pos (hlive.front hs.head_lt), hrun⟩

/-! ## The locked rings -/

section Locked

variable {Args T ε : Type*} {g : Guard} {E : Element Args T ε} {Cap : Nat} {s t : Que T}

/-- A `pop` finds no element, or throws while it assigns the first one. -/
def LeavesElement (E : Element Args T ε) (s : Que T) : Call Args T → Prop
  | .pop val =>
      s.head = s.tail ∨ ∃ x e, s.data s.head = some x ∧ (E.move_assign val x).1 = some e
  | _ => True

/-- What a call can do to the indices and the slots. -/
inductive Change (E : Element Args T ε) (n : Nat) (s : Que T) (c : Call Args T) (t : Que T) : Prop
  | nothing (leaves : LeavesElement E s c) (events : t.events = s.events) (head : t.head = s.head)
      (tail : t.tail = s.tail)
  | pushes (leaves : LeavesElement E s c) (room : next n s.tail ≠ s.head)
      (events : t.events = s.events ++ [.construct s.tail]) (head : t.head = s.head)
      (tail : t.tail = next n s.tail)
  | throws (leaves : LeavesElement E s c) (stored : s.head ≠ s.tail)
      (events : t.events = s.events ++ [.use s.head]) (head : t.head = s.head)
      (tail : t.tail = s.tail)
  | takes (takes : ¬ LeavesElement E s c) (stored : s.head ≠ s.tail)
      (events : t.events = s.events ++ [.use s.head]) (head : t.head = next n s.head)
      (tail : t.tail = s.tail)

/-- What `emplace` and `push` do to the slots and to the record of lifetimes. -/
theorem emplace_change {args : Args} {c : Call Args T} (hc : LeavesElement E s c)
    {a : Answer T ε} (h : emplace g E Cap s args = some (t, a)) :
    Change E (max_size Cap) s c t := by
  unfold emplace at h
  split at h
  case isTrue => cases h
  case isFalse =>
    split at h
    case isTrue =>
      cases h
      exact .nothing hc rfl rfl rfl
    case isFalse hroom =>
      cases hmake : E.construct args with
      | error e =>
          rw [hmake] at h
          cases h
          exact .nothing hc rfl rfl rfl
      | ok v =>
          rw [hmake] at h
          cases h
          exact .pushes hc hroom rfl rfl rfl

/-- What `pop` does to them. -/
theorem pop_change {val : T} {a : Answer T ε} (h : pop g E Cap s val = some (t, a)) :
    Change E (max_size Cap) s (.pop val) t := by
  unfold pop at h
  split at h
  case isTrue => cases h
  case isFalse =>
    split at h
    case isTrue hempty =>
      cases h
      exact .nothing (.inl hempty) rfl rfl rfl
    case isFalse hne =>
      obtain ⟨x, hx, hr⟩ := Option.map_eq_some_iff.mp h
      cases hthrow : (E.move_assign val x).1 with
      | some e =>
          simp only [hthrow] at hr
          cases hr
          exact .throws (.inr ⟨x, e, hx, hthrow⟩) hne rfl rfl rfl
      | none =>
          simp only [hthrow] at hr
          cases hr
          refine .takes ?_ hne rfl rfl rfl
          rintro (hempty | ⟨y, e, hy, hyes⟩)
          · exact hne hempty
          · obtain rfl := Option.some.inj (hx.symm.trans hy)
            rw [hthrow] at hyes
            cases hyes

/-- So each call is one of these changes. -/
theorem step_change {c : Call Args T} (h : (que g E Cap).step s c = some t) :
    Change E (max_size Cap) s c t := by
  obtain ⟨⟨u, a⟩, hcall, rfl⟩ := Option.map_eq_some_iff.mp h
  cases c with
  | emplace args => exact emplace_change trivial hcall
  | push val => exact emplace_change trivial hcall
  | push_move val => exact emplace_change trivial hcall
  | pop val => exact pop_change hcall

/-- Exactly the stored elements are constructed. -/
def Sound (Cap : Nat) (s : Que T) : Prop :=
  ∃ m, Spans (max_size Cap) s.head s.tail m ∧
    ∃ live, slots.exec slots.init s.events = some live ∧ Live (max_size Cap) s.head m live

/-- Something was not allowed, or an element is constructed that is not among the `m` stored. -/
def Leaks (n h m : Nat) (events : List Lifetime) : Prop :=
  ∀ live, slots.exec slots.init events = some live →
    ∃ i, live i = true ∧ ∀ k < m, i ≠ place n h k

def Leaky (Cap : Nat) (s : Que T) : Prop :=
  ∃ m, Spans (max_size Cap) s.head s.tail m ∧ Leaks (max_size Cap) s.head m s.events

section Leaks

variable {n h m : Nat} {events : List Lifetime}

/-- A lifetime that is lost stays lost, whatever is done afterwards. -/
theorem Leaks.snoc (hleak : Leaks n h m events) {e : Lifetime} (he : ∀ i, e ≠ .destroy i) :
    Leaks n h m (events ++ [e]) := by
  intro after hafter
  obtain ⟨before, hbefore, hstep⟩ := slots_snoc.mp hafter
  obtain ⟨i, hi, hout⟩ := hleak before hbefore
  exact ⟨i, slots_step_keep hi (he i) hstep, hout⟩

/-- A leaked slot cannot be constructed again. -/
theorem Leaks.push {tail : Nat} (hleak : Leaks n h m events) (hs : Spans n h tail m) :
    Leaks n h (m + 1) (events ++ [.construct tail]) := by
  intro after hafter
  obtain ⟨before, hbefore, hstep⟩ := slots_snoc.mp hafter
  obtain ⟨i, hi, hout⟩ := hleak before hbefore
  have hne : i ≠ tail := by
    rintro rfl
    simp only [slots, hi, if_true] at hstep
    cases hstep
  refine ⟨i, slots_step_keep hi Lifetime.noConfusion hstep, fun k hk => ?_⟩
  rcases Nat.lt_or_eq_of_le (Nat.le_of_lt_succ hk) with hlt | rfl
  · exact hout k hlt
  · exact fun heq => hne (heq.trans hs.tail_eq.symm)

/-- A `pop` that does not destroy loses one more. -/
theorem Leaks.pop (hleak : Leaks n h (m + 1) events) : Leaks n (next n h) m events := by
  intro live hlive
  obtain ⟨i, hi, hout⟩ := hleak live hlive
  refine ⟨i, hi, fun k hk => ?_⟩
  rw [place_next]
  exact hout (k + 1) (Nat.succ_lt_succ hk)

end Leaks

/-- The empty queue has no elements. -/
theorem Sound.init : Sound Cap ({} : Que T) := by
  refine ⟨0, Spans.init (Nat.succ_pos Cap), _, rfl, fun i => ?_⟩
  refine iff_of_false Bool.false_ne_true ?_
  rintro ⟨k, hk, -⟩
  exact Nat.not_lt_zero k hk

/-- A step that leaves the elements in keeps exactly the stored ones constructed. -/
theorem Sound.step {c : Call Args T} (hs : Sound Cap s) (hleaves : LeavesElement E s c)
    (h : (que g E Cap).step s c = some t) : Sound Cap t := by
  obtain ⟨m, hspans, live, hrun, hlive⟩ := hs
  cases step_change h with
  | nothing _ hev hh ht =>
      rw [Sound, hev, hh, ht]
      exact ⟨m, hspans, live, hrun, hlive⟩
  | pushes _ hroom hev hh ht =>
      obtain ⟨hraw, hafter⟩ := hlive.push hspans
      rw [Sound, hev, hh, ht]
      refine ⟨m + 1, hspans.push hroom, _, slots_snoc.mpr ⟨live, hrun, ?_⟩, hafter⟩
      simp only [slots, hraw, Bool.false_eq_true, if_false]
  | throws _ hne hev hh ht =>
      obtain ⟨k, rfl⟩ := hspans.stored hne
      rw [Sound, hev, hh, ht]
      refine ⟨k + 1, hspans, live, slots_snoc.mpr ⟨live, hrun, ?_⟩, hlive⟩
      exact if_pos (hlive.front hspans.head_lt)
  | takes htakes => exact absurd hleaves htakes

/-- An element that is taken stays constructed, outside the stored ones. -/
theorem Sound.leaks {c : Call Args T} (hs : Sound Cap s) (htakes : ¬ LeavesElement E s c)
    (h : (que g E Cap).step s c = some t) : Leaky Cap t := by
  obtain ⟨m, hspans, live, hrun, hlive⟩ := hs
  cases step_change h with
  | nothing hleaves => exact absurd hleaves htakes
  | pushes hleaves => exact absurd hleaves htakes
  | throws hleaves => exact absurd hleaves htakes
  | takes _ hne hev hh ht =>
      obtain ⟨k, rfl⟩ := hspans.stored hne
      rw [Leaky, hev, hh, ht]
      refine ⟨k, hspans.pop, fun after hafter => ⟨s.head, ?_, fun j hj heq => ?_⟩⟩
      · obtain ⟨before, hbefore, hstep⟩ := slots_snoc.mp hafter
        obtain rfl := Option.some.inj (hrun.symm.trans hbefore)
        exact slots_step_keep (hlive.front hspans.head_lt) Lifetime.noConfusion hstep
      · rw [place_next] at heq
        have hlt := hspans.length_lt
        exact place_ne_self hspans.head_lt (Nat.succ_pos j) (by omega) heq.symm

/-- What has leaked stays leaked. -/
theorem Leaky.step {c : Call Args T} (hs : Leaky Cap s) (h : (que g E Cap).step s c = some t) :
    Leaky Cap t := by
  obtain ⟨m, hspans, hleak⟩ := hs
  cases step_change h with
  | nothing _ hev hh ht =>
      rw [Leaky, hev, hh, ht]
      exact ⟨m, hspans, hleak⟩
  | pushes _ hroom hev hh ht =>
      rw [Leaky, hev, hh, ht]
      exact ⟨m + 1, hspans.push hroom, hleak.push hspans⟩
  | throws _ _ hev hh ht =>
      rw [Leaky, hev, hh, ht]
      exact ⟨m, hspans, hleak.snoc fun _ => Lifetime.noConfusion⟩
  | takes _ hne hev hh ht =>
      obtain ⟨k, rfl⟩ := hspans.stored hne
      rw [Leaky, hev, hh, ht]
      exact ⟨k, hspans.pop, hleak.pop.snoc fun _ => Lifetime.noConfusion⟩

/-- The members and what has been done to the slots, to the end of the destructor. -/
def destroyed (Cap fuel : Nat) (s : Que T) : Option (List Lifetime) :=
  destroy_all Cap fuel s.head s.tail s.events

/-- From a sound state the destructor ends exactly the lifetimes that are left. -/
theorem Sound.balanced {fuel : Nat} (hs : Sound Cap s) (hfuel : max_size Cap ≤ fuel) :
    ∃ events, destroyed Cap fuel s = some events ∧ Balanced events := by
  obtain ⟨m, hspans, live, hrun, hlive⟩ := hs
  obtain ⟨after, hlast, hraw⟩ := hlive.destructions hspans
  refine ⟨_, destroy_all_eq hspans (Nat.lt_of_lt_of_le hspans.length_lt hfuel) s.events, after, ?_,
    hraw⟩
  exact slots.exec_append_some.mpr ⟨live, hrun, hlast⟩

/-- From a leaky one it cannot: nobody destroys the lost elements. -/
theorem Leaky.not_balanced {fuel : Nat} (hs : Leaky Cap s) (hfuel : max_size Cap ≤ fuel)
    {events : List Lifetime} (h : destroyed Cap fuel s = some events) : ¬ Balanced events := by
  rintro ⟨after, hrun, hraw⟩
  obtain ⟨m, hspans, hleak⟩ := hs
  rw [destroyed, destroy_all_eq hspans (Nat.lt_of_lt_of_le hspans.length_lt hfuel)] at h
  obtain rfl := Option.some.inj h
  obtain ⟨live, hlive, hlast⟩ := slots.exec_append_some.mp hrun
  obtain ⟨i, hi, hout⟩ := hleak live hlive
  have hkept : after i = true := by
    refine slots_keep hi ?_ hlast
    rintro e he rfl
    obtain ⟨k, hk, heq⟩ := List.mem_map.mp he
    exact hout k (List.mem_range.mp hk) (Lifetime.destroy.inj heq).symm
  exact Bool.false_ne_true ((hraw i).symm.trans hkept)

/-- The lifetimes in a locked ring balance if and only if no `pop` takes an element. -/
theorem locked_balance_iff {calls : List (Call Args T)} {fuel : Nat}
    (hrun : (que g E Cap).exec {} calls = some s) (hfuel : max_size Cap ≤ fuel) :
    (∃ events, destroyed Cap fuel s = some events ∧ Balanced events) ↔
      (que g E Cap).Always (LeavesElement E) {} calls := by
  constructor
  · rintro ⟨events, hend, hbalanced⟩
    exact (que g E Cap).always_of_trap (fun _ _ _ hs hleaves => hs.step hleaves)
      (fun _ _ _ hs htakes => hs.leaks htakes) (fun _ _ _ hs => hs.step) Sound.init hrun
      fun hleaky => hleaky.not_balanced hfuel hend hbalanced
  · intro hleaves
    have hsound : Sound Cap s :=
      (que g E Cap).exec_inv_of_always (fun _ _ _ hs hleaves => hs.step hleaves) Sound.init
        hleaves hrun
    exact hsound.balanced hfuel

end Locked

/-! ## The lock-free rings -/

namespace Light

variable {T ε : Type*}

/-- `x = val`: the exception, if any, and what `x` is afterwards. An `x` that is `none` is raw. -/
structure Assign (T ε : Type*) where
  assign : Option T → T → Option ε × T

/-- `CircularQueLight` or `CircularQueSync`. -/
structure Que (T : Type*) where
  data : Nat → Option T := fun _ => none
  head : Nat := 0
  tail : Nat := 0
  tail_update : Nat := 0
  events : List Lifetime := []

inductive Call (T : Type*) where
  | push (val : T)
  | pop (val : T)

section Calls

variable (A : Assign T ε) (Cap : Nat) (s : Que T)

/-- Called alone, the first CAS succeeds; the second one succeeds or is tried for ever. -/
def push (val : T) : Option (Que T × Answer T ε) :=
  let t := s.tail
  if next (max_size Cap) t = s.head then some (s, ⟨.ok false, none⟩)
  else
    let r := A.assign (s.data t) val
    let s := { s with
      tail := next (max_size Cap) t
      data := Function.update s.data t (some r.2)
      events := s.events ++ [Lifetime.use t] }
    match r.1 with
    | some e => some (s, ⟨.error e, none⟩)
    | none =>
        if s.tail_update = t then
          some ({ s with tail_update := next (max_size Cap) t }, ⟨.ok true, none⟩)
        else none

def pop (val : T) : Option (Que T × Answer T ε) :=
  let h := s.head
  if h = s.tail then some (s, ⟨.ok false, some val⟩)
  else if h = s.tail_update then some (s, ⟨.ok false, some val⟩)
  else
    (s.data h).map fun x =>
      let r := A.assign (some val) x
      let s := { s with events := s.events ++ [Lifetime.use h] }
      match r.1 with
      | some e => (s, ⟨.error e, some r.2⟩)
      | none => ({ s with head := next (max_size Cap) h }, ⟨.ok true, some r.2⟩)

def call : Call T → Option (Que T × Answer T ε)
  | .push val => push A Cap s val
  | .pop val => pop A Cap s val

end Calls

def que (A : Assign T ε) (Cap : Nat) : Lts (Que T) (Call T) where
  init := {}
  step := fun s c => (call A Cap s c).map Prod.fst

/-- A `push` finds no room. -/
def FindsFull (Cap : Nat) (s : Que T) : Call T → Prop
  | .push _ => next (max_size Cap) s.tail = s.head
  | .pop _ => True

def destroyed (Cap fuel : Nat) (s : Que T) : Option (List Lifetime) :=
  destroy_all Cap fuel s.head s.tail s.events

section Balance

variable {A : Assign T ε} {Cap : Nat} {s t : Que T}

/-- What a call can do to the indices and the slots. -/
inductive Change (Cap : Nat) (s : Que T) (c : Call T) (t : Que T) : Prop
  | nothing (full : FindsFull Cap s c) (events : t.events = s.events) (head : t.head = s.head)
      (tail : t.tail = s.tail)
  | pushes (takes : ¬ FindsFull Cap s c) (room : next (max_size Cap) s.tail ≠ s.head)
      (events : t.events = s.events ++ [.use s.tail]) (head : t.head = s.head)
      (tail : t.tail = next (max_size Cap) s.tail)
  | reads (stored : s.head ≠ s.tail) (events : t.events = s.events ++ [.use s.head])
      (head : t.head = s.head ∨ t.head = next (max_size Cap) s.head) (tail : t.tail = s.tail)

theorem push_change {val : T} {a : Answer T ε} (h : push A Cap s val = some (t, a)) :
    Change Cap s (.push val) t := by
  unfold push at h
  dsimp only at h
  split at h
  case isTrue hfull =>
    cases h
    exact .nothing hfull rfl rfl rfl
  case isFalse hroom =>
    split at h
    case h_1 =>
      cases h
      exact .pushes hroom hroom rfl rfl rfl
    case h_2 =>
      split at h
      case isTrue =>
        cases h
        exact .pushes hroom hroom rfl rfl rfl
      case isFalse => cases h

theorem pop_change {val : T} {a : Answer T ε} (h : pop A Cap s val = some (t, a)) :
    Change Cap s (.pop val) t := by
  unfold pop at h
  dsimp only at h
  split at h
  case isTrue =>
    cases h
    exact .nothing trivial rfl rfl rfl
  case isFalse hne =>
    split at h
    case isTrue =>
      cases h
      exact .nothing trivial rfl rfl rfl
    case isFalse =>
      obtain ⟨x, -, hr⟩ := Option.map_eq_some_iff.mp h
      split at hr
      case h_1 =>
        cases hr
        exact .reads hne rfl (.inl rfl) rfl
      case h_2 =>
        cases hr
        exact .reads hne rfl (.inr rfl) rfl

theorem step_change {c : Call T} (h : (que A Cap).step s c = some t) : Change Cap s c t := by
  obtain ⟨⟨u, a⟩, hcall, rfl⟩ := Option.map_eq_some_iff.mp h
  cases c with
  | push val => exact push_change hcall
  | pop val => exact pop_change hcall

/-- Nothing is stored, and nothing has been. -/
structure Unused (Cap : Nat) (s : Que T) : Prop where
  spans : Spans (max_size Cap) s.head s.tail 0
  events : s.events = []

/-- Something was not allowed. -/
structure Broken (Cap : Nat) (s : Que T) : Prop where
  spans : ∃ m, Spans (max_size Cap) s.head s.tail m
  events : slots.exec slots.init s.events = none

/-- A ring whose first push found it full stays unused. -/
theorem Unused.step {c : Call T} (hs : Unused Cap s) (hfull : FindsFull Cap s c)
    (h : (que A Cap).step s c = some t) : Unused Cap t := by
  cases step_change h with
  | nothing _ hev hh ht => exact ⟨by rw [hh, ht]; exact hs.spans, hev.trans hs.events⟩
  | pushes htakes => exact absurd hfull htakes
  | reads hne => exact absurd (hs.spans.empty_iff.mpr rfl) hne

/-- `push` assigns to a raw slot. -/
theorem Unused.breaks {c : Call T} (hs : Unused Cap s) (htakes : ¬ FindsFull Cap s c)
    (h : (que A Cap).step s c = some t) : Broken Cap t := by
  cases step_change h with
  | nothing hfull => exact absurd hfull htakes
  | pushes _ hroom hev hh ht =>
      refine ⟨⟨1, ?_⟩, ?_⟩
      · rw [hh, ht]
        exact hs.spans.push hroom
      · rw [hev, hs.events]
        rfl
  | reads hne => exact absurd (hs.spans.empty_iff.mpr rfl) hne

theorem exec_none_snoc {events : List Lifetime} (h : slots.exec slots.init events = none)
    (more : List Lifetime) : slots.exec slots.init (events ++ more) = none := by
  rw [Option.eq_none_iff_forall_ne_some]
  intro live hlive
  obtain ⟨before, hbefore, -⟩ := slots.exec_append_some.mp hlive
  rw [h] at hbefore
  cases hbefore

/-- A record with a step that is not defined stays broken. -/
theorem Broken.step {c : Call T} (hs : Broken Cap s) (h : (que A Cap).step s c = some t) :
    Broken Cap t := by
  obtain ⟨⟨m, hspans⟩, hbroken⟩ := hs
  cases step_change h with
  | nothing _ hev hh ht => exact ⟨⟨m, by rw [hh, ht]; exact hspans⟩, by rw [hev]; exact hbroken⟩
  | pushes _ hroom hev hh ht =>
      refine ⟨⟨m + 1, ?_⟩, ?_⟩
      · rw [hh, ht]
        exact hspans.push hroom
      · rw [hev]
        exact exec_none_snoc hbroken _
  | reads hne hev hh ht =>
      obtain ⟨k, rfl⟩ := hspans.stored hne
      refine ⟨?_, by rw [hev]; exact exec_none_snoc hbroken _⟩
      rw [ht]
      rcases hh with hh | hh
      · exact ⟨k + 1, hh ▸ hspans⟩
      · exact ⟨k, hh ▸ hspans.pop⟩

/-- The lifetimes in a lock-free ring balance if and only if no `push` finds room. -/
theorem balance_iff {calls : List (Call T)} {fuel : Nat} (hrun : (que A Cap).exec {} calls = some s)
    (hfuel : max_size Cap ≤ fuel) :
    (∃ events, destroyed Cap fuel s = some events ∧ Balanced events) ↔
      (que A Cap).Always (FindsFull Cap) {} calls := by
  have hinit : Unused Cap ({} : Que T) := ⟨Spans.init (Nat.succ_pos Cap), rfl⟩
  constructor
  · rintro ⟨events, hend, live, hlive, -⟩
    refine (que A Cap).always_of_trap (fun _ _ _ hs hfull => hs.step hfull)
      (fun _ _ _ hs htakes => hs.breaks htakes) (fun _ _ _ hs => hs.step) hinit hrun ?_
    rintro ⟨⟨m, hspans⟩, hbroken⟩
    rw [destroyed, destroy_all_eq hspans (Nat.lt_of_lt_of_le hspans.length_lt hfuel)] at hend
    obtain rfl := Option.some.inj hend
    rw [exec_none_snoc hbroken] at hlive
    cases hlive
  · intro hfull
    have hs : Unused Cap s :=
      (que A Cap).exec_inv_of_always (fun _ _ _ hs hfull => hs.step hfull) hinit hfull hrun
    refine ⟨_, destroy_all_eq hs.spans (Nat.lt_of_lt_of_le (Nat.succ_pos Cap) hfuel) s.events, ?_⟩
    rw [hs.events]
    exact ⟨_, rfl, fun _ => rfl⟩

end Balance

end Light

/-- **When the lifetimes balance.** In the locked rings: when no `pop` takes an element. In the
lock-free ones: when no `push` finds room. The locked rings move out of a slot and leave the object
in it; the lock-free ones assign to memory in which nothing was constructed. -/
theorem lifetimes_balance_iff {Args T ε : Type*} (g : Guard) (E : Element Args T ε)
    (A : Light.Assign T ε) (Cap fuel : Nat) (hfuel : max_size Cap ≤ fuel) :
    (∀ calls s, (que g E Cap).exec {} calls = some s →
      ((∃ events, destroyed Cap fuel s = some events ∧ Balanced events) ↔
        (que g E Cap).Always (LeavesElement E) {} calls)) ∧
    ∀ calls s, (Light.que A Cap).exec {} calls = some s →
      ((∃ events, Light.destroyed Cap fuel s = some events ∧ Balanced events) ↔
        (Light.que A Cap).Always (Light.FindsFull Cap) {} calls) :=
  ⟨fun _ _ hrun => locked_balance_iff hrun hfuel, fun _ _ hrun => Light.balance_iff hrun hfuel⟩

/-- One element is pushed, and taken out again. -/
theorem lifetimes_balance_iff_one :
    max_size 1 ≤ 2 ∧ ∃ s, (que .lock_guard (plain Nat Unit) 1).exec {} [.push 7, .pop 0] = some s ∧
      ¬ ∃ events, destroyed 1 2 s = some events ∧ Balanced events := by
  refine ⟨Nat.le_refl 2, _, rfl, fun hbalanced => ?_⟩
  obtain ⟨-, hpush⟩ :=
    ((lifetimes_balance_iff .lock_guard (plain Nat Unit) ⟨fun _ v => (none, v)⟩ 1 2
      (Nat.le_refl 2)).1 [.push 7, .pop 0] _ rfl).mp hbalanced
  obtain ⟨hpop, -⟩ := hpush _ rfl
  rcases hpop with hempty | ⟨x, e, -, hthrow⟩
  · exact absurd hempty (by decide)
  · cases hthrow

/-- An element that is popped is never destroyed, and an element that is pushed into the
lock-free ring is assigned to a raw slot. -/
theorem lifetimes_counterexample :
    (¬ ∀ calls s, (que .lock_guard (plain Nat Unit) 1).exec {} calls = some s →
      ∃ events, destroyed 1 2 s = some events ∧ Balanced events) ∧
    ¬ ∀ calls s,
      (Light.que (⟨fun _ v => (none, v)⟩ : Light.Assign Nat Unit) 1).exec {} calls = some s →
        ∃ events, Light.destroyed 1 2 s = some events ∧ Balanced events := by
  constructor
  · intro hall
    obtain ⟨events, hend, live, hlive, hraw⟩ := hall [.push 7, .pop 0] _ rfl
    obtain rfl : [Lifetime.construct 0, .use 0] = events := Option.some.inj hend
    obtain rfl : Function.update (fun _ => false) 0 true = live := Option.some.inj hlive
    exact Bool.false_ne_true (hraw 0).symm
  · intro hall
    obtain ⟨events, hend, live, hlive, -⟩ := hall [.push 7] _ rfl
    obtain rfl : [Lifetime.use 0, .destroy 0] = events := Option.some.inj hend
    cases hlive

end BoostNet.CircularQue
