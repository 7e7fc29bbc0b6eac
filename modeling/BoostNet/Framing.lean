/-
Length-prefixed framing of a byte stream: a header of fixed length says what a frame
is and how long its body is. Nothing here names a component; bytes and what a header
says besides the length are arbitrary types.

`Codec` is the header's encoder and parser, inverse to each other on the headers that
are accepted. `Dec` is a decoder between two bytes, and `feed` gives it a list of
them; a header that is not accepted leaves it dead.

* `feed_append`: how the stream is cut does not matter to `feed`.
* `feed_encodeAll`: the frames that were encoded are decoded.
* `feed_prefix`: conversely, the frames decoded are the beginning of the bytes fed.
-/
import Mathlib.Data.List.Basic
import Mathlib.Data.List.Infix
import Mathlib.Tactic.Common

set_option autoImplicit false

namespace BoostNet

/-- The header of a frame: `η` is what it says besides the length of the body. -/
structure Codec (β η : Type*) where
  headLen : Nat
  headLen_pos : 0 < headLen
  /-- The headers that are accepted. -/
  Accepts : η → Nat → Prop
  encode : η → Nat → List β
  parse : List β → Option (η × Nat)
  encode_length : ∀ id n, (encode id n).length = headLen
  parse_eq : ∀ hd, hd.length = headLen → ∀ id n,
    parse hd = some (id, n) ↔ Accepts id n ∧ hd = encode id n

namespace Codec

variable {β η : Type*} (C : Codec β η)

/-! ## Frames -/

/-- The bytes of a frame. -/
def frame (f : η × List β) : List β := C.encode f.1 f.2.length ++ f.2

/-- The bytes of a list of frames. -/
def encodeAll (fs : List (η × List β)) : List β := fs.flatMap C.frame

@[simp] theorem encodeAll_nil : C.encodeAll [] = [] := rfl

@[simp] theorem encodeAll_cons (f : η × List β) (fs : List (η × List β)) :
    C.encodeAll (f :: fs) = C.frame f ++ C.encodeAll fs := List.flatMap_cons

/-- The stream of two lists of messages is one stream behind the other. -/
@[simp] theorem encodeAll_append (fs gs : List (η × List β)) :
    C.encodeAll (fs ++ gs) = C.encodeAll fs ++ C.encodeAll gs := List.flatMap_append

/-- A frame is its header and its body. -/
theorem frame_length (f : η × List β) : (C.frame f).length = C.headLen + f.2.length := by
  rw [frame, List.length_append, C.encode_length]

/-! ## The decoder -/

/-- A decoder between two bytes: inside a header, inside a body, or past a header that
was not accepted. -/
inductive Dec (β η : Type*) where
  | head (acc : List β)
  | body (id : η) (n : Nat) (acc : List β)
  | dead

/-- Before the first byte of a frame. -/
def Dec.start : Dec β η := .head []

/-- The header is complete. -/
def headDone (hd : List β) : Dec β η × Option (η × List β) :=
  match C.parse hd with
  | none => (.dead, none)
  | some (id, 0) => (.start, some (id, []))
  | some (id, n + 1) => (.body id (n + 1) [], none)

/-- One byte. -/
def push : Dec β η → β → Dec β η × Option (η × List β)
  | .head acc, x =>
      if acc.length + 1 < C.headLen then (.head (acc ++ [x]), none) else C.headDone (acc ++ [x])
  | .body id n acc, x =>
      if acc.length + 1 < n then (.body id n (acc ++ [x]), none)
      else (.start, some (id, acc ++ [x]))
  | .dead, _ => (.dead, none)

/-- A list of bytes, and the frames that end among them. -/
def feed : Dec β η → List β → Dec β η × List (η × List β)
  | d, [] => (d, [])
  | d, x :: xs => ((feed (C.push d x).1 xs).1, (C.push d x).2.toList ++ (feed (C.push d x).1 xs).2)

@[simp] theorem feed_nil (d : Dec β η) : C.feed d [] = (d, []) := rfl

/-- A decoder is fed element by element. -/
theorem feed_cons (d : Dec β η) (x : β) (xs : List β) :
    C.feed d (x :: xs) = ((C.feed (C.push d x).1 xs).1,
      (C.push d x).2.toList ++ (C.feed (C.push d x).1 xs).2) := rfl

/-- **The cut does not matter.** -/
theorem feed_append (d : Dec β η) (xs ys : List β) :
    C.feed d (xs ++ ys) = ((C.feed (C.feed d xs).1 ys).1,
      (C.feed d xs).2 ++ (C.feed (C.feed d xs).1 ys).2) := by
  induction xs generalizing d with
  | nil => rfl
  | cons x xs ih =>
      rw [List.cons_append, feed_cons, ih, feed_cons]
      simp only [List.append_assoc]

/-- Behind an invalid header nothing is decoded any more. -/
@[simp] theorem feed_dead (xs : List β) : C.feed .dead xs = (.dead, []) := by
  induction xs with
  | nil => rfl
  | cons x xs ih =>
      rw [feed_cons, push, ih]
      rfl

/-! ### Runs of bytes inside a header or a body -/

/-- A header that is not complete is kept. -/
theorem feed_head_short {acc xs : List β} (h : acc.length + xs.length < C.headLen) :
    C.feed (.head acc) xs = (.head (acc ++ xs), []) := by
  induction xs generalizing acc with
  | nil => rw [feed_nil, List.append_nil]
  | cons x xs ih =>
      rw [List.length_cons] at h
      rw [feed_cons, push, if_pos (by omega), ih (by simp; omega), List.append_assoc]
      rfl

/-- A complete one is looked at. -/
theorem feed_head_full {acc xs : List β} (hacc : acc.length < C.headLen)
    (h : acc.length + xs.length = C.headLen) :
    C.feed (.head acc) xs =
      ((C.headDone (acc ++ xs)).1, (C.headDone (acc ++ xs)).2.toList) := by
  rcases List.eq_nil_or_concat xs with rfl | ⟨ys, x, rfl⟩
  · rw [List.length_nil] at h
    omega
  · rw [List.concat_eq_append, List.length_append, List.length_singleton] at h
    have hacc' : ¬ (acc ++ ys).length + 1 < C.headLen := by
      rw [List.length_append]
      omega
    rw [List.concat_eq_append, feed_append, C.feed_head_short (by omega), feed_cons, push,
      if_neg hacc', List.append_assoc]
    simp

/-- A body that is not complete is kept. -/
theorem feed_body_short {id : η} {n : Nat} {acc xs : List β} (h : acc.length + xs.length < n) :
    C.feed (.body id n acc) xs = (.body id n (acc ++ xs), []) := by
  induction xs generalizing acc with
  | nil => rw [feed_nil, List.append_nil]
  | cons x xs ih =>
      rw [List.length_cons] at h
      rw [feed_cons, push, if_pos (by omega), ih (by simp; omega), List.append_assoc]
      rfl

/-- A complete one gives a message, and the next header begins. -/
theorem feed_body_full {id : η} {n : Nat} {acc xs : List β} (hacc : acc.length < n)
    (h : acc.length + xs.length = n) :
    C.feed (.body id n acc) xs = (.start, [(id, acc ++ xs)]) := by
  rcases List.eq_nil_or_concat xs with rfl | ⟨ys, x, rfl⟩
  · rw [List.length_nil] at h
    omega
  · rw [List.concat_eq_append, List.length_append, List.length_singleton] at h
    have hacc' : ¬ (acc ++ ys).length + 1 < n := by
      rw [List.length_append]
      omega
    rw [List.concat_eq_append, feed_append, C.feed_body_short (by omega), feed_cons, push,
      if_neg hacc', List.append_assoc]
    rfl

/-! ### Bytes that complete a header or a body, and what follows -/

/-- A chunk that completes the header and goes on: the rest is fed to what the header says. -/
theorem feed_head_split {acc xs : List β} (hacc : acc.length < C.headLen)
    (h : C.headLen ≤ acc.length + xs.length) :
    C.feed (.head acc) xs =
      ((C.feed (C.headDone (acc ++ xs.take (C.headLen - acc.length))).1
          (xs.drop (C.headLen - acc.length))).1,
        (C.headDone (acc ++ xs.take (C.headLen - acc.length))).2.toList ++
          (C.feed (C.headDone (acc ++ xs.take (C.headLen - acc.length))).1
            (xs.drop (C.headLen - acc.length))).2) := by
  have hlen : acc.length + (xs.take (C.headLen - acc.length)).length = C.headLen := by
    rw [List.length_take]
    omega
  conv_lhs => rw [← List.take_append_drop (C.headLen - acc.length) xs, feed_append,
    C.feed_head_full hacc hlen]

/-- A chunk that completes the body and goes on: the rest is fed to a decoder that begins. -/
theorem feed_body_split {id : η} {n : Nat} {acc xs : List β} (hacc : acc.length < n)
    (h : n ≤ acc.length + xs.length) :
    C.feed (.body id n acc) xs =
      ((C.feed .start (xs.drop (n - acc.length))).1,
        (id, acc ++ xs.take (n - acc.length)) :: (C.feed .start (xs.drop (n - acc.length))).2) := by
  have hlen : acc.length + (xs.take (n - acc.length)).length = n := by
    rw [List.length_take]
    omega
  conv_lhs => rw [← List.take_append_drop (n - acc.length) xs, feed_append,
    C.feed_body_full hacc hlen]
  rfl

/-- The body that a header announces may still be to come. -/
theorem feed_headDone_short {hd xs : List β} {id : η} {n : Nat} (h : C.parse hd = some (id, n))
    (hlt : xs.length < n) :
    C.feed (C.headDone hd).1 xs = (.body id n xs, []) ∧ (C.headDone hd).2 = none := by
  cases n with
  | zero => exact absurd hlt (Nat.not_lt_zero _)
  | succ n =>
      rw [headDone, h]
      exact ⟨C.feed_body_short (by rwa [List.length_nil, Nat.zero_add]), rfl⟩

/-- Or it may be there already, with more behind it. -/
theorem feed_headDone_full {hd xs : List β} {id : η} {n : Nat} (h : C.parse hd = some (id, n))
    (hle : n ≤ xs.length) :
    (C.feed (C.headDone hd).1 xs).1 = (C.feed .start (xs.drop n)).1 ∧
      (C.headDone hd).2.toList ++ (C.feed (C.headDone hd).1 xs).2 =
        (id, xs.take n) :: (C.feed .start (xs.drop n)).2 := by
  cases n with
  | zero =>
      rw [headDone, h]
      exact ⟨rfl, rfl⟩
  | succ n =>
      rw [headDone, h]
      simp only [Option.toList_none, List.nil_append]
      rw [C.feed_body_split (Nat.succ_pos n) (by rwa [List.length_nil, Nat.zero_add])]
      exact ⟨rfl, rfl⟩

/-! ## Encoded frames are decoded -/

theorem parse_encode {id : η} {n : Nat} (h : C.Accepts id n) :
    C.parse (C.encode id n) = some (id, n) :=
  (C.parse_eq _ (C.encode_length id n) id n).mpr ⟨h, rfl⟩

/-- The header of an accepted frame. -/
theorem feed_encode {id : η} {n : Nat} (h : C.Accepts id n) :
    C.feed .start (C.encode id n) =
      if n = 0 then (.start, [(id, [])]) else (.body id n [], []) := by
  have hlen := C.encode_length id n
  rw [Dec.start, C.feed_head_full (show ([] : List β).length < C.headLen from C.headLen_pos)
    (by rw [hlen, List.length_nil, Nat.zero_add]), List.nil_append, headDone, C.parse_encode h]
  cases n with
  | zero => rfl
  | succ n => rfl

/-- One frame gives its message back. -/
theorem feed_frame {f : η × List β} (h : C.Accepts f.1 f.2.length) :
    C.feed .start (C.frame f) = (.start, [f]) := by
  obtain ⟨id, body⟩ := f
  rw [frame, feed_append, C.feed_encode h]
  cases body with
  | nil => rfl
  | cons x body =>
      rw [if_neg (by simp), C.feed_body_full (by simp) (by simp)]
      rfl

/-- **Encoded frames are decoded.** -/
theorem feed_encodeAll {fs : List (η × List β)} (h : ∀ f ∈ fs, C.Accepts f.1 f.2.length) :
    C.feed .start (C.encodeAll fs) = (.start, fs) := by
  induction fs with
  | nil => rfl
  | cons f fs ih =>
      rw [encodeAll_cons, feed_append, C.feed_frame (h f List.mem_cons_self),
        ih fun g hg => h g (List.mem_cons_of_mem f hg)]
      rfl

/-- The decoder inside a frame. -/
theorem feed_frame_prefix {f : η × List β} (h : C.Accepts f.1 f.2.length) {xs : List β}
    (hpre : xs <+: C.frame f) (hlt : xs.length < (C.frame f).length) :
    C.feed .start xs =
      (if xs.length < C.headLen then .head xs else .body f.1 f.2.length (xs.drop C.headLen),
        []) := by
  obtain ⟨id, body⟩ := f
  have hlen := C.encode_length id body.length
  rw [frame_length] at hlt
  split_ifs with hhead
  · exact C.feed_head_short (by rwa [List.length_nil, Nat.zero_add])
  · -- the header is complete, and the rest is a part of the body
    obtain ⟨ys, rfl⟩ : C.encode id body.length <+: xs :=
      List.prefix_of_prefix_length_le (List.prefix_append _ _) hpre (by omega)
    have hbody : body.length ≠ 0 := by
      rw [List.length_append] at hlt
      simp only at hlt
      omega
    rw [feed_append, C.feed_encode h, if_neg hbody, List.drop_left' hlen,
      C.feed_body_short (by
        rw [List.length_append] at hlt
        simp only [List.length_nil] at hlt ⊢
        omega)]
    rfl

/-! ## Decoded frames were encoded so -/

/-- The bytes of an unfinished frame. -/
def pend : Dec β η → List β
  | .head acc => acc
  | .body id n acc => C.encode id n ++ acc
  | .dead => []

/-- Inside a header or a body that is not complete. -/
def Dec.Ok : Dec β η → Prop
  | .head acc => acc.length < C.headLen
  | .body id n acc => C.Accepts id n ∧ acc.length < n
  | .dead => True

theorem start_ok : Dec.Ok C .start := C.headLen_pos

/-- A decoder never holds more than what it waits for. -/
theorem push_ok {d : Dec β η} (h : Dec.Ok C d) (x : β) : Dec.Ok C (C.push d x).1 := by
  cases d with
  | head acc =>
      rw [push]
      split_ifs with hlt
      · show (acc ++ [x]).length < C.headLen
        rwa [List.length_append, List.length_singleton]
      · have hlen : (acc ++ [x]).length = C.headLen := by
          have hacc : acc.length < C.headLen := h
          rw [List.length_append, List.length_singleton]
          omega
        unfold headDone
        split
        · trivial
        · exact C.start_ok
        · next id n hparse =>
            exact ⟨((C.parse_eq _ hlen id (n + 1)).mp hparse).1, Nat.succ_pos n⟩
  | body id n acc =>
      rw [push]
      split_ifs with hlt
      · exact ⟨h.1, by rwa [List.length_append, List.length_singleton]⟩
      · exact C.start_ok
  | dead => trivial

/-- Whatever it is fed. -/
theorem feed_ok {d : Dec β η} (h : Dec.Ok C d) (xs : List β) : Dec.Ok C (C.feed d xs).1 := by
  induction xs generalizing d with
  | nil => exact h
  | cons x xs ih => exact ih (C.push_ok h x)

/-- One byte is pending, or ends the frame that it gives. -/
theorem push_pend {d : Dec β η} (h : Dec.Ok C d) (x : β) (hd : (C.push d x).1 ≠ .dead) :
    C.pend d ++ [x] = C.encodeAll (C.push d x).2.toList ++ C.pend (C.push d x).1 := by
  cases d with
  | head acc =>
      have hacc : acc.length < C.headLen := h
      rw [push] at hd ⊢
      split_ifs at hd ⊢ with hlt
      · rfl
      · -- the byte completes the header, and perhaps an empty frame
        have hlen : (acc ++ [x]).length = C.headLen := by
          rw [List.length_append, List.length_singleton]
          omega
        cases hparse : C.parse (acc ++ [x]) with
        | none =>
            rw [headDone, hparse] at hd
            exact absurd rfl hd
        | some p =>
            obtain ⟨id, n⟩ := p
            obtain ⟨-, heq⟩ := (C.parse_eq _ hlen id n).mp hparse
            rw [headDone, hparse]
            cases n with
            | zero => simp [pend, Dec.start, heq, frame]
            | succ n => simp [pend, heq]
  | body id n acc =>
      obtain ⟨hok, hacc⟩ := h
      rw [push]
      split_ifs with hlt
      · simp [pend]
      · have hlen : (acc ++ [x]).length = n := by
          rw [List.length_append, List.length_singleton]
          omega
        rw [Option.toList_some, encodeAll_cons, frame, hlen]
        simp [pend, Dec.start]
  | dead => exact absurd rfl hd

/-- No frame ends where a header is not accepted. -/
theorem push_dead {d : Dec β η} {x : β} (h : (C.push d x).1 = .dead) : (C.push d x).2 = none := by
  cases d with
  | head acc =>
      rw [push] at h ⊢
      by_cases hlt : acc.length + 1 < C.headLen
      · rw [if_pos hlt] at h
        cases h
      · rw [if_neg hlt] at h ⊢
        unfold headDone at h ⊢
        cases hparse : C.parse (acc ++ [x]) with
        | none => rfl
        | some p =>
            obtain ⟨id, n⟩ := p
            rw [hparse] at h
            cases n <;> cases h
  | body id n acc =>
      rw [push] at h
      split_ifs at h
      cases h
  | dead => rfl

/-- **The frames decoded are the beginning of the bytes fed.** -/
theorem feed_prefix {d : Dec β η} (h : Dec.Ok C d) (xs : List β) :
    C.encodeAll (C.feed d xs).2 <+: C.pend d ++ xs := by
  induction xs generalizing d with
  | nil => exact List.nil_prefix
  | cons x xs ih =>
      rw [feed_cons, encodeAll_append]
      by_cases hdead : (C.push d x).1 = .dead
      · -- nothing is decoded any more
        rw [hdead, feed_dead, C.push_dead hdead]
        exact List.nil_prefix
      · have hsplit := C.push_pend h x hdead
        rw [List.append_cons, hsplit, List.append_assoc]
        exact (List.prefix_append_right_inj _).mpr (ih (C.push_ok h x))

end Codec

end BoostNet
