/-
`write_to_socket` and `read_from_socket` of Network/endpoint, which loop over `write_some` and
`read_some` until a message is through.

Both of these may take fewer bytes than they are asked for: `Sizes` says how many each call
takes, at least one and no more than that. What the peer has sent is a list of bytes; `read_some`
waits when there are none, and a call that waits for ever is `none`, like a write outside the
buffer. The loops run on fuel, and a result is one that they reach.

`write_to_socket` adds up what its calls have written. `read_from_socket` keeps what the last
call has read.

* `write_to_socket_all`: all bytes are written, in order.
* `read_from_socket_iff`: the first `MESSAGE_SIZE` bytes are read if and only if the first call
  reads them all. Otherwise the loop has no end.
-/
import BoostNet.Bytes
import BoostNet.Loop

set_option autoImplicit false

namespace BoostNet.Endpoint

/-- How many bytes the call number `k` takes when it is asked for `len`. -/
structure Sizes where
  size : Nat → Nat → Nat
  pos : ∀ k len, 0 < len → 0 < size k len
  le : ∀ k len, size k len ≤ len

/-! ## `write_to_socket` -/

structure Writing where
  total_bytes_written : Nat := 0
  sent : List Byte := []
  calls : Nat := 0

/-- `sock.write_some(buf)`, and what it adds to `total_bytes_written`. -/
def Writing.write_some (sizes : Sizes) (s : Writing) (buf : List Byte) : Writing :=
  let n := sizes.size s.calls buf.length
  { total_bytes_written := s.total_bytes_written + n
    sent := s.sent ++ buf.take n
    calls := s.calls + 1 }

def write_to_socket (sizes : Sizes) (buf : List Byte) (fuel : Nat) : Option Writing :=
  while_do (fun s : Writing => some (decide (s.total_bytes_written < buf.length)))
    (fun s => some (s.write_some sizes (buf.drop s.total_bytes_written))) fuel {}

/-! ## `read_from_socket` -/

def MESSAGE_SIZE : Nat := 7

structure Reading where
  buf : List Byte := List.replicate MESSAGE_SIZE 0
  total_bytes_read : Nat := 0
  incoming : List Byte
  calls : Nat := 0

/-- `sock.read_some` of `len` bytes to `buf + off`, and the assignment of what it returns to
`total_bytes_read`. -/
def Reading.read_some (sizes : Sizes) (s : Reading) (off len : Nat) : Option Reading :=
  if s.incoming = [] then none
  else
    let n := min (sizes.size s.calls len) s.incoming.length
    if off + n ≤ s.buf.length then
      some
        { buf := overwrite s.buf off (s.incoming.take n)
          total_bytes_read := n
          incoming := s.incoming.drop n
          calls := s.calls + 1 }
    else none

/-- `total_bytes_read != MESSAGE_SIZE` -/
def Reading.unfinished (s : Reading) : Option Bool :=
  some (decide (s.total_bytes_read ≠ MESSAGE_SIZE))

def Reading.pass (sizes : Sizes) (s : Reading) : Option Reading :=
  s.read_some sizes s.total_bytes_read (MESSAGE_SIZE - s.total_bytes_read)

def read_from_socket (sizes : Sizes) (incoming : List Byte) (fuel : Nat) : Option (List Byte) :=
  (while_do Reading.unfinished (Reading.pass sizes) fuel { incoming }).map
    fun s => s.buf.take s.total_bytes_read

/-! ## What they do -/

section Results

variable {sizes : Sizes}

/-- **Partial writes add up.** -/
theorem write_to_socket_all (sizes : Sizes) (buf : List Byte) :
    ∃ s, write_to_socket sizes buf (buf.length + 1) = some s ∧ s.sent = buf := by
  refine while_do_total
    (fun s : Writing =>
      s.total_bytes_written ≤ buf.length ∧ s.sent = buf.take s.total_bytes_written)
    (fun s => s.sent = buf) (fun s => buf.length - s.total_bytes_written) ?_
    ⟨Nat.zero_le _, rfl⟩ (Nat.lt_succ_of_le (Nat.sub_le _ _))
  rintro s ⟨hle, hsent⟩
  rcases Nat.lt_or_eq_of_le hle with hlt | heq
  · have hlen : (buf.drop s.total_bytes_written).length = buf.length - s.total_bytes_written :=
      List.length_drop
    have hpos := sizes.pos s.calls (buf.drop s.total_bytes_written).length (by omega)
    have hsize := sizes.le s.calls (buf.drop s.total_bytes_written).length
    refine .inr ⟨by simp [hlt], _, rfl, ⟨?_, ?_⟩, ?_⟩
    · dsimp only [Writing.write_some]
      omega
    · dsimp only [Writing.write_some]
      rw [hsent, ← List.take_add]
    · dsimp only [Writing.write_some]
      omega
  · refine .inl ⟨by simp [heq], ?_⟩
    rw [hsent, heq, List.take_length]

/-- A loop whose first call has read some bytes, but not all, reads on for ever. -/
theorem reading_never {s : Reading} (hpos : 0 < s.total_bytes_read)
    (hlt : s.total_bytes_read < MESSAGE_SIZE) (fuel : Nat) :
    while_do Reading.unfinished (Reading.pass sizes) fuel s = none := by
  refine while_do_never (fun s => 0 < s.total_bytes_read ∧ s.total_bytes_read < MESSAGE_SIZE) ?_
    ⟨hpos, hlt⟩ fuel
  rintro s ⟨hpos, hlt⟩
  refine ⟨by simp [Reading.unfinished, Nat.ne_of_lt hlt], fun t ht => ?_⟩
  unfold Reading.pass Reading.read_some at ht
  obtain ⟨hsome, ht⟩ := Option.ite_none_left_eq_some.mp ht
  obtain ⟨-, ht⟩ := Option.ite_none_right_eq_some.mp ht
  obtain rfl := Option.some.inj ht
  have hlen : 0 < s.incoming.length := List.length_pos_iff.mpr hsome
  -- what is asked for is less than a message, and so is what comes back
  have hsize := sizes.le s.calls (MESSAGE_SIZE - s.total_bytes_read)
  have hone := sizes.pos s.calls (MESSAGE_SIZE - s.total_bytes_read) (by omega)
  dsimp only
  omega

/-- What the first call reads. -/
theorem first_pass (sizes : Sizes) {incoming : List Byte} (h : MESSAGE_SIZE ≤ incoming.length) :
    Reading.pass sizes { incoming } = some
      { buf := overwrite (List.replicate MESSAGE_SIZE 0) (0 : Nat)
          (incoming.take (sizes.size 0 MESSAGE_SIZE))
        total_bytes_read := sizes.size 0 MESSAGE_SIZE
        incoming := incoming.drop (sizes.size 0 MESSAGE_SIZE)
        calls := 1 } := by
  have hle : sizes.size 0 MESSAGE_SIZE ≤ MESSAGE_SIZE := sizes.le 0 MESSAGE_SIZE
  have hsome : incoming ≠ [] := by
    rintro rfl
    exact absurd h (by decide)
  have hmin : min (sizes.size 0 MESSAGE_SIZE) incoming.length = sizes.size 0 MESSAGE_SIZE :=
    Nat.min_eq_left (Nat.le_trans hle h)
  rw [Reading.pass, Reading.read_some, if_neg hsome]
  dsimp only
  rw [Nat.sub_zero, hmin, if_pos (by rw [List.length_replicate]; omega)]

theorem starts_unfinished (incoming : List Byte) :
    Reading.unfinished { incoming } = some true := rfl

/-- A first call that does not read the whole message. -/
theorem never_read {sizes : Sizes} {incoming : List Byte} (h : MESSAGE_SIZE ≤ incoming.length)
    (hne : sizes.size 0 MESSAGE_SIZE ≠ MESSAGE_SIZE) (fuel : Nat) :
    read_from_socket sizes incoming fuel = none := by
  have hle : sizes.size 0 MESSAGE_SIZE ≤ MESSAGE_SIZE := sizes.le 0 MESSAGE_SIZE
  cases fuel with
  | zero => rfl
  | succ fuel =>
      rw [read_from_socket, while_do_pass (starts_unfinished incoming) (first_pass sizes h),
        reading_never (sizes.pos 0 MESSAGE_SIZE (by decide)) (Nat.lt_of_le_of_ne hle hne)]
      rfl

/-- **The loop reads a message if and only if its first call does.** The loop assigns
`total_bytes_read` where it should add, so it goes on from the wrong place after a short read. -/
theorem read_from_socket_iff (sizes : Sizes) {incoming : List Byte}
    (h : MESSAGE_SIZE ≤ incoming.length) :
    ((∃ fuel, read_from_socket sizes incoming fuel = some (incoming.take MESSAGE_SIZE)) ↔
        sizes.size 0 MESSAGE_SIZE = MESSAGE_SIZE) ∧
      (sizes.size 0 MESSAGE_SIZE ≠ MESSAGE_SIZE →
        ∀ fuel, read_from_socket sizes incoming fuel = none) := by
  refine ⟨⟨?_, fun hall => ⟨2, ?_⟩⟩, never_read h⟩
  · rintro ⟨fuel, hfuel⟩
    by_contra hne
    rw [never_read h hne fuel] at hfuel
    cases hfuel
  · have hlen : (incoming.take MESSAGE_SIZE).length = MESSAGE_SIZE := List.length_take_of_le h
    have hbuf : (overwrite (List.replicate MESSAGE_SIZE 0) (0 : Nat)
        (incoming.take MESSAGE_SIZE)).take (0 + (incoming.take MESSAGE_SIZE).length) =
          (List.replicate MESSAGE_SIZE 0).take 0 ++ incoming.take MESSAGE_SIZE :=
      take_overwrite (by rw [hlen, List.length_replicate]; omega)
    rw [hlen, Nat.zero_add, List.take_zero, List.nil_append] at hbuf
    have hpass := first_pass sizes h
    rw [hall] at hpass
    have hexit : Reading.unfinished
        { buf := overwrite (List.replicate MESSAGE_SIZE 0) (0 : Nat) (incoming.take MESSAGE_SIZE)
          total_bytes_read := MESSAGE_SIZE
          incoming := incoming.drop MESSAGE_SIZE
          calls := 1 } = some false := rfl
    rw [read_from_socket, while_do_pass (starts_unfinished incoming) hpass, while_do_exit hexit]
    exact congrArg some hbuf

/-- A peer whose bytes come one at a time. -/
def one_by_one : Sizes where
  size := fun _ len => min 1 len
  pos := fun _ len h => by omega
  le := fun _ len => Nat.min_le_right 1 len

theorem read_from_socket_one_by_one :
    MESSAGE_SIZE ≤ [1, 2, 3, 4, 5, 6, 7].length ∧
      ∀ fuel, read_from_socket one_by_one [1, 2, 3, 4, 5, 6, 7] fuel = none :=
  ⟨by decide, (read_from_socket_iff one_by_one (by decide)).2 (by decide)⟩

/-- A message that comes in pieces is never returned. -/
theorem read_from_socket_counterexample :
    ¬ ∀ (sizes : Sizes) (incoming : List Byte), MESSAGE_SIZE ≤ incoming.length →
      ∃ fuel, read_from_socket sizes incoming fuel = some (incoming.take MESSAGE_SIZE) := by
  intro hall
  obtain ⟨fuel, hfuel⟩ := hall one_by_one [1, 2, 3, 4, 5, 6, 7] (by decide)
  rw [never_read (by decide) (by decide)] at hfuel
  cases hfuel

end Results

end BoostNet.Endpoint
