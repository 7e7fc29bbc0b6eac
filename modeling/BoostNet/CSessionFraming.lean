/-
Framing by `CSession::HandleRead` (Network/asyncServer and asyncServer_ThreadPool): the
messages of a stream against the segments in which TCP delivers it.

A segment that begins inside a body is read wrongly unless it contains the rest of the
body, and what follows there is what one gets by reading from its beginning again. So
the messages come out right if and only if that is the case of every segment: `CutOk`
says it of the messages and the cut alone.

* `framing_iff`: over every list of messages and every cut of the stream.
* `framing_broken`: a segment with the end of a body and a message, which is lost.
-/
import BoostNet.CSessionRefine

set_option autoImplicit false

namespace BoostNet.CSession

open Codec

/-! ## Messages and cuts -/

/-- What a peer may send. -/
structure Msg where
  msg_id : Int
  body : List Byte
  msg_id_range : -32768 ≤ msg_id ∧ msg_id ≤ MAX_LENGTH
  body_length : body.length ≤ MAX_LENGTH

def Msg.frame (m : Msg) : Int × List Byte := (m.msg_id, m.body)

/-- The length of the message in the stream. -/
def Msg.length (m : Msg) : Nat := HEAD_TOTAL_LEN + m.body.length

/-- The stream: header and body of every message. -/
def stream (msgs : List Msg) : List Byte :=
  msgs.flatMap fun m => encodeHeader m.msg_id m.body.length ++ m.body

/-- How many bytes of a body are left at an offset of the stream, where its header is
complete. -/
def bodyLeft : List Msg → Nat → Option Nat
  | [], _ => none
  | m :: ms, pos =>
      if pos < HEAD_TOTAL_LEN then none
      else if pos < m.length then some (m.length - pos)
      else bodyLeft ms (pos - m.length)

/-- A chunk that begins inside a body with `left` bytes to go contains them, and goes on as
it began. -/
def Chunk.Repeats (c : Chunk) (left : Nat) : Prop :=
  left ≤ c.bytes.length ∧ c.bytes.take (c.bytes.length - left) = c.bytes.drop left

instance (c : Chunk) (left : Nat) : Decidable (c.Repeats left) :=
  inferInstanceAs (Decidable (_ ∧ _))

/-- The chunks, the first of them at an offset of the stream. -/
def CutOk (msgs : List Msg) : Nat → List Chunk → Prop
  | _, [] => True
  | pos, c :: cs =>
      (∀ left ∈ bodyLeft msgs pos, c.Repeats left) ∧ CutOk msgs (pos + c.bytes.length) cs

instance CutOk.decidable (msgs : List Msg) : ∀ pos cs, Decidable (CutOk msgs pos cs)
  | _, [] => inferInstanceAs (Decidable True)
  | pos, c :: cs =>
      have := CutOk.decidable msgs (pos + c.bytes.length) cs
      inferInstanceAs (Decidable (_ ∧ _))

theorem Msg.accepts (m : Msg) : codec.Accepts m.frame.1 m.frame.2.length :=
  ⟨m.msg_id_range.1, m.msg_id_range.2, m.body_length⟩

theorem frame_length (m : Msg) : (codec.frame m.frame).length = m.length := codec.frame_length _

theorem stream_eq (msgs : List Msg) : stream msgs = codec.encodeAll (msgs.map Msg.frame) := by
  rw [encodeAll, List.flatMap_map]
  rfl

theorem feed_stream (msgs : List Msg) :
    codec.feed .start (stream msgs) = (.start, msgs.map Msg.frame) := by
  rw [stream_eq, codec.feed_encodeAll fun f hf => ?_]
  obtain ⟨m, -, rfl⟩ := List.mem_map.mp hf
  exact m.accepts

/-! ## The decoder inside the stream -/

/-- How many bytes of a body the decoder waits for. -/
def left : Dec Byte Int → Option Nat
  | .body _ n acc => some (n - acc.length)
  | .head _ | .dead => none

/-- The decoder is inside a body exactly where the stream is. -/
theorem left_feed (msgs : List Msg) (pos : Nat) :
    left (codec.feed .start ((stream msgs).take pos)).1 = bodyLeft msgs pos := by
  induction msgs generalizing pos with
  | nil => rw [show stream [] = [] from rfl, List.take_nil]; rfl
  | cons m ms ih =>
      have hlen := frame_length m
      have hstream : stream (m :: ms) = codec.frame m.frame ++ stream ms := List.flatMap_cons
      rw [hstream, bodyLeft]
      rcases Nat.lt_or_ge pos m.length with hlt | hge
      · -- inside the first message
        have htake : (codec.frame m.frame ++ stream ms).take pos =
            (codec.frame m.frame).take pos := List.take_append_of_le_length (by omega)
        have hpos : ((codec.frame m.frame).take pos).length = pos := by
          rw [List.length_take]
          omega
        rw [htake, codec.feed_frame_prefix m.accepts (List.take_prefix _ _) (by omega), hpos]
        by_cases hhead : pos < HEAD_TOTAL_LEN
        · rw [if_pos hhead, if_pos (show pos < codec.headLen from hhead)]
          rfl
        · rw [if_neg hhead, if_neg (show ¬ pos < codec.headLen from hhead), if_pos hlt]
          have hdrop : (((codec.frame m.frame).take pos).drop codec.headLen).length =
              pos - HEAD_TOTAL_LEN := by
            rw [List.length_drop, hpos]
            rfl
          show some (m.body.length - _) = some (HEAD_TOTAL_LEN + m.body.length - pos)
          rw [hdrop, show m.body.length - (pos - HEAD_TOTAL_LEN) =
            HEAD_TOTAL_LEN + m.body.length - pos by omega]
      · -- past the first message
        have hhead : ¬ pos < HEAD_TOTAL_LEN := by
          simp only [Msg.length] at hge
          omega
        rw [if_neg hhead, if_neg (Nat.not_lt.mpr hge), List.take_append,
          List.take_of_length_le (by omega), hlen, feed_append, codec.feed_frame m.accepts]
        exact ih _

/-! ## When nothing is misread -/

theorem taken_eq_iff {d : Dec Byte Int} (hd : Dec.Ok codec d) (c : Chunk) :
    taken d c.bytes = c.bytes ↔ ∀ n ∈ left d, c.Repeats n := by
  cases d with
  | head acc => exact ⟨fun _ _ hn => (Option.not_mem_none _ hn).elim, fun _ => rfl⟩
  | dead => exact ⟨fun _ _ hn => (Option.not_mem_none _ hn).elim, fun _ => rfl⟩
  | body msg_id n acc =>
      simp only [left, Option.mem_some_iff, forall_eq', taken, Chunk.Repeats]
      split_ifs with hshort
      · exact ⟨fun h => absurd h.symm c.nonempty, fun h => absurd h.1 (by omega)⟩
      · constructor
        · intro h
          have hsplit := List.take_append_drop (n - acc.length) c.bytes
          exact ⟨by omega, List.append_cancel_left (h.trans hsplit.symm)⟩
        · rintro ⟨-, h⟩
          rw [h, List.take_append_drop]

theorem taken_length_le (d : Dec Byte Int) (chunk : List Byte) :
    (taken d chunk).length ≤ chunk.length := by
  cases d with
  | head acc => exact Nat.le_refl _
  | dead => exact Nat.le_refl _
  | body msg_id n acc =>
      simp only [taken]
      split_ifs with hshort
      · exact Nat.zero_le _
      · rw [List.length_append, List.length_take, List.length_take]
        omega

theorem takenAll_length_le (d : Dec Byte Int) (cs : List Chunk) :
    (takenAll d cs).length ≤ (cs.flatMap Chunk.bytes).length := by
  induction cs generalizing d with
  | nil => exact Nat.le_refl _
  | cons c cs ih =>
      rw [takenAll, List.flatMap_cons, List.length_append, List.length_append]
      exact Nat.add_le_add (taken_length_le d c.bytes) (ih _)

/-- Chunk by chunk: the bytes are as sent if and only if the cut is right. -/
theorem takenAll_eq_iff (msgs : List Msg) (cs : List Chunk) {pre : List Byte}
    (hcut : stream msgs = pre ++ cs.flatMap Chunk.bytes) :
    takenAll (codec.feed .start pre).1 cs = cs.flatMap Chunk.bytes ↔
      CutOk msgs pre.length cs := by
  induction cs generalizing pre with
  | nil => exact ⟨fun _ => trivial, fun _ => rfl⟩
  | cons c cs ih =>
      have hok := codec.feed_ok codec.start_ok pre
      have hleft : left (codec.feed .start pre).1 = bodyLeft msgs pre.length := by
        rw [← left_feed, hcut, List.take_left]
      rw [List.flatMap_cons, ← List.append_assoc] at hcut
      have hrest := ih hcut
      rw [feed_append, List.length_append] at hrest
      rw [CutOk, ← hleft, ← taken_eq_iff hok c, ← hrest, takenAll, List.flatMap_cons]
      constructor
      · intro h
        -- nothing is longer than it should be, so the equation splits at the chunk
        have hlen := congrArg List.length h
        rw [List.length_append, List.length_append] at hlen
        have hle := taken_length_le (codec.feed .start pre).1 c.bytes
        have hle' := takenAll_length_le
          (codec.feed (codec.feed .start pre).1 (taken (codec.feed .start pre).1 c.bytes)).1 cs
        obtain ⟨htaken, hall⟩ := List.append_inj h (by omega)
        rw [htaken] at hall
        exact ⟨htaken, hall⟩
      · rintro ⟨htaken, hall⟩
        rw [htaken, hall]

/-! ## The result -/

/-- **Framing against segmentation**, over every list of messages and every cut of their stream: the
messages are posted as sent, in order, and the session is not cleared, exactly if the cut is right.
The body is taken without `copy_len` going on, so that what is left of a chunk is parsed from the
chunk's beginning; it does no harm where a message ends with its chunk. -/
theorem framing_iff (msgs : List Msg) (chunks : List Chunk)
    (hcut : chunks.flatMap Chunk.bytes = stream msgs) :
    (Session.receive {} chunks).posts = msgs.map Msg.frame ∧
        .clear ∉ (Session.receive {} chunks).log ↔
      CutOk msgs 0 chunks := by
  have hdone := receive_refines at_init chunks
  have hposts : (Session.receive {} chunks).posts =
      (codec.feed .start (takenAll .start chunks)).2 := hdone.posts
  have hiff := takenAll_eq_iff msgs chunks (show stream msgs = [] ++ _ from hcut.symm)
  refine Iff.trans ?_ hiff
  show _ ↔ takenAll .start chunks = _
  constructor
  · rintro ⟨hmsgs, -⟩
    -- the stream is a prefix of what was decoded, and not longer
    have hpre := codec.feed_prefix codec.start_ok (takenAll .start chunks)
    rw [← hposts, hmsgs, ← stream_eq, ← hcut] at hpre
    exact (hpre.eq_of_length_le (takenAll_length_le .start chunks)).symm
  · intro heq
    have hstate := hdone.state
    rw [heq, hcut, feed_stream] at hposts hstate
    exact ⟨hposts, hstate.2.ok.uncleared⟩

/-- Two messages. -/
def twoMessages : List Msg :=
  [⟨7, [1, 2], by decide, by decide⟩, ⟨8, [3], by decide, by decide⟩]

/-- Cut inside the first header and before the last body. -/
def rightCut : List Chunk :=
  [⟨(stream twoMessages).take 3, by decide, by decide⟩,
    ⟨((stream twoMessages).drop 3).take 7, by decide, by decide⟩, ⟨[3], by decide, by decide⟩]

theorem framing_iff_rightCut :
    (Session.receive {} rightCut).posts = twoMessages.map Msg.frame ∧
      .clear ∉ (Session.receive {} rightCut).log :=
  (framing_iff twoMessages rightCut (by decide)).mpr (by decide)

/-- Cut inside the first body. -/
def wrongCut : List Chunk :=
  [⟨(stream twoMessages).take 5, by decide, by decide⟩,
    ⟨(stream twoMessages).drop 5, by decide, by decide⟩]

/-- The second message is not posted: after the first body, its end is read again as the
beginning of a header. -/
theorem framing_broken :
    wrongCut.flatMap Chunk.bytes = stream twoMessages ∧
      (Session.receive {} wrongCut).posts = [(7, [1, 2])] ∧
      twoMessages.map Msg.frame = [(7, [1, 2]), (8, [3])] := by
  refine ⟨by decide, ?_, by decide⟩
  rw [(receive_refines at_init wrongCut).posts]
  decide

end BoostNet.CSession
