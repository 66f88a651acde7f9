import EasyReactor.Foundation.Decoder
import EasyReactor.Wire.MsgHead

set_option autoImplicit false

/-!
# Wire: what a stream of frames means

The reference parser, as a decoder: what a receiver is to make of a byte stream, with no
buffer in sight.
-/

namespace EasyReactor.Wire

open EasyReactor.Foundation

/-- The verdict of the reference parser on the bytes at the front. -/
def parse (registered : Int32 → Bool) (bs : List UInt8) : Verdict Msg :=
  if bs.length < commuHeadLength then
    .wait
  else
    let head := CommuHead.ofBytes bs
    if head.length.toInt < 0 ∨ head.length.toInt > msgLengthLimit then
      .reject
    else
      let len := head.length.toInt.toNat
      if bs.length < commuHeadLength + len then
        .wait
      else if registered head.cmdid then
        .emit ⟨head.cmdid, (bs.drop commuHeadLength).take len⟩ (commuHeadLength + len)
      else
        .reject

section

variable {registered : Int32 → Bool} {bs : List UInt8} {m : Msg} {n : Nat}

/-- What the parser emits is a registered frame at the front. -/
theorem parse_emit (h : parse registered bs = .emit m n) :
    n ≤ bs.length ∧ n = commuHeadLength + m.body.length ∧ m.body.length ≤ msgLengthLimit ∧
      registered m.cmdid = true ∧ CommuHead.ofBytes bs = m.head ∧
      m.body = (bs.drop commuHeadLength).take m.body.length := by
  unfold parse at h
  split at h
  · cases h
  next hlen =>
    simp only at h
    split at h
    · cases h
    next hrange =>
      split at h
      · cases h
      next hbody =>
        split at h
        next hreg =>
          obtain ⟨rfl, rfl⟩ := Verdict.emit.inj h
          have hblen : ((bs.drop commuHeadLength).take
              (CommuHead.ofBytes bs).length.toInt.toNat).length =
                (CommuHead.ofBytes bs).length.toInt.toNat := by
            rw [List.length_take, List.length_drop]
            omega
          refine ⟨by omega, by rw [hblen], by rw [hblen]; omega, hreg, ?_, by rw [hblen]⟩
          unfold Msg.head
          rw [hblen, Int.toNat_of_nonneg (by omega), Int32.ofInt_toInt]
        next hreg => cases h

/-- The parser waits for a header, or for the body of one that is in range. -/
theorem parse_wait (h : parse registered bs = .wait) :
    bs.length < commuHeadLength ∨
      commuHeadLength ≤ bs.length ∧ 0 ≤ (CommuHead.ofBytes bs).length.toInt ∧
        (CommuHead.ofBytes bs).length.toInt ≤ msgLengthLimit ∧
        (bs.length : Int) < commuHeadLength + (CommuHead.ofBytes bs).length.toInt := by
  unfold parse at h
  split at h
  next hlen => exact .inl hlen
  next hlen =>
    simp only at h
    split at h
    · cases h
    next hrange =>
      split at h
      next hbody => exact .inr ⟨by omega, by omega, by omega, by omega⟩
      next => split at h <;> cases h

/-- The parser gives up on a length out of range, or on a command id nobody registered. -/
theorem parse_reject (h : parse registered bs = .reject) :
    commuHeadLength ≤ bs.length ∧
      (((CommuHead.ofBytes bs).length.toInt > msgLengthLimit ∨
          (CommuHead.ofBytes bs).length.toInt < 0) ∨
        0 ≤ (CommuHead.ofBytes bs).length.toInt ∧
          (CommuHead.ofBytes bs).length.toInt ≤ msgLengthLimit ∧
          (commuHeadLength : Int) + (CommuHead.ofBytes bs).length.toInt ≤ bs.length ∧
          registered (CommuHead.ofBytes bs).cmdid = false) := by
  unfold parse at h
  split at h
  · cases h
  next hlen =>
    refine ⟨by omega, ?_⟩
    simp only at h
    split at h
    next hrange => exact .inl (by omega)
    next hrange =>
      split at h
      · cases h
      next hbody =>
        split at h
        · cases h
        next hreg => exact .inr ⟨by omega, by omega, by omega, by simpa using hreg⟩

/-- What the parser waits on is shorter than the longest frame. -/
theorem parse_wait_length (h : parse registered bs = .wait) :
    bs.length < commuHeadLength + msgLengthLimit := by
  have := msgLengthLimit_eq
  cases parse_wait h with
  | inl hlen => omega
  | inr hbody => omega

theorem parse_emit_stable (t : List UInt8) (h : parse registered bs = .emit m n) :
    parse registered (bs ++ t) = .emit m n := by
  unfold parse at h ⊢
  split at h
  · cases h
  next hlen =>
    rw [List.length_append, if_neg (by omega), CommuHead.ofBytes_append (by omega)]
    simp only at h ⊢
    split at h
    · cases h
    next hrange =>
      rw [if_neg hrange]
      split at h
      · cases h
      next hbody =>
        rw [if_neg (by omega), List.drop_append_of_le_length (by omega),
          List.take_append_of_le_length (by rw [List.length_drop]; omega)]
        exact h

theorem parse_reject_stable (t : List UInt8) (h : parse registered bs = .reject) :
    parse registered (bs ++ t) = .reject := by
  unfold parse at h ⊢
  split at h
  · cases h
  next hlen =>
    rw [List.length_append, if_neg (by omega), CommuHead.ofBytes_append (by omega)]
    simp only at h ⊢
    split at h
    next hrange => rw [if_pos hrange]
    next hrange =>
      rw [if_neg hrange]
      split at h
      · cases h
      next hbody =>
        rw [if_neg (by omega)]
        split at h
        · cases h
        next hreg => rw [if_neg hreg]

end

/-- The reference parser for a dispatcher that knows the `registered` command ids. -/
def reference (registered : Int32 → Bool) : Decoder UInt8 Msg where
  next := parse registered
  emit_size {_ _ _} h := by
    obtain ⟨hle, heq, -⟩ := parse_emit h
    have := commuHeadLength_eq
    omega
  emit_stable t h := parse_emit_stable t h
  reject_stable t h := parse_reject_stable t h

/-- What the reference parser makes of a whole stream. -/
abbrev refDecode (registered : Int32 → Bool) (bs : List UInt8) : Decoded UInt8 Msg :=
  (reference registered).decode bs

theorem refDecode_append {registered : Int32 → Bool} {S r : List UInt8}
    (h : (refDecode registered S).rest = some r) (t : List UInt8) :
    refDecode registered (S ++ t) =
      (refDecode registered (r ++ t)).after (refDecode registered S).msgs :=
  Decoder.decode_append h t

theorem refDecode_stuck {registered : Int32 → Bool} {S : List UInt8}
    (h : (refDecode registered S).rest = none) (t : List UInt8) :
    refDecode registered (S ++ t) = refDecode registered S :=
  Decoder.decode_stuck h t

/-- The stream ends with a frame without a body. -/
def EndsEmpty (d : Decoded UInt8 Msg) : Prop :=
  d.rest = some [] ∧ ∃ m, d.msgs.getLast? = some m ∧ m.body = []

theorem not_endsEmpty_of_nil {d : Decoded UInt8 Msg} (h : d.msgs = []) : ¬ EndsEmpty d := by
  rintro ⟨-, m, hm, -⟩
  rw [h] at hm
  cases hm

theorem endsEmpty_push {m : Msg} {d : Decoded UInt8 Msg} :
    EndsEmpty (d.push m) ↔ EndsEmpty d ∨ m.body = [] ∧ d = ⟨[], some []⟩ := by
  obtain ⟨ms, rest⟩ := d
  unfold EndsEmpty
  cases ms with
  | nil =>
    simp [Decoded.push]
    tauto
  | cons m' ms => simp [Decoded.push, List.getLast?_cons_cons]

theorem EndsEmpty.after {d : Decoded UInt8 Msg} (h : EndsEmpty d) (ms : List Msg) :
    EndsEmpty (d.after ms) := by
  obtain ⟨hrest, m, hm, hbody⟩ := h
  refine ⟨hrest, m, ?_, hbody⟩
  rw [Decoded.after_msgs, List.getLast?_append, hm]
  rfl

theorem endsEmpty_after {d : Decoded UInt8 Msg} {ms : List Msg} (hd : d.msgs ≠ [])
    (h : EndsEmpty (d.after ms)) : EndsEmpty d := by
  obtain ⟨hrest, m, hm, hbody⟩ := h
  refine ⟨hrest, m, ?_, hbody⟩
  rw [Decoded.after_msgs, List.getLast?_append] at hm
  cases hl : d.msgs.getLast? with
  | none => exact absurd (List.getLast?_eq_none_iff.mp hl) hd
  | some m' =>
    rw [hl] at hm
    exact hm

/-- A frame without a body was emitted if the stream ends with one. -/
theorem EndsEmpty.mem {d : Decoded UInt8 Msg} (h : EndsEmpty d) : ∃ m ∈ d.msgs, m.body = [] := by
  obtain ⟨-, m, hm, hbody⟩ := h
  exact ⟨m, List.mem_of_getLast? hm, hbody⟩

/-! ## Streams of well-formed frames -/

/-- A message whose frame the parser takes. -/
structure Msg.Sendable (registered : Int32 → Bool) (m : Msg) : Prop where
  registered : registered m.cmdid = true
  length : m.body.length ≤ msgLengthLimit

theorem parse_frame {registered : Int32 → Bool} {m : Msg} (h : m.Sendable registered)
    (t : List UInt8) :
    parse registered (m.frame ++ t) = .emit m (commuHeadLength + m.body.length) := by
  have hlimit : m.body.length ≤ 65528 := h.length
  have hhead : CommuHead.ofBytes (m.frame ++ t) = m.head := by
    unfold Msg.frame
    rw [List.append_assoc, CommuHead.ofBytes_bytes]
  have hlen := Msg.head_length (m := m) (by omega)
  unfold parse
  rw [List.length_append, Msg.length_frame, if_neg (by omega), hhead]
  simp only
  have hreg : registered m.head.cmdid = true := h.registered
  have hmax := msgLengthLimit_eq
  rw [hlen, if_neg (by omega), Int.toNat_natCast, if_neg (by omega), if_pos hreg]
  have hdrop : (m.frame ++ t).drop commuHeadLength = m.body ++ t := by
    unfold Msg.frame
    rw [List.append_assoc, List.drop_left' (CommuHead.length_bytes _)]
  rw [hdrop, List.take_left]
  rfl

/-- A frame at the front is emitted first. -/
theorem refDecode_frame {registered : Int32 → Bool} {m : Msg} (h : m.Sendable registered)
    (t : List UInt8) :
    refDecode registered (m.frame ++ t) = (refDecode registered t).push m := by
  have hnext : (reference registered).next (m.frame ++ t) = _ := parse_frame h t
  unfold refDecode
  rw [Decoder.decode_emit hnext, List.drop_left' (Msg.length_frame m)]

/-- Whole frames are emitted, then what follows them is parsed. -/
theorem refDecode_frames {registered : Int32 → Bool} {ms : List Msg}
    (h : ∀ m ∈ ms, m.Sendable registered) (t : List UInt8) :
    refDecode registered (frames ms ++ t) = (refDecode registered t).after ms := by
  induction ms with
  | nil => rfl
  | cons m ms ih =>
    rw [frames_cons, List.append_assoc, refDecode_frame (h m (List.mem_cons_self ..)),
      ih fun m' hm' => h m' (List.mem_cons_of_mem _ hm')]
    rfl

@[simp] theorem refDecode_nil (registered : Int32 → Bool) :
    refDecode registered [] = ⟨[], some []⟩ :=
  Decoder.decode_wait rfl

theorem refDecode_whole {registered : Int32 → Bool} {ms : List Msg}
    (h : ∀ m ∈ ms, m.Sendable registered) :
    refDecode registered (frames ms) = ⟨ms, some []⟩ := by
  have hframes := refDecode_frames h []
  rw [List.append_nil, refDecode_nil] at hframes
  rw [hframes]
  simp [Decoded.after]

/-- The start of a stream of frames is never given up. -/
theorem refDecode_prefix_rest {registered : Int32 → Bool} {ms : List Msg} {S : List UInt8}
    (h : ∀ m ∈ ms, m.Sendable registered) (hS : S <+: frames ms) :
    ∃ r, (refDecode registered S).rest = some r := by
  obtain ⟨t, ht⟩ := hS
  cases hr : (refDecode registered S).rest with
  | some r => exact ⟨r, rfl⟩
  | none =>
    have hstuck := refDecode_stuck hr t
    rw [ht, refDecode_whole h] at hstuck
    rw [← hstuck] at hr
    cases hr

/-- The start of a stream of frames is the frames of the first messages. -/
theorem refDecode_prefix_msgs {registered : Int32 → Bool} {ms : List Msg} {S : List UInt8}
    (h : ∀ m ∈ ms, m.Sendable registered) (hS : S <+: frames ms) :
    (refDecode registered S).msgs <+: ms := by
  obtain ⟨t, ht⟩ := hS
  have hmsgs := Decoder.decode_msgs_prefix (D := reference registered) S t
  have hwhole := refDecode_whole h
  unfold refDecode at hwhole ⊢
  rw [ht, hwhole] at hmsgs
  exact hmsgs

end EasyReactor.Wire
