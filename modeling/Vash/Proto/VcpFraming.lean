/-
# VCP framing

Where a frame ends. `peek_frame_len` finds it from the header alone, for the walk
that measures a buffer; `decode` reads the same header and goes on to judge the
body. A header is twelve bytes of any content (`refFromPrefix_cases`), so both are
settled by the length the header gives (`peekFrameLen_append`), and a frame that is
there stays where it is when more bytes arrive.
-/

import Vash.Library.Stream
import Vash.Proto.VcpCodec

namespace Vash.Vcp

open Library

/-! ### Headers -/

theorem consumes_header : Consumes FrameHeader.read headerLen := by
  have total : headerLen = 1 + (1 + (2 + (4 + 4))) := rfl
  rw [total]
  unfold FrameHeader.read
  refine (Consumes.number 1 _).bind fun _ => ?_
  refine (Consumes.number 1 _).bind fun _ => ?_
  refine (Consumes.number 2 _).bind fun _ => ?_
  refine (Consumes.number 4 _).bind fun _ => ?_
  exact (Consumes.number 4 _).last fun _ => .pure _

/-- Any twelve bytes are a header. -/
theorem exists_frameHeader {buf : Bytes} (long : headerLen ≤ buf.length) :
    ∃ (header : FrameHeader) (rest : Bytes), buf = header.asBytes ++ rest := by
  have total : 12 ≤ buf.length := long
  obtain ⟨opcode, fits₁, rest₁, rfl, left₁⟩ := exists_leBytes 1 (by omega : 1 ≤ buf.length)
  obtain ⟨flags, fits₂, rest₂, rfl, left₂⟩ := exists_leBytes 1 (by omega : 1 ≤ rest₁.length)
  obtain ⟨status, fits₃, rest₃, rfl, left₃⟩ := exists_leBytes 2 (by omega : 2 ≤ rest₂.length)
  obtain ⟨requestId, fits₄, rest₄, rfl, left₄⟩ := exists_leBytes 4 (by omega : 4 ≤ rest₃.length)
  obtain ⟨bodyLen, fits₅, rest₅, rfl, -⟩ := exists_leBytes 4 (by omega : 4 ≤ rest₄.length)
  refine ⟨⟨opcode.toUInt8, flags.toUInt8, status.toUInt16, requestId.toUInt32, bodyLen.toUInt32⟩,
    rest₅, ?_⟩
  simp only [FrameHeader.asBytes, Nat.toUInt8_eq, Nat.toUInt16_eq, Nat.toUInt32_eq,
    UInt8.toNat_ofNat_of_lt' fits₁, UInt8.toNat_ofNat_of_lt' fits₂,
    UInt16.toNat_ofNat_of_lt' fits₃, UInt32.toNat_ofNat_of_lt' fits₄,
    UInt32.toNat_ofNat_of_lt' fits₅, List.append_assoc]

/-- A buffer is too short for a header, or begins with one. -/
theorem refFromPrefix_cases (buf : Bytes) :
    (buf.length < headerLen ∧ FrameHeader.refFromPrefix buf = none) ∨
      ∃ (header : FrameHeader) (rest : Bytes), buf = header.asBytes ++ rest := by
  rcases lt_or_ge buf.length headerLen with short | long
  · refine .inl ⟨short, ?_⟩
    unfold FrameHeader.refFromPrefix
    cases read : FrameHeader.read buf with
    | error => rfl
    | ok result =>
      have taken := consumes_header buf result.1 result.2 read
      omega
  · exact .inr (exists_frameHeader long)

/-! ### The verdicts -/

theorem peekFrameLen_short {buf : Bytes} (short : buf.length < headerLen) :
    peekFrameLen buf = .incomplete headerLen := by
  rcases refFromPrefix_cases buf with ⟨-, none⟩ | ⟨header, rest, rfl⟩
  · simp [peekFrameLen, none]
  · rw [List.length_append, length_asBytes] at short
    omega

/-- What the header decides. -/
theorem peekFrameLen_append (header : FrameHeader) (rest : Bytes) :
    peekFrameLen (header.asBytes ++ rest) =
      if header.bodyLen.toNat > maxBodyLen then .tooLarge
      else if rest.length < header.bodyLen.toNat then
        .incomplete (headerLen + header.bodyLen.toNat)
      else .complete (headerLen + header.bodyLen.toNat) := by
  rw [peekFrameLen, refFromPrefix_asBytes]
  simp only [List.length_append, length_asBytes, Nat.add_lt_add_iff_left]

theorem decode_append (header : FrameHeader) (rest : Bytes) :
    decode (header.asBytes ++ rest) =
      if header.bodyLen.toNat > maxBodyLen then
        .error (.fatal "body_len exceeds the maximum frame size")
      else if rest.length < header.bodyLen.toNat then
        .ok (.incomplete (headerLen + header.bodyLen.toNat))
      else decodeFrame header (rest.take header.bodyLen.toNat) := by
  rw [decode, refFromPrefix_asBytes]

/-- Where a decoder's answer says the frame ends. -/
def frameLenOf : Except DecodeError Decoded → FrameLen
  | .ok (.incomplete needed) => .incomplete needed
  | .ok (.request _ consumed) => .complete consumed
  | .ok (.auth _ _ consumed) => .complete consumed
  | .error (.fatal _) => .tooLarge
  | .error (.body _ _ consumed _ _) => .complete consumed

/-- Whatever is made of a body, the whole frame is consumed. -/
theorem frameLenOf_decodeFrame (header : FrameHeader) (body : Bytes) :
    frameLenOf (decodeFrame header body) = .complete (headerLen + header.bodyLen.toNat) := by
  unfold decodeFrame
  dsimp only
  cases Opcode.fromU8 header.opcode with
  | none => rfl
  | some opcode =>
    dsimp only
    cases decodeBody opcode body with
    | error refusal => rfl
    | ok message =>
      cases message with
      | command command => rfl
      | auth auth => rfl

theorem frameLenOf_decode (buf : Bytes) : frameLenOf (decode buf) = peekFrameLen buf := by
  rcases refFromPrefix_cases buf with ⟨short, none⟩ | ⟨header, rest, rfl⟩
  · rw [peekFrameLen_short short, decode, none]
    rfl
  · rw [decode_append, peekFrameLen_append]
    split
    · rfl
    · split
      · rfl
      · exact frameLenOf_decodeFrame _ _

/-! ### Frames as they arrive -/

theorem peekFrameLen_complete {buf : Bytes} {len : Nat}
    (complete : peekFrameLen buf = .complete len) : headerLen ≤ len ∧ len ≤ buf.length := by
  rcases refFromPrefix_cases buf with ⟨short, -⟩ | ⟨header, rest, rfl⟩
  · rw [peekFrameLen_short short] at complete
    cases complete
  · rw [peekFrameLen_append] at complete
    split at complete
    · cases complete
    · split at complete
      · cases complete
      · cases complete
        rw [List.length_append, length_asBytes]
        omega

/-- A verdict other than incomplete stands, whatever follows. -/
theorem verdicts_stand {buf : Bytes} (decided : ∀ needed, peekFrameLen buf ≠ .incomplete needed)
    (more : Bytes) :
    peekFrameLen (buf ++ more) = peekFrameLen buf ∧ decode (buf ++ more) = decode buf := by
  rcases refFromPrefix_cases buf with ⟨short, -⟩ | ⟨header, rest, rfl⟩
  · exact absurd (peekFrameLen_short short) (decided _)
  · rw [List.append_assoc, peekFrameLen_append, peekFrameLen_append, decode_append, decode_append]
    by_cases large : header.bodyLen.toNat > maxBodyLen
    · simp only [if_pos large, and_self]
    · have whole : ¬ rest.length < header.bodyLen.toNat := by
        intro missing
        apply decided
        rw [peekFrameLen_append, if_neg large, if_pos missing]
      have wholeStill : ¬ (rest ++ more).length < header.bodyLen.toNat := by
        rw [List.length_append]
        omega
      simp only [if_neg large, if_neg whole, if_neg wholeStill, true_and]
      rw [List.take_append_of_le_length (by omega)]

/-- Until the length asked for has arrived, it goes on being asked for. -/
theorem incomplete_stands {buf : Bytes} {needed : Nat}
    (incomplete : peekFrameLen buf = .incomplete needed) {more : Bytes}
    (short : (buf ++ more).length < needed) : peekFrameLen (buf ++ more) = .incomplete needed := by
  rcases refFromPrefix_cases buf with ⟨noHeader, -⟩ | ⟨header, rest, rfl⟩
  · rw [peekFrameLen_short noHeader] at incomplete
    cases incomplete
    exact peekFrameLen_short short
  · rw [peekFrameLen_append] at incomplete
    split at incomplete
    · cases incomplete
    · rename_i fits
      split at incomplete
      · cases incomplete
        rw [List.append_assoc, List.length_append, length_asBytes] at short
        rw [List.append_assoc, peekFrameLen_append, if_neg fits, if_pos (by omega)]
      · cases incomplete

/-- The frames at the front of a buffer, as `peek_frame_len` cuts them. -/
def frames : Framer UInt8 Bytes Unit where
  next buf :=
    match peekFrameLen buf with
    | .incomplete _ => .wait
    | .complete len => .take (buf.take len) len
    | .tooLarge => .stop ()
  next_nil := rfl
  take_le := by
    intro buf item length taken
    cases verdict : peekFrameLen buf with
    | incomplete needed => simp [verdict] at taken
    | tooLarge => simp [verdict] at taken
    | complete len =>
      simp only [verdict, Verdict.take.injEq] at taken
      obtain ⟨-, rfl⟩ := taken
      have bounds := peekFrameLen_complete verdict
      exact ⟨lt_of_lt_of_le (by decide) bounds.1, bounds.2⟩

theorem frames_stable : frames.Stable := by
  intro buf more decided
  have stands : peekFrameLen (buf ++ more) = peekFrameLen buf := by
    refine (verdicts_stand (fun needed incomplete => ?_) more).1
    exact decided (by simp [frames, incomplete])
  cases verdict : peekFrameLen buf with
  | incomplete needed => simp [frames, stands, verdict]
  | tooLarge => simp [frames, stands, verdict]
  | complete len =>
    have bounds := peekFrameLen_complete verdict
    simp [frames, stands, verdict, List.take_append_of_le_length bounds.2]

/-- Framing is exact: the walk and the decoder agree on every byte string, frames lie
within their buffer, verdicts stand as bytes arrive, and a stream has the same frames
however it is cut into reads. -/
theorem framing_is_exact :
    (∀ buf, frameLenOf (decode buf) = peekFrameLen buf) ∧
    (∀ buf len, peekFrameLen buf = .complete len → headerLen ≤ len ∧ len ≤ buf.length) ∧
    (∀ buf, (∀ needed, peekFrameLen buf ≠ .incomplete needed) → ∀ more,
      peekFrameLen (buf ++ more) = peekFrameLen buf ∧ decode (buf ++ more) = decode buf) ∧
    (∀ buf needed, peekFrameLen buf = .incomplete needed → ∀ more,
      (buf ++ more).length < needed → peekFrameLen (buf ++ more) = .incomplete needed) ∧
    ∀ reads reads' : List Bytes, reads.flatten = reads'.flatten →
      (frames.serve reads).seen = (frames.serve reads').seen := by
  refine ⟨frameLenOf_decode, fun _ _ => peekFrameLen_complete, fun _ => verdicts_stand,
    fun _ _ incomplete _ => incomplete_stands incomplete, ?_⟩
  intro reads reads' same
  rw [Framer.serve_seen (frames_stable.steady _), Framer.serve_seen (frames_stable.steady _), same]

end Vash.Vcp
