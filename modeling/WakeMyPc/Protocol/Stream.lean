import WakeMyPc.Protocol.Envelope
import WakeMyPc.Foundations.Framing

/-!
# Envelopes as frames of a stream

The verdicts of `decodeEnvelope` other than `incomplete` stay when bytes arrive,
so it is a framer.

Main results:

- Theorems `decodeEnvelope_frame_iff` and `decodeEnvelope_error_iff`: when a
  buffer is a frame, and when it is refused.
- Definition `envelopeFramer`: the framer of envelopes.
- Theorem `split_wireBytes_append`: written envelopes are framed again.
-/

namespace WakeMyPc
namespace Protocol

open Foundations

/-! ## When a buffer is accepted or refused -/

/-- A buffer is a frame when it declares a legal length, holds all of it, and
has the right version byte. -/
theorem decodeEnvelope_frame_iff {buf : Bytes} {env : Envelope} {rem : Bytes} :
    decodeEnvelope buf = .ok (.frame env rem) ↔
      lengthPrefixLen ≤ buf.length ∧ minFrameLen ≤ declaredLen buf ∧
        declaredLen buf ≤ maxFrameLen ∧ lengthPrefixLen + declaredLen buf ≤ buf.length ∧
        versionByte buf = protocolVersion ∧ env = headFrame buf ∧
        rem = buf.drop (lengthPrefixLen + declaredLen buf) := by
  rw [decodeEnvelope_eq]
  constructor
  · intro h
    split_ifs at h with h1 h2 h3 h4 h5 <;>
      simp only [Except.ok.injEq, DecodeOutcome.frame.injEq, reduceCtorEq] at h
    exact ⟨by omega, by omega, by omega, by omega, not_not.mp h5, h.1.symm, h.2.symm⟩
  · rintro ⟨h1, h2, h3, h4, h5, rfl, rfl⟩
    rw [if_neg (by omega), if_neg (by omega), if_neg (by omega), if_neg (by omega),
      if_neg (not_not.mpr h5)]

/-- A buffer is refused for a length outside the legal range, or for the version
byte of a complete frame. -/
theorem decodeEnvelope_error_iff {buf : Bytes} {e : Error} :
    decodeEnvelope buf = .error e ↔
      lengthPrefixLen ≤ buf.length ∧
        ((declaredLen buf < minFrameLen ∧ e = .undersizedFrame (declaredLen buf) minFrameLen) ∨
          (maxFrameLen < declaredLen buf ∧ e = .oversizedFrame (declaredLen buf) maxFrameLen) ∨
          (minFrameLen ≤ declaredLen buf ∧ declaredLen buf ≤ maxFrameLen ∧
            lengthPrefixLen + declaredLen buf ≤ buf.length ∧ versionByte buf ≠ protocolVersion ∧
            e = .versionMismatch (versionByte buf) protocolVersion)) := by
  have hlimits : minFrameLen ≤ maxFrameLen := by decide
  rw [decodeEnvelope_eq]
  constructor
  · intro h
    split_ifs at h with h1 h2 h3 h4 h5
    · exact ⟨by omega, .inl ⟨h2, (Except.error.inj h).symm⟩⟩
    · exact ⟨by omega, .inr (.inl ⟨h3, (Except.error.inj h).symm⟩)⟩
    · exact ⟨by omega, .inr (.inr
        ⟨by omega, by omega, by omega, h5, (Except.error.inj h).symm⟩)⟩
  · rintro ⟨h1, ⟨h2, rfl⟩ | ⟨h3, rfl⟩ | ⟨h2, h3, h4, h5, rfl⟩⟩
    · rw [if_neg (by omega), if_pos h2]
    · rw [if_neg (by omega), if_neg (by omega), if_pos h3]
    · rw [if_neg (by omega), if_neg (by omega), if_neg (by omega), if_neg (by omega), if_pos h5]

/-! ## Growing a buffer -/

private theorem declaredLen_append {buf : Bytes} (h : lengthPrefixLen ≤ buf.length) (s : Bytes) :
    declaredLen (buf ++ s) = declaredLen buf := by
  simp only [declaredLen, List.take_append_of_le_length h]

private theorem versionByte_append {buf : Bytes} (h : lengthPrefixLen < buf.length) (s : Bytes) :
    versionByte (buf ++ s) = versionByte buf := by
  simp only [versionByte, List.getD_eq_getElem?_getD, List.getElem?_append_left h]

private theorem headFrame_append {buf : Bytes} (hmin : minFrameLen ≤ declaredLen buf)
    (hlen : lengthPrefixLen + declaredLen buf ≤ buf.length) (s : Bytes) :
    headFrame (buf ++ s) = headFrame buf := by
  simp only [minFrameLen, envelopeHeaderLen, lengthPrefixLen] at hmin hlen
  have hfront : lengthPrefixLen ≤ buf.length := by
    simp only [lengthPrefixLen]
    omega
  have htake {i n : ℕ} (h : i + n ≤ buf.length) :
      ((buf ++ s).drop i).take n = (buf.drop i).take n := by
    rw [List.drop_append_of_le_length (by omega),
      List.take_append_of_le_length (by simp only [List.length_drop]; omega)]
  simp only [headFrame, declaredLen_append hfront, envelopeHeaderLen]
  rw [htake (by omega), htake (by omega)]

/-- A frame at the head of a buffer stays when bytes arrive; they are left over. -/
theorem decodeEnvelope_frame_append {buf : Bytes} {env : Envelope} {rem : Bytes} (s : Bytes)
    (h : decodeEnvelope buf = .ok (.frame env rem)) :
    decodeEnvelope (buf ++ s) = .ok (.frame env (rem ++ s)) := by
  obtain ⟨h1, h2, h3, h4, h5, rfl, rfl⟩ := decodeEnvelope_frame_iff.mp h
  have hversion : lengthPrefixLen < buf.length := by
    simp only [minFrameLen, envelopeHeaderLen] at h2
    omega
  rw [decodeEnvelope_frame_iff, declaredLen_append h1, versionByte_append hversion,
    headFrame_append h2 h4, List.drop_append_of_le_length h4, List.length_append]
  exact ⟨by omega, h2, h3, by omega, h5, rfl, rfl⟩

/-- A refused buffer stays refused when bytes arrive. -/
theorem decodeEnvelope_error_append {buf : Bytes} {e : Error} (s : Bytes)
    (h : decodeEnvelope buf = .error e) : decodeEnvelope (buf ++ s) = .error e := by
  obtain ⟨h1, hcase⟩ := decodeEnvelope_error_iff.mp h
  rw [decodeEnvelope_error_iff, declaredLen_append h1, List.length_append]
  refine ⟨by omega, ?_⟩
  rcases hcase with hsmall | hlarge | ⟨h2, h3, h4, h5, rfl⟩
  · exact .inl hsmall
  · exact .inr (.inl hlarge)
  · have hversion : lengthPrefixLen < buf.length := by
      simp only [minFrameLen, envelopeHeaderLen] at h2
      omega
    rw [versionByte_append hversion]
    exact .inr (.inr ⟨h2, h3, by omega, h5, rfl⟩)

/-- The bytes left over after a frame are fewer than the buffer had. -/
theorem decodeEnvelope_frame_shorter {buf : Bytes} {env : Envelope} {rem : Bytes}
    (h : decodeEnvelope buf = .ok (.frame env rem)) : rem.length < buf.length := by
  obtain ⟨h1, -, -, -, -, -, rfl⟩ := decodeEnvelope_frame_iff.mp h
  simp only [lengthPrefixLen] at h1
  simp only [List.length_drop, lengthPrefixLen]
  omega

/-! ## The framer -/

/-- The result of a parse as a verdict. -/
def verdict : Except Error DecodeOutcome → Verdict UInt8 Error Envelope
  | .ok (.frame envelope remainder) => .frame envelope remainder
  | .ok .incomplete => .more
  | .error e => .bad e

theorem verdict_frame {result : Except Error DecodeOutcome} {env : Envelope} {rem : Bytes}
    (h : verdict result = .frame env rem) : result = .ok (.frame env rem) := by
  rcases result with e | (_ | _) <;> simp_all [verdict]

theorem verdict_bad {result : Except Error DecodeOutcome} {e : Error}
    (h : verdict result = .bad e) : result = .error e := by
  rcases result with e | (_ | _) <;> simp_all [verdict]

/-- The framer of envelopes. -/
def envelopeFramer : Framer UInt8 Error Envelope where
  next buf := verdict (decodeEnvelope buf)
  next_nil := rfl
  rest_shorter h := decodeEnvelope_frame_shorter (verdict_frame h)
  frame_append s h := by rw [decodeEnvelope_frame_append s (verdict_frame h), verdict]
  bad_append s h := by rw [decodeEnvelope_error_append s (verdict_bad h), verdict]

theorem envelopeFramer_next (buf : Bytes) :
    envelopeFramer.next buf = verdict (decodeEnvelope buf) :=
  rfl

/-- Written envelopes are framed again, and the bytes after them as they would be
alone. -/
theorem split_wireBytes_append {es : List Envelope}
    (h : ∀ e ∈ es, e.version = protocolVersion ∧ 0 < e.payload.length ∧
      envelopeHeaderLen + e.payload.length ≤ maxFrameLen) (t : Bytes) :
    envelopeFramer.split (es.flatMap wireBytes ++ t) =
      (es ++ (envelopeFramer.split t).1, (envelopeFramer.split t).2) := by
  apply envelopeFramer.split_flatMap_append
  intro e he rest
  obtain ⟨hversion, hpos, hfits⟩ := h e he
  rw [envelopeFramer_next, decodeEnvelope_wireBytes rest hversion hpos hfits]
  rfl

end Protocol
end WakeMyPc
