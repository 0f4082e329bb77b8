import WakeMyPc.Protocol.Stream

/-!
# The grammar of envelopes

A frame is a length, the version byte, a nonce and a payload of at least one byte.  The
decoder accepts exactly the frames; the encoder writes them, and also the envelope with no
payload, which is none.

Main results:

- Theorem `wireBytes_headFrame`: what is read from a frame is written as the frame.
- Theorem `decodeEnvelope_grammar`: every verdict of the decoder in terms of the bytes.
- Theorem `encoded_decodes_iff`: which envelopes are read back once they are written.
-/

namespace WakeMyPc
namespace Protocol

open Foundations

/-! ## What the decoder accepts -/

/-- The buffer is the frame of an envelope, with some bytes after it. -/
def IsFrame (buf : Bytes) (env : Envelope) (rem : Bytes) : Prop :=
  env.version = protocolVersion ∧ 10 ≤ 9 + env.payload.length ∧
    9 + env.payload.length ≤ 65536 ∧
    buf = beBytes 4 (9 + env.payload.length) ++ [0x01] ++ beBytes 8 env.nonce.toNat ++
      env.payload ++ rem

/-- The wire bytes of an envelope of this version. -/
theorem IsFrame.buf_eq {buf : Bytes} {env : Envelope} {rem : Bytes} (h : IsFrame buf env rem) :
    buf = wireBytes env ++ rem := by
  rw [h.2.2.2, wireBytes, h.1]
  rfl

/-- What is read from a frame is written as the frame. -/
theorem wireBytes_headFrame {buf : Bytes} (hmin : minFrameLen ≤ declaredLen buf)
    (hlen : lengthPrefixLen + declaredLen buf ≤ buf.length)
    (hversion : versionByte buf = protocolVersion) :
    wireBytes (headFrame buf) ++ buf.drop (lengthPrefixLen + declaredLen buf) = buf := by
  simp only [minFrameLen, envelopeHeaderLen, lengthPrefixLen] at hmin hlen
  have hpayload : envelopeHeaderLen + (headFrame buf).payload.length = declaredLen buf := by
    simp only [headFrame, envelopeHeaderLen, List.length_take, List.length_drop]
    omega
  have hprefix : beBytes 4 (declaredLen buf) = buf.take 4 := by
    have hfour : (buf.take lengthPrefixLen).length = 4 := by
      simp only [lengthPrefixLen, List.length_take]
      omega
    have hback := beBytes_beValue (buf.take lengthPrefixLen)
    rwa [hfour] at hback
  have hnonce : beBytes 8 (headFrame buf).nonce.toNat = (buf.drop 5).take 8 := by
    have height : ((buf.drop 5).take 8).length = 8 := by
      simp only [List.length_take, List.length_drop]
      omega
    have hfits := beValue_lt ((buf.drop 5).take 8)
    have hback := beBytes_beValue ((buf.drop 5).take 8)
    rw [height] at hfits hback
    rw [headFrame, UInt64.toNat_ofNat_of_lt' hfits]
    exact hback
  have hfifth : [(headFrame buf).version] = (buf.drop 4).take 1 := by
    have hfour : 4 < buf.length := by omega
    rw [List.drop_eq_getElem_cons hfour, List.take_succ_cons, List.take_zero]
    simp only [versionByte, lengthPrefixLen, List.getD_eq_getElem?_getD,
      List.getElem?_eq_getElem hfour, Option.getD_some] at hversion
    rw [hversion]
    rfl
  -- the parts of the frame follow one another in the buffer
  have hcut : ∀ i n, (buf.drop i).take n ++ buf.drop (i + n) = buf.drop i := by
    intro i n
    rw [← List.drop_drop, List.take_append_drop]
  have hrest : lengthPrefixLen + declaredLen buf = 13 + (declaredLen buf - envelopeHeaderLen) := by
    simp only [lengthPrefixLen, envelopeHeaderLen]
    omega
  rw [wireBytes, hpayload, hprefix, hnonce, hfifth, hrest]
  simp only [List.append_assoc, headFrame]
  rw [hcut 13, hcut 5 8, hcut 4 1, List.take_append_drop]

/-- The decoder accepts exactly the frames. -/
theorem decodeEnvelope_isFrame_iff {buf : Bytes} {env : Envelope} {rem : Bytes} :
    decodeEnvelope buf = .ok (.frame env rem) ↔ IsFrame buf env rem := by
  constructor
  · intro h
    obtain ⟨-, hmin, hmax, hlen, hversion, rfl, rfl⟩ := decodeEnvelope_frame_iff.mp h
    have hback := wireBytes_headFrame hmin hlen hversion
    have hpayload : 9 + (headFrame buf).payload.length = declaredLen buf := by
      simp only [minFrameLen, envelopeHeaderLen, lengthPrefixLen] at hmin hlen
      simp only [headFrame, envelopeHeaderLen, List.length_take, List.length_drop]
      omega
    refine ⟨rfl, ?_, ?_, hback.symm⟩
    · rw [hpayload]
      exact hmin
    · rw [hpayload]
      exact hmax
  · intro h
    rw [h.buf_eq]
    exact decodeEnvelope_wireBytes rem h.1 (by have := h.2.1; omega) h.2.2.1

/-- The decoder waits while the length is not there, or a legal length is declared and the
frame is not all there. -/
theorem decodeEnvelope_incomplete_iff {buf : Bytes} :
    decodeEnvelope buf = .ok .incomplete ↔
      buf.length < lengthPrefixLen ∨
        (minFrameLen ≤ declaredLen buf ∧ declaredLen buf ≤ maxFrameLen ∧
          buf.length < lengthPrefixLen + declaredLen buf) := by
  rw [decodeEnvelope_eq]
  split_ifs with hfront hmin hmax hlen hversion
  · simp [hfront]
  · simp [hfront, Nat.not_le.mpr hmin]
  · simp [hfront, Nat.not_le.mpr hmax]
  · simp [Nat.not_lt.mp hmin, Nat.not_lt.mp hmax, hlen]
  · simp [hfront, hlen]
  · simp [hfront, hlen]

/-- A buffer is a frame exactly when it has the bytes of one, and then it is what is written
for the envelope; it is waited for, or refused for its length or its version byte, as its
length, its declared length and its version byte say; no addition overflows; and more bytes
change no verdict but that of waiting. -/
theorem decodeEnvelope_grammar (buf : Bytes) :
    (∀ env rem, decodeEnvelope buf = .ok (.frame env rem) ↔ IsFrame buf env rem) ∧
    (∀ env rem, decodeEnvelope buf = .ok (.frame env rem) →
      ∃ b, encodeEnvelope env = .ok b ∧ b ++ rem = buf) ∧
    (decodeEnvelope buf = .ok .incomplete ↔
      buf.length < 4 ∨
        (10 ≤ declaredLen buf ∧ declaredLen buf ≤ 65536 ∧
          buf.length < 4 + declaredLen buf)) ∧
    (∀ e, decodeEnvelope buf = .error e ↔
      4 ≤ buf.length ∧
        ((declaredLen buf < 10 ∧ e = .undersizedFrame (declaredLen buf) 10) ∨
          (65536 < declaredLen buf ∧ e = .oversizedFrame (declaredLen buf) 65536) ∨
          (10 ≤ declaredLen buf ∧ declaredLen buf ≤ 65536 ∧ 4 + declaredLen buf ≤ buf.length ∧
            versionByte buf ≠ 0x01 ∧ e = .versionMismatch (versionByte buf) 0x01))) ∧
    decodeEnvelope buf ≠ .error .lengthOverflow ∧
    ∀ s,
      (∀ env rem, decodeEnvelope buf = .ok (.frame env rem) →
        decodeEnvelope (buf ++ s) = .ok (.frame env (rem ++ s))) ∧
      ∀ e, decodeEnvelope buf = .error e → decodeEnvelope (buf ++ s) = .error e := by
  refine ⟨fun env rem => decodeEnvelope_isFrame_iff, fun env rem h => ?_,
    decodeEnvelope_incomplete_iff, fun e => decodeEnvelope_error_iff, fun h => ?_, fun s =>
    ⟨fun env rem => decodeEnvelope_frame_append s, fun e => decodeEnvelope_error_append s⟩⟩
  · have hframe := decodeEnvelope_isFrame_iff.mp h
    exact ⟨wireBytes env, encodeEnvelope_ok hframe.2.2.1, hframe.buf_eq.symm⟩
  · rcases (decodeEnvelope_error_iff.mp h).2 with ⟨-, he⟩ | ⟨-, he⟩ | ⟨-, -, -, -, he⟩ <;> cases he

/-- A frame with one byte of payload and one byte after it. -/
theorem one_byte_frame :
    ∃ b, encodeEnvelope ⟨protocolVersion, 2, [7]⟩ = .ok b ∧
      b ++ [9] = wireBytes ⟨protocolVersion, 2, [7]⟩ ++ [9] :=
  (decodeEnvelope_grammar (wireBytes ⟨protocolVersion, 2, [7]⟩ ++ [9])).2.1 _ _
    (decodeEnvelope_wireBytes [9] rfl (by decide) (by decide))

/-! ## What the encoder writes -/

/-- Whatever follows it, a written envelope is read back. -/
def ReadBack (env : Envelope) : Prop :=
  ∀ b rem, encodeEnvelope env = .ok b → decodeEnvelope (b ++ rem) = .ok (.frame env rem)

/-- The envelope is refused if its length is not one that the decoder allows. -/
def RefusedOutside (env : Envelope) : Prop :=
  9 + env.payload.length < 10 ∨ 65536 < 9 + env.payload.length →
    ∃ e, encodeEnvelope env = .error e

/-- An envelope that is written is not too long. -/
theorem fits_of_encodeEnvelope {env : Envelope} {b : Bytes} (h : encodeEnvelope env = .ok b) :
    envelopeHeaderLen + env.payload.length ≤ maxFrameLen := by
  by_contra hlong
  by_cases husize : envelopeHeaderLen + env.payload.length < 2 ^ 64
  · rw [encodeEnvelope_oversized (Nat.not_le.mp hlong) husize] at h
    cases h
  · have hadd : usizeCheckedAdd envelopeHeaderLen env.payload.length = none := if_neg husize
    simp only [encodeEnvelope, hadd] at h
    cases h

/-- An envelope with no payload is written, and is refused when it is read. -/
theorem empty_payload (version : UInt8) (nonce : UInt64) (rem : Bytes) :
    encodeEnvelope ⟨version, nonce, []⟩ = .ok (wireBytes ⟨version, nonce, []⟩) ∧
      decodeEnvelope (wireBytes ⟨version, nonce, []⟩ ++ rem) =
        .error (.undersizedFrame 9 minFrameLen) := by
  have hdeclared : declaredLen (wireBytes ⟨version, nonce, []⟩ ++ rem) = 9 := by
    simp only [declaredLen, wireBytes, List.append_assoc]
    rw [List.take_left' (by simp [lengthPrefixLen])]
    rfl
  have hlength : envelopeHeaderLen + ([] : Bytes).length ≤ maxFrameLen := by decide
  refine ⟨encodeEnvelope_ok hlength, decodeEnvelope_error_iff.mpr ⟨?_, .inl ?_⟩⟩
  · rw [List.length_append, length_wireBytes]
    omega
  · rw [hdeclared]
    exact ⟨by decide, rfl⟩

/-- What the encoder writes is read back, and the encoder refuses what the decoder does,
exactly when the payload is not empty. -/
theorem encoded_decodes_iff (nonce : UInt64) (payload : Bytes) :
    (ReadBack ⟨protocolVersion, nonce, payload⟩ ↔ payload ≠ []) ∧
      (RefusedOutside ⟨protocolVersion, nonce, payload⟩ ↔ payload ≠ []) := by
  constructor <;> constructor
  · rintro hback rfl
    obtain ⟨hok, hrefused⟩ := empty_payload protocolVersion nonce []
    have hread := hback _ [] hok
    rw [hrefused] at hread
    cases hread
  · intro hpayload b rem hok
    have hfits := fits_of_encodeEnvelope hok
    rw [encodeEnvelope_ok hfits] at hok
    obtain rfl := Except.ok.inj hok
    exact decodeEnvelope_wireBytes rem rfl (List.length_pos_iff.mpr hpayload) hfits
  · rintro hrefused rfl
    obtain ⟨e, he⟩ := hrefused (.inl (Nat.lt_succ_self 9))
    rw [(empty_payload protocolVersion nonce []).1] at he
    cases he
  · intro hpayload houtside
    have hpos := List.length_pos_iff.mpr hpayload
    cases hencoded : encodeEnvelope ⟨protocolVersion, nonce, payload⟩ with
    | error e => exact ⟨e, rfl⟩
    | ok b =>
        have hfits : 9 + payload.length ≤ 65536 := fits_of_encodeEnvelope hencoded
        have hlength : 9 + payload.length < 10 ∨ 65536 < 9 + payload.length := houtside
        omega

/-- The envelope with nonce one and no payload is written and not read back. -/
theorem empty_not_readBack : ¬ ReadBack ⟨protocolVersion, 1, []⟩ := by
  intro hback
  obtain ⟨hok, hrefused⟩ := empty_payload protocolVersion 1 []
  have hread := hback _ [] hok
  rw [hrefused] at hread
  cases hread

end Protocol
end WakeMyPc
