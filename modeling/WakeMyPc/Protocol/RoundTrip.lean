import WakeMyPc.Protocol.Envelope

/-!
# Round trip through both layers

A message is encoded as a payload, the payload is wrapped in an envelope, the
envelope is found at the head of a buffer, and its payload is decoded again.

Main results:

- Theorem `message_stack_round_trip`: every daemon message and every client
  message that fits an envelope survives the round trip, longer client messages
  are refused, and no payload is a proper prefix of another.
-/

namespace WakeMyPc
namespace Protocol

open Foundations

/-- A payload passes through an envelope unchanged, whatever follows it. -/
def PassesEnvelope (payload : Bytes) (nonce : UInt64) (r : Bytes) : Prop :=
  ∃ wire, encodeEnvelope ⟨protocolVersion, nonce, payload⟩ = .ok wire ∧
    decodeEnvelope (wire ++ r) = .ok (.frame ⟨protocolVersion, nonce, payload⟩ r)

theorem passesEnvelope {payload : Bytes} (nonce : UInt64) (r : Bytes)
    (hpos : 0 < payload.length) (hlen : payload.length ≤ 65527) :
    PassesEnvelope payload nonce r := by
  have hmax : envelopeHeaderLen + payload.length ≤ maxFrameLen := by
    simp only [envelopeHeaderLen, maxFrameLen]
    omega
  exact ⟨_, encodeEnvelope_ok hmax, decodeEnvelope_wireBytes r rfl hpos hmax⟩

/-- Every client message is far below the size of the address space. -/
theorem ClientFrame.length_encode_lt (frame : ClientFrame) :
    envelopeHeaderLen + (ClientFrame.format.encode frame).length < 2 ^ 64 := by
  have hle : (ClientFrame.format.encode frame).length ≤ 20 + isizeMax := by
    cases frame with
    | pair phoneName pairingCode =>
        have htag := length_encodeTag_le 0
        have hname := Postcard.length_string_le phoneName
        have hcode := Postcard.length_encodeVarint_le Postcard.u32Limits pairingCode.toNat
        have hcode : (Postcard.u32.encode pairingCode).length ≤ 5 := hcode
        simp only [ClientFrame.format, List.length_append]
        omega
    | reauthConfig interval =>
        have htag := length_encodeTag_le 6
        have hinterval : (ReauthInterval.format.encode interval).length ≤ 5 :=
          Postcard.length_unitEnum_le _ _ interval
        simp only [ClientFrame.format, List.length_append]
        omega
    | sleep => exact (length_encodeTag_le 1).trans (by omega)
    | lock => exact (length_encodeTag_le 2).trans (by omega)
    | powerOff => exact (length_encodeTag_le 3).trans (by omega)
    | stateProbe => exact (length_encodeTag_le 4).trans (by omega)
    | reauthStatus => exact (length_encodeTag_le 5).trans (by omega)
    | revokeAck => exact (length_encodeTag_le 7).trans (by omega)
  simp only [envelopeHeaderLen, isizeMax] at hle ⊢
  omega

/-- Every daemon message passes through an envelope. -/
theorem DaemonFrame.passesEnvelope (frame : DaemonFrame) (nonce : UInt64) (r : Bytes) :
    PassesEnvelope (DaemonFrame.format.encode frame) nonce r :=
  Protocol.passesEnvelope nonce r frame.length_encode_pos
    (frame.length_encode_le.trans (by decide))

/-- A client message that does not fit an envelope is refused by the encoder. -/
theorem ClientFrame.encodeEnvelope_oversized (frame : ClientFrame) (nonce : UInt64)
    (h : 65527 < (ClientFrame.format.encode frame).length) :
    encodeEnvelope ⟨protocolVersion, nonce, ClientFrame.format.encode frame⟩ =
      .error (.oversizedFrame (9 + (ClientFrame.format.encode frame).length) 65536) := by
  apply Protocol.encodeEnvelope_oversized
  · simp only [envelopeHeaderLen, maxFrameLen]
    omega
  · exact frame.length_encode_lt

/-- Bytes after an encoded value are reported with their number. -/
theorem decodePayload_trailing {T : Type} (form : Postcard.Format T) (frame : T) {s : Bytes}
    (h : s ≠ []) :
    decodePayload form (form.encode frame ++ s) = .error (.trailingBytes s.length) := by
  rw [decodePayload_encode_append, if_pos h]

/-- No encoding of a value is a proper prefix of that of another. -/
theorem encode_prefix_free {T : Type} (form : Postcard.Format T) {f g : T}
    (h : form.encode f <+: form.encode g) : form.encode f = form.encode g := by
  obtain ⟨s, hs⟩ := h
  have hg : form.decode.Reads (form.encode f ++ s) g := hs ▸ form.reads g
  obtain ⟨rfl, -⟩ := (form.reads f).prefix_free hg
  simpa using hs

/-- Every daemon message and every client message that fits an envelope
survives the round trip, longer client messages are refused, and no payload is a
proper prefix of another. -/
theorem message_stack_round_trip :
    (∀ (f : DaemonFrame) (nonce : UInt64) (r : Bytes), ∃ payload,
      encodeDaemonFrame f = .ok payload ∧ PassesEnvelope payload nonce r ∧
        decodeDaemonFrame payload = .ok f) ∧
    (∀ (f : ClientFrame) (nonce : UInt64) (r : Bytes), ∃ payload,
      encodeClientFrame f = .ok payload ∧
        (payload.length ≤ 65527 →
          PassesEnvelope payload nonce r ∧ decodeClientFrame payload = .ok f) ∧
        (65527 < payload.length →
          encodeEnvelope ⟨protocolVersion, nonce, payload⟩ =
            .error (.oversizedFrame (9 + payload.length) 65536))) ∧
    (∀ (f : DaemonFrame) (s : Bytes), s ≠ [] → ∃ payload,
      encodeDaemonFrame f = .ok payload ∧
        decodeDaemonFrame (payload ++ s) = .error (.trailingBytes s.length)) ∧
    (∀ (f : ClientFrame) (s : Bytes), s ≠ [] → ∃ payload,
      encodeClientFrame f = .ok payload ∧
        decodeClientFrame (payload ++ s) = .error (.trailingBytes s.length)) ∧
    (∀ (f g : DaemonFrame) (p q : Bytes), encodeDaemonFrame f = .ok p →
      encodeDaemonFrame g = .ok q → p <+: q → p = q) ∧
    (∀ (f g : ClientFrame) (p q : Bytes), encodeClientFrame f = .ok p →
      encodeClientFrame g = .ok q → p <+: q → p = q) := by
  refine ⟨?_, ?_, ?_, ?_, ?_, ?_⟩
  · intro f nonce r
    exact ⟨_, rfl, f.passesEnvelope nonce r, decodePayload_encode DaemonFrame.format f⟩
  · intro f nonce r
    refine ⟨_, rfl, ?_, f.encodeEnvelope_oversized nonce⟩
    intro hlen
    exact ⟨passesEnvelope nonce r f.length_encode_pos hlen,
      decodePayload_encode ClientFrame.format f⟩
  · intro f s hs
    exact ⟨_, rfl, decodePayload_trailing DaemonFrame.format f hs⟩
  · intro f s hs
    exact ⟨_, rfl, decodePayload_trailing ClientFrame.format f hs⟩
  · rintro f g _ _ ⟨rfl⟩ ⟨rfl⟩ hfront
    exact encode_prefix_free DaemonFrame.format hfront
  · rintro f g _ _ ⟨rfl⟩ ⟨rfl⟩ hfront
    exact encode_prefix_free ClientFrame.format hfront

end Protocol
end WakeMyPc
