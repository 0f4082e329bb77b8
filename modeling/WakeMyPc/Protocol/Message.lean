import WakeMyPc.Protocol.Postcard

/-!
# Messages of the wire protocol

The two message enumerations with their nested enumerations, their serialised
forms, and the encoding and decoding of one message as one payload.  The order
of the variants is their wire tag.

Main results:

- Definitions `ClientFrame.format` and `DaemonFrame.format`: the two serialised
  forms, each with its round trip.
- Theorem `DaemonFrame.length_encode_le`: every daemon message is short.
-/

namespace WakeMyPc
namespace Protocol

open Foundations
open Postcard (Format encodeVarint decodeVarint u32Limits)

/-! ## Message types -/

/-- SHA-256 of a certificate's public key: the identity of a peer. -/
structure SpkiHash where
  bytes : Bytes
  length_eq : bytes.length = 32
deriving DecidableEq

/-- What the PC is doing. -/
inductive PcState where
  | off
  | sleeping
  | onLoggedOut
  | onLocked
  | onLoggedIn
deriving DecidableEq

/-- The choices of the re-auth window; `off` disables it. -/
inductive ReauthInterval where
  | off
  | oneDay
  | sevenDays
  | thirtyDays
deriving DecidableEq

/-- Error codes that travel on the wire. -/
inductive ProtocolError where
  | notPaired
  | revoked
  | requiresReauth
  | versionMismatch
  | malformedFrame
  | nonceReplay
  | unsupported
  | internal
deriving DecidableEq

/-- Messages from a client to the daemon. -/
inductive ClientFrame where
  | pair (phoneName : RustString) (pairingCode : UInt32)
  | sleep
  | lock
  | powerOff
  | stateProbe
  | reauthStatus
  | reauthConfig (interval : ReauthInterval)
  | revokeAck
deriving DecidableEq

/-- Messages from the daemon to a client. -/
inductive DaemonFrame where
  | ack (requestNonce : UInt64)
  | stateReport (state : PcState)
  | revoke (daemonSpki : SpkiHash) (revokeNonce : UInt64)
  | error (requestNonce : UInt64) (code : ProtocolError)
  | reauthInfo (lastAuthenticatedAtUnixMs : UInt64) (interval : ReauthInterval)
      (expiresAtUnixMs : UInt64)
deriving DecidableEq

/-! ## Errors of encoding and decoding -/

/-- What the encode and decode functions report to their caller. -/
inductive Error where
  | encoding (cause : Postcard.Error)
  | decoding (cause : Postcard.Error)
  | oversizedFrame (len max : ℕ)
  | undersizedFrame (len min : ℕ)
  | versionMismatch (got expected : UInt8)
  | trailingBytes (trailing : ℕ)
  | lengthOverflow
deriving DecidableEq

/-- The wire code of an error, without its detail. -/
def Error.toWireCode : Error → ProtocolError
  | .versionMismatch _ _ => .versionMismatch
  | .encoding _ => .malformedFrame
  | .decoding _ => .malformedFrame
  | .oversizedFrame _ _ => .malformedFrame
  | .undersizedFrame _ _ => .malformedFrame
  | .trailingBytes _ => .malformedFrame
  | .lengthOverflow => .malformedFrame

/-! ## Serialised forms -/

/-- The check that a byte string is as long as a hash. -/
def SpkiHash.ofBytes (bs : Bytes) : Option SpkiHash :=
  if h : bs.length = 32 then some ⟨bs, h⟩ else none

theorem SpkiHash.ofBytes_bytes (spki : SpkiHash) : SpkiHash.ofBytes spki.bytes = some spki := by
  rw [SpkiHash.ofBytes, dif_pos spki.length_eq]

/-- A hash is serialised as its 32 bytes. -/
def SpkiHash.format : Format SpkiHash where
  encode spki := spki.bytes
  decode := do
    let bytes ← Decoder.take .deserializeUnexpectedEnd 32
    Decoder.ofOption .serdeDeCustom (SpkiHash.ofBytes bytes)
  reads spki := by
    have htake := Decoder.Reads.take Postcard.Error.deserializeUnexpectedEnd spki.bytes
    rw [spki.length_eq] at htake
    exact htake.bind_nil (Decoder.Reads.ofOption _ spki.ofBytes_bytes)

def PcState.index : PcState → ℕ
  | .off => 0
  | .sleeping => 1
  | .onLoggedOut => 2
  | .onLocked => 3
  | .onLoggedIn => 4

def PcState.variant : ℕ → Option PcState
  | 0 => some .off
  | 1 => some .sleeping
  | 2 => some .onLoggedOut
  | 3 => some .onLocked
  | 4 => some .onLoggedIn
  | _ => none

def PcState.format : Format PcState :=
  Postcard.unitEnum PcState.index PcState.variant
    (fun s => by cases s <;> decide) (fun s => by cases s <;> rfl)

def ReauthInterval.index : ReauthInterval → ℕ
  | .off => 0
  | .oneDay => 1
  | .sevenDays => 2
  | .thirtyDays => 3

def ReauthInterval.variant : ℕ → Option ReauthInterval
  | 0 => some .off
  | 1 => some .oneDay
  | 2 => some .sevenDays
  | 3 => some .thirtyDays
  | _ => none

def ReauthInterval.format : Format ReauthInterval :=
  Postcard.unitEnum ReauthInterval.index ReauthInterval.variant
    (fun i => by cases i <;> decide) (fun i => by cases i <;> rfl)

def ProtocolError.index : ProtocolError → ℕ
  | .notPaired => 0
  | .revoked => 1
  | .requiresReauth => 2
  | .versionMismatch => 3
  | .malformedFrame => 4
  | .nonceReplay => 5
  | .unsupported => 6
  | .internal => 7

def ProtocolError.variant : ℕ → Option ProtocolError
  | 0 => some .notPaired
  | 1 => some .revoked
  | 2 => some .requiresReauth
  | 3 => some .versionMismatch
  | 4 => some .malformedFrame
  | 5 => some .nonceReplay
  | 6 => some .unsupported
  | 7 => some .internal
  | _ => none

def ProtocolError.format : Format ProtocolError :=
  Postcard.unitEnum ProtocolError.index ProtocolError.variant
    (fun e => by cases e <;> decide) (fun e => by cases e <;> rfl)

/-- The varint that starts a message: the index of its variant. -/
def encodeTag (tag : ℕ) : Bytes :=
  encodeVarint u32Limits tag

/-- Read the index of a variant. -/
def decodeTag : Decoder UInt8 Postcard.Error ℕ :=
  decodeVarint u32Limits

private theorem reads_tag {tag : ℕ} (h : tag < 2 ^ 32) : decodeTag.Reads (encodeTag tag) tag :=
  Postcard.reads_encodeVarint u32Limits (Postcard.u32Limits_bound ▸ h)

/-- The serialised form of a client message. -/
def ClientFrame.format : Format ClientFrame where
  encode
    | .pair phoneName pairingCode =>
        encodeTag 0 ++ (Postcard.string.encode phoneName ++ Postcard.u32.encode pairingCode)
    | .sleep => encodeTag 1
    | .lock => encodeTag 2
    | .powerOff => encodeTag 3
    | .stateProbe => encodeTag 4
    | .reauthStatus => encodeTag 5
    | .reauthConfig interval => encodeTag 6 ++ ReauthInterval.format.encode interval
    | .revokeAck => encodeTag 7
  decode := do
    match ← decodeTag with
    | 0 =>
        let phoneName ← Postcard.string.decode
        let pairingCode ← Postcard.u32.decode
        return .pair phoneName pairingCode
    | 1 => return .sleep
    | 2 => return .lock
    | 3 => return .powerOff
    | 4 => return .stateProbe
    | 5 => return .reauthStatus
    | 6 =>
        let interval ← ReauthInterval.format.decode
        return .reauthConfig interval
    | 7 => return .revokeAck
    | _ => Decoder.fail .serdeDeCustom
  reads frame := by
    cases frame with
    | pair phoneName pairingCode =>
        exact (reads_tag (by decide)).bind ((Postcard.string.reads phoneName).bind
          ((Postcard.u32.reads pairingCode).bind_nil (Decoder.Reads.pure _)))
    | reauthConfig interval =>
        exact (reads_tag (by decide)).bind
          ((ReauthInterval.format.reads interval).bind_nil (Decoder.Reads.pure _))
    | sleep => exact (reads_tag (by decide)).bind_nil (Decoder.Reads.pure _)
    | lock => exact (reads_tag (by decide)).bind_nil (Decoder.Reads.pure _)
    | powerOff => exact (reads_tag (by decide)).bind_nil (Decoder.Reads.pure _)
    | stateProbe => exact (reads_tag (by decide)).bind_nil (Decoder.Reads.pure _)
    | reauthStatus => exact (reads_tag (by decide)).bind_nil (Decoder.Reads.pure _)
    | revokeAck => exact (reads_tag (by decide)).bind_nil (Decoder.Reads.pure _)

/-- The serialised form of a daemon message. -/
def DaemonFrame.format : Format DaemonFrame where
  encode
    | .ack requestNonce => encodeTag 0 ++ Postcard.u64.encode requestNonce
    | .stateReport state => encodeTag 1 ++ PcState.format.encode state
    | .revoke daemonSpki revokeNonce =>
        encodeTag 2 ++ (SpkiHash.format.encode daemonSpki ++ Postcard.u64.encode revokeNonce)
    | .error requestNonce code =>
        encodeTag 3 ++ (Postcard.u64.encode requestNonce ++ ProtocolError.format.encode code)
    | .reauthInfo lastAuthenticatedAtUnixMs interval expiresAtUnixMs =>
        encodeTag 4 ++ (Postcard.u64.encode lastAuthenticatedAtUnixMs ++
          (ReauthInterval.format.encode interval ++ Postcard.u64.encode expiresAtUnixMs))
  decode := do
    match ← decodeTag with
    | 0 =>
        let requestNonce ← Postcard.u64.decode
        return .ack requestNonce
    | 1 =>
        let state ← PcState.format.decode
        return .stateReport state
    | 2 =>
        let daemonSpki ← SpkiHash.format.decode
        let revokeNonce ← Postcard.u64.decode
        return .revoke daemonSpki revokeNonce
    | 3 =>
        let requestNonce ← Postcard.u64.decode
        let code ← ProtocolError.format.decode
        return .error requestNonce code
    | 4 =>
        let lastAuthenticatedAtUnixMs ← Postcard.u64.decode
        let interval ← ReauthInterval.format.decode
        let expiresAtUnixMs ← Postcard.u64.decode
        return .reauthInfo lastAuthenticatedAtUnixMs interval expiresAtUnixMs
    | _ => Decoder.fail .serdeDeCustom
  reads frame := by
    cases frame with
    | ack requestNonce =>
        exact (reads_tag (by decide)).bind
          ((Postcard.u64.reads requestNonce).bind_nil (Decoder.Reads.pure _))
    | stateReport state =>
        exact (reads_tag (by decide)).bind
          ((PcState.format.reads state).bind_nil (Decoder.Reads.pure _))
    | revoke daemonSpki revokeNonce =>
        exact (reads_tag (by decide)).bind ((SpkiHash.format.reads daemonSpki).bind
          ((Postcard.u64.reads revokeNonce).bind_nil (Decoder.Reads.pure _)))
    | error requestNonce code =>
        exact (reads_tag (by decide)).bind ((Postcard.u64.reads requestNonce).bind
          ((ProtocolError.format.reads code).bind_nil (Decoder.Reads.pure _)))
    | reauthInfo lastAuthenticatedAtUnixMs interval expiresAtUnixMs =>
        exact (reads_tag (by decide)).bind ((Postcard.u64.reads lastAuthenticatedAtUnixMs).bind
          ((ReauthInterval.format.reads interval).bind
            ((Postcard.u64.reads expiresAtUnixMs).bind_nil (Decoder.Reads.pure _))))

/-! ## Payloads -/

/-- Encode a client message as a payload. -/
def encodeClientFrame (frame : ClientFrame) : Except Error Bytes :=
  (Postcard.toAllocvec ClientFrame.format frame).mapError .encoding

/-- Encode a daemon message as a payload. -/
def encodeDaemonFrame (frame : DaemonFrame) : Except Error Bytes :=
  (Postcard.toAllocvec DaemonFrame.format frame).mapError .encoding

/-- Decode a payload that must hold one value and nothing else. -/
def decodePayload {T : Type} (form : Format T) (payload : Bytes) : Except Error T :=
  match Postcard.takeFromBytes form payload with
  | .error e => .error (.decoding e)
  | .ok (frame, rest) =>
      if rest ≠ [] then .error (.trailingBytes rest.length) else .ok frame

/-- Decode a payload as a client message. -/
def decodeClientFrame (payload : Bytes) : Except Error ClientFrame :=
  decodePayload ClientFrame.format payload

/-- Decode a payload as a daemon message. -/
def decodeDaemonFrame (payload : Bytes) : Except Error DaemonFrame :=
  decodePayload DaemonFrame.format payload

@[simp]
theorem encodeClientFrame_eq (frame : ClientFrame) :
    encodeClientFrame frame = .ok (ClientFrame.format.encode frame) :=
  rfl

@[simp]
theorem encodeDaemonFrame_eq (frame : DaemonFrame) :
    encodeDaemonFrame frame = .ok (DaemonFrame.format.encode frame) :=
  rfl

/-- What follows an encoded value inside a payload decides whether it is
accepted. -/
theorem decodePayload_encode_append {T : Type} (form : Format T) (frame : T) (s : Bytes) :
    decodePayload form (form.encode frame ++ s) =
      if s ≠ [] then .error (.trailingBytes s.length) else .ok frame := by
  simp only [decodePayload, Postcard.takeFromBytes, form.reads frame s]

theorem decodePayload_encode {T : Type} (form : Format T) (frame : T) :
    decodePayload form (form.encode frame) = .ok frame := by
  simpa using decodePayload_encode_append form frame []

/-! ## Payload sizes -/

theorem length_encodeTag_le (tag : ℕ) : (encodeTag tag).length ≤ 5 :=
  Postcard.length_encodeVarint_le u32Limits tag

/-- A varint is never empty, so no payload is. -/
theorem length_encodeTag_pos (tag : ℕ) : 0 < (encodeTag tag).length := by
  simp only [encodeTag, encodeVarint, writeVarint]
  split <;> simp

/-- Every daemon message is short. -/
theorem DaemonFrame.length_encode_le (frame : DaemonFrame) :
    (DaemonFrame.format.encode frame).length ≤ 47 := by
  cases frame with
  | ack requestNonce =>
      have htag := length_encodeTag_le 0
      have hnonce := Postcard.length_u64_le requestNonce
      simp only [DaemonFrame.format, List.length_append]
      omega
  | stateReport state =>
      have htag := length_encodeTag_le 1
      have hstate : (PcState.format.encode state).length ≤ 5 :=
        Postcard.length_unitEnum_le _ _ state
      simp only [DaemonFrame.format, List.length_append]
      omega
  | revoke daemonSpki revokeNonce =>
      have htag := length_encodeTag_le 2
      have hspki : (SpkiHash.format.encode daemonSpki).length = 32 := daemonSpki.length_eq
      have hnonce := Postcard.length_u64_le revokeNonce
      simp only [DaemonFrame.format, List.length_append]
      omega
  | error requestNonce code =>
      have htag := length_encodeTag_le 3
      have hnonce := Postcard.length_u64_le requestNonce
      have hcode : (ProtocolError.format.encode code).length ≤ 5 :=
        Postcard.length_unitEnum_le _ _ code
      simp only [DaemonFrame.format, List.length_append]
      omega
  | reauthInfo lastAuthenticatedAtUnixMs interval expiresAtUnixMs =>
      have htag := length_encodeTag_le 4
      have hlast := Postcard.length_u64_le lastAuthenticatedAtUnixMs
      have hinterval : (ReauthInterval.format.encode interval).length ≤ 5 :=
        Postcard.length_unitEnum_le _ _ interval
      have hexpires := Postcard.length_u64_le expiresAtUnixMs
      simp only [DaemonFrame.format, List.length_append]
      omega

theorem DaemonFrame.length_encode_pos (frame : DaemonFrame) :
    0 < (DaemonFrame.format.encode frame).length := by
  cases frame <;> simp only [DaemonFrame.format, List.length_append] <;>
    exact Nat.add_pos_left (length_encodeTag_pos _) _

theorem ClientFrame.length_encode_pos (frame : ClientFrame) :
    0 < (ClientFrame.format.encode frame).length := by
  cases frame <;> simp only [ClientFrame.format, List.length_append] <;>
    first
      | exact length_encodeTag_pos _
      | exact Nat.add_pos_left (length_encodeTag_pos _) _

end Protocol
end WakeMyPc
