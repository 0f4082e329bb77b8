import WakeMyPc.Crypto.Pin
import WakeMyPc.Daemon.Effects
import WakeMyPc.Daemon.Reauth
import WakeMyPc.Protocol.Envelope

/-!
# One connection

The program of a connection task: map the peer to its pairing, record its
address, then read, check, dispatch and answer one envelope after the other.

Main results:

- Definition `run`: the whole task after the TLS handshake.
- Definition `dispatch`: the answer to one message.
-/

namespace WakeMyPc
namespace Daemon

open Foundations
open Foundations.Prog (loop)
open Protocol
open Crypto (NonceCounter PinSet)

/-- Bytes of one read. -/
def readChunk : ℕ := 4096

/-- Why a connection task ends other than by returning normally. -/
inductive RunError where
  | tlsHandshake (cause : IoError)
  | noCertificates
  | emptyCertChain
  | extractSpki (cause : Crypto.Error)
  | io (cause : IoError)
  | malformedFraming (cause : Protocol.Error)
  | peerClosedMidFrame
  | sendNonceOverflowed
  | encode (cause : Protocol.Error)
deriving DecidableEq

/-! ## Reading -/

/-- Try to parse what is buffered, and drain what was parsed. -/
def parseBuffer (buf : Bytes) : Except Protocol.Error (Option (Envelope × Bytes)) :=
  match decodeEnvelope buf with
  | .ok (.frame envelope remainder) =>
      let consumed := buf.length - remainder.length
      .ok (some (envelope, buf.drop consumed))
  | .ok .incomplete => .ok none
  | .error e => .error e

/-- One round of reading an envelope. -/
def readEnvelopeRound (buf : Bytes) : Task (Bytes ⊕ Except RunError (Option Envelope × Bytes)) :=
  match parseBuffer buf with
  | .error e => return .inr (.error (.malformedFraming e))
  | .ok (some (envelope, buf)) => return .inr (.ok (some envelope, buf))
  | .ok none => do
      match ← perform .recv with
      | .error e => return .inr (.error (.io e))
      | .ok chunk =>
          if chunk.length = 0 then
            if buf.isEmpty then return .inr (.ok (none, buf))
            else return .inr (.error .peerClosedMidFrame)
          else return .inl (buf ++ chunk)

/-- Read one envelope, growing the buffer as bytes arrive; there is none at a
clean end of the stream. -/
def readEnvelope (rounds : ℕ) (buf : Bytes) : Task (Except RunError (Option Envelope × Bytes)) :=
  loop readEnvelopeRound rounds buf

/-! ## Writing -/

/-- Write one message with the next nonce. -/
def writeFrame (nonces : NonceCounter) (frame : DaemonFrame) :
    Task (Except RunError Bool × NonceCounter) :=
  match nonces.send.issue with
  | (none, _) => return (.error .sendNonceOverflowed, nonces)
  | (some nonce, send) =>
      let nonces := { nonces with send }
      match encodeDaemonFrame frame with
      | .error e => return (.error (.encode e), nonces)
      | .ok payload =>
          match encodeEnvelope ⟨protocolVersion, nonce, payload⟩ with
          | .error e => return (.error (.encode e), nonces)
          | .ok bytes => do
              match ← perform (.send bytes) with
              | .error e => return (.error (.io e), nonces)
              | .ok () => return (.ok true, nonces)

/-- Some answers close the connection. -/
def responseClosesConnection : DaemonFrame → Bool
  | .error _ code =>
      match code with
      | .notPaired => true
      | .revoked => true
      | .versionMismatch => true
      | .malformedFrame => true
      | .nonceReplay => true
      | _ => false
  | _ => false

/-- Write an error outside the counted messages, and close. -/
def sendErrorAndClose (requestNonce : UInt64) (code : ProtocolError) :
    Task (Except RunError Unit) :=
  match encodeDaemonFrame (.error requestNonce code) with
  | .error e => return .error (.encode e)
  | .ok payload =>
      match encodeEnvelope ⟨protocolVersion, 1, payload⟩ with
      | .error e => return .error (.encode e)
      | .ok bytes => do
          let _ ← perform (.send bytes)
          let _ ← perform .shutdown
          return .ok ()

/-! ## Dispatch -/

/-- The answer to a handler call. -/
def handlerToResponse (result : Except OsHandlerError Unit) (requestNonce : UInt64) :
    DaemonFrame :=
  match result with
  | .ok () => .ack requestNonce
  | .error e => .error requestNonce e.toWireCode

/-- A state-changing command: refused in the locked state, else one handler call. -/
def stateChange (reauthState : ReauthState) (requestNonce : UInt64)
    (handler : Task (Except OsHandlerError Unit)) : Task DaemonFrame :=
  match reauthState.blockStateChange with
  | some blocked => return .error requestNonce blocked
  | none => do
      let result ← handler
      return handlerToResponse result requestNonce

/-- The answer to one message. -/
def dispatch (peerSpki : SpkiHash) (frame : ClientFrame) (requestNonce : UInt64) :
    Task DaemonFrame := do
  let nowMs ← perform .clock
  let snap ← perform .snapshot
  let reauthState := evaluate nowMs snap.lastAuthenticatedAtUnixMs snap.reauthIntervalDays
  match frame with
  | .pair _ _ => return .error requestNonce .notPaired
  | .sleep => stateChange reauthState requestNonce (perform .sleep)
  | .lock => stateChange reauthState requestNonce (perform .lock)
  | .powerOff => stateChange reauthState requestNonce (perform .powerOff)
  | .stateProbe =>
      match ← perform .currentSessionState with
      | .ok s => return .stateReport s
      | .error _ => return .error requestNonce .internal
  | .reauthStatus =>
      return .reauthInfo snap.lastAuthenticatedAtUnixMs (intervalFromDays snap.reauthIntervalDays)
        (expiresAtUnixMs snap.lastAuthenticatedAtUnixMs snap.reauthIntervalDays)
  | .reauthConfig interval =>
      let newDays := intervalToDays interval
      let _ ← perform (.write (.reauthInterval newDays))
      match ← save with
      | .error _ => return .error requestNonce .internal
      | .ok () => return .ack requestNonce
  | .revokeAck =>
      let removed : ℕ ← perform (.write (.removeRevoked peerSpki))
      if removed > 0 then
        -- a failed save is only logged
        let _ ← save
        return .ack requestNonce
      else return .ack requestNonce

/-! ## The task -/

/-- What the protocol loop keeps from one envelope to the next. -/
structure LoopState where
  nonces : NonceCounter
  buf : Bytes
deriving DecidableEq

/-- Check, dispatch and answer one envelope. -/
def serveEnvelope (peerSpki : SpkiHash) (s : LoopState) (envelope : Envelope) :
    Task (LoopState ⊕ Except RunError Unit) :=
  match s.nonces.recv.accept envelope.nonce with
  | (.error _, _) => do
      let result ← sendErrorAndClose envelope.nonce .nonceReplay
      return .inr result
  | (.ok (), recv) =>
      let nonces := { s.nonces with recv }
      match decodeClientFrame envelope.payload with
      | .error e => do
          let result ← sendErrorAndClose envelope.nonce e.toWireCode
          return .inr result
      | .ok frame => do
          let response ← dispatch peerSpki frame envelope.nonce
          match ← writeFrame nonces response with
          | (.error e, _) => return .inr (.error e)
          | (.ok written, nonces) =>
              if !written then return .inr (.ok ())
              else if responseClosesConnection response then do
                let _ ← perform .shutdown
                return .inr (.ok ())
              else return .inl { s with nonces }

/-- One round of the protocol loop. -/
def protocolRound (reads : ℕ) (peerSpki : SpkiHash) (s : LoopState) :
    Task (LoopState ⊕ Except RunError Unit) := do
  match ← readEnvelope reads s.buf with
  | .error e => return .inr (.error e)
  | .ok (none, _) => return .inr (.ok ())
  | .ok (some envelope, buf) => serveEnvelope peerSpki { s with buf } envelope

/-- The protocol loop with fresh counters and an empty buffer. -/
def protocolLoop (rounds reads : ℕ) (peerSpki : SpkiHash) : Task (Except RunError Unit) :=
  loop (protocolRound reads peerSpki) rounds ⟨NonceCounter.new, []⟩

/-- Whether the peer has a live pairing. -/
def preFlight (peerSpki : SpkiHash) : Task Bool := do
  let snap ← perform .snapshot
  return (snap.activePairing peerSpki).isSome

/-- Record the address of the peer; a failed save is only logged. -/
def recordAddress (peerSpki : SpkiHash) (peerAddr : SocketAddr) : Task Unit := do
  let changed : Bool ← perform (.write (.lastKnownAddress peerSpki peerAddr))
  if changed then
    let _ ← save
    return ()
  else return ()

section Run

-- the hash of the public key of a certificate, by the X.509 parser and SHA-256
variable (extractSpkiHash : Bytes → Except Crypto.Error SpkiHash)

/-- The key of the leaf of a certificate chain. -/
def leafSpki (certs : Option (List Bytes)) : Except RunError SpkiHash :=
  match certs with
  | none => .error .noCertificates
  | some [] => .error .emptyCertChain
  | some (leaf :: _) =>
      match extractSpkiHash leaf with
      | .error e => .error (.extractSpki e)
      | .ok spki => .ok spki

/-- The key of the leaf certificate that the peer presented. -/
def peerSpkiFromTls : Task (Except RunError SpkiHash) := do
  let certs ← perform .peerCertificates
  return leafSpki extractSpkiHash certs

/-- The task of one connection after its TLS handshake. -/
def run (rounds reads : ℕ) (peerAddr : SocketAddr) : Task (Except RunError Unit) := do
  match ← peerSpkiFromTls extractSpkiHash with
  | .error e => return .error e
  | .ok peerSpki =>
      if ← preFlight peerSpki then
        recordAddress peerSpki peerAddr
        protocolLoop rounds reads peerSpki
      else sendErrorAndClose 0 .revoked

end Run

/-! ## The listener -/

/-- The pins of the phones that are active now. -/
def activePins (c : KeystoreContents) : PinSet :=
  PinSet.withPins ((c.pairings.filter (·.isActive)).map (·.clientSpki))

def buildAcceptor : Task PinSet := do
  let snap ← perform .snapshot
  return activePins snap

/-- What the server does for one accepted connection. -/
def acceptConnection (extractSpkiHash : Bytes → Except Crypto.Error SpkiHash) (rounds reads : ℕ)
    (peerAddr : SocketAddr) : Task (Except RunError Unit) := do
  let pins ← buildAcceptor
  match ← perform (.handshake (.pinned pins)) with
  | .error e => return .error (.tlsHandshake e)
  | .ok () => run extractSpkiHash rounds reads peerAddr

/-- A key is pinned exactly when it has a live pairing. -/
theorem mem_activePins (c : KeystoreContents) (spki : SpkiHash) :
    spki ∈ (activePins c).pins ↔ c.HasActive spki := by
  simp [activePins, PinSet.withPins, KeystoreContents.HasActive, PairingRecord.isActive, and_assoc]

end Daemon
end WakeMyPc
