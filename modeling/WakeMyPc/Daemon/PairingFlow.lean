import WakeMyPc.Daemon.Admin
import WakeMyPc.Daemon.Connection

/-!
# The pairing window

The `pair` subcommand loads the keystore or starts a fresh one, opens a window, and
takes one message from each connection until a phone is paired or the window closes.

Main results:

- Definition `PairingFlow.run`: the whole subcommand.
- Definition `PairingFlow.handlePairAttempt`: one connection.
-/

namespace WakeMyPc
namespace Daemon

open Foundations
open Foundations.Prog (loop)
open Protocol
open Crypto (Draw NonceCounter PairingHandshake PairingTransition)

/-! ## Reading -/

/-- One round of reading the only envelope of a pairing connection. -/
def readOneEnvelopeRound (buf : Bytes) : Task (Bytes ⊕ Except RunError (Envelope × Bytes)) :=
  match parseBuffer buf with
  | .error e => return .inr (.error (.malformedFraming e))
  | .ok (some (envelope, buf)) => return .inr (.ok (envelope, buf))
  | .ok none => do
      match ← perform .recv with
      | .error e => return .inr (.error (.io e))
      | .ok chunk =>
          if chunk.length = 0 then return .inr (.error .peerClosedMidFrame)
          else return .inl (buf ++ chunk)

/-- Read one envelope, growing the buffer as bytes arrive. -/
def readOneEnvelope (rounds : ℕ) (buf : Bytes) : Task (Except RunError (Envelope × Bytes)) :=
  loop readOneEnvelopeRound rounds buf

namespace PairingFlow

/-! ## Writing -/

/-- Write one message with the next nonce. -/
def sendFrame (nonces : NonceCounter) (frame : DaemonFrame) :
    Task (Except RunError Unit × NonceCounter) := do
  let (result, nonces) ← writeFrame nonces frame
  return (result.map fun _ => (), nonces)

def sendAck (nonces : NonceCounter) (requestNonce : UInt64) :
    Task (Except RunError Unit × NonceCounter) :=
  sendFrame nonces (.ack requestNonce)

def sendError (nonces : NonceCounter) (requestNonce : UInt64) (code : ProtocolError) :
    Task (Except RunError Unit × NonceCounter) :=
  sendFrame nonces (.error requestNonce code)

/-! ## One connection -/

/-- Why a pairing connection ends without a verdict. -/
inductive AttemptError where
  | connection (cause : RunError)
  | keystore (cause : KeystoreError)
  | unexpectedTransition (transition : PairingTransition)
deriving DecidableEq

/-- What a pairing window keeps from one connection to the next. -/
structure WindowState where
  handshake : PairingHandshake
  contents : KeystoreContents
deriving DecidableEq

/-- Refuse a message; the window stays as it is. -/
def refuse (s : WindowState) (requestNonce : UInt64) (code : ProtocolError) :
    Task (Except AttemptError Bool × WindowState) := do
  match ← sendError NonceCounter.new requestNonce code with
  | (.error e, _) => return (.error (.connection e), s)
  | (.ok (), _) => return (.ok false, s)

/-- Take an offered code. -/
def takeCode (s : WindowState) (peerSpki : SpkiHash) (requestNonce : UInt64)
    (phoneName : RustString) (pairingCode : UInt32) :
    Task (Except AttemptError Bool × WindowState) := do
  let now ← perform .clock
  match s.handshake.acceptPair now pairingCode phoneName peerSpki with
  | (.succeeded record, handshake) =>
      let contents := (Change.pair (PairingRecord.fromCore record)).apply s.contents
      let s : WindowState := ⟨handshake, contents⟩
      match ← perform (.saveFile contents) with
      | .error e => return (.error (.keystore e), s)
      | .ok () =>
          match ← sendAck NonceCounter.new requestNonce with
          | (.error e, _) => return (.error (.connection e), s)
          | (.ok (), _) => do
              let _ ← perform .shutdown
              return (.ok true, s)
  | (.rejected _, handshake) =>
      let s : WindowState := { s with handshake }
      match ← sendError NonceCounter.new requestNonce .notPaired with
      | (.error e, _) => return (.error (.connection e), s)
      | (.ok (), _) => do
          let _ ← perform .shutdown
          return (.ok false, s)
  | (other, handshake) => return (.error (.unexpectedTransition other), { s with handshake })

section Run

-- the hash of the public key of a certificate, by the X.509 parser and SHA-256
variable (extractSpkiHash : Bytes → Except Crypto.Error SpkiHash)

/-- Handle one connection: whether it paired a phone, and the window after it. -/
def handlePairAttempt (reads : ℕ) (s : WindowState) :
    Task (Except AttemptError Bool × WindowState) := do
  match ← peerSpkiFromTls extractSpkiHash with
  | .error e => return (.error (.connection e), s)
  | .ok peerSpki =>
      match ← readOneEnvelope reads [] with
      | .error e => return (.error (.connection e), s)
      | .ok (envelope, _) =>
          match decodeClientFrame envelope.payload with
          | .error e => refuse s envelope.nonce e.toWireCode
          | .ok (.pair phoneName pairingCode) =>
              takeCode s peerSpki envelope.nonce phoneName pairingCode
          | .ok _ => refuse s envelope.nonce .unsupported

/-! ## The window -/

/-- Why the subcommand fails. -/
inductive PairError where
  | keystore (cause : KeystoreError)
  | identity (cause : Crypto.Error)
  | unexpectedTransition (transition : PairingTransition)
  | listener (cause : IoError)
  | windowExpired
  | windowClosed
deriving DecidableEq

/-- One draw for the code of a window, with the draws so far. -/
def startRound (now : UInt64) (draws : List Draw) :
    Task (List Draw ⊕ (Except Crypto.Error PairingTransition × PairingHandshake)) := do
  let draw : Draw ← perform .randomBytes
  let draws := draws ++ [draw]
  match PairingHandshake.new.start now Crypto.pairingWindowDefaultMs draws with
  | none => return .inl draws
  | some (result, handshake, _) => return .inr (result, handshake)

/-- One round of the accept loop. -/
def acceptRound (reads : ℕ) (s : WindowState) : Task (WindowState ⊕ Except PairError Unit) := do
  let now ← perform .clock
  match s.handshake.tick now with
  | (.expired, _) => return .inr (.error .windowExpired)
  | (_, handshake) =>
      let s : WindowState := { s with handshake }
      match ← perform .acceptTcp with
      | none => return .inr (.error .windowExpired)
      | some (.error e) => return .inr (.error (.listener e))
      | some (.ok ()) =>
          match ← perform (.handshake .pairingWindow) with
          | .error _ => return .inl s
          | .ok () =>
              match ← handlePairAttempt extractSpkiHash reads s with
              | (.ok true, _) => return .inr (.ok ())
              | (_, s) =>
                  -- a failed attempt is only logged
                  if s.handshake.state = .idle then return .inr (.error .windowClosed)
                  else return .inl s

/-- Open a window on loaded or fresh contents. -/
def openWindow (draws rounds reads : ℕ) (contents : KeystoreContents) :
    Task (Except PairError Unit) := do
  match ← perform (.parseIdentity contents.deviceIdentityBytes) with
  | .error e => return .error (.identity e)
  | .ok () =>
      let now ← perform .clock
      match ← loop (startRound now) draws [] with
      | (.error e, _) => return .error (.identity e)
      | (.ok (.started _), handshake) =>
          match ← perform .bindListener with
          | .error e => return .error (.listener e)
          | .ok () => loop (acceptRound extractSpkiHash reads) rounds ⟨handshake, contents⟩
      | (.ok other, _) => return .error (.unexpectedTransition other)

/-- The `pair` subcommand. -/
def run (draws rounds reads : ℕ) : Task (Except PairError Unit) := do
  match ← perform .ensureDataDir with
  | .error e => return .error (.keystore e)
  | .ok () =>
      match ← perform .load with
      | .error e => return .error (.keystore e)
      | .ok (some contents) => openWindow extractSpkiHash draws rounds reads contents
      | .ok none =>
          match ← perform .generateIdentity with
          | .error e => return .error (.identity e)
          | .ok identity =>
              openWindow extractSpkiHash draws rounds reads (.fromIdentity identity)

end Run
end PairingFlow
end Daemon
end WakeMyPc
