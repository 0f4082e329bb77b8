import WakeMyPc.Crypto.Nonce
import WakeMyPc.Protocol.Message
import Mathlib.Data.Finset.Dedup

/-!
# Pinned keys

A server accepts a client certificate when the hash of its public key is in a
set of pins, or, while a pairing window is open, whenever it can be parsed.

Main results:

- Theorem `verifyClientCert_pinned_iff`: a pinned verifier accepts exactly the
  certificates whose key is in its set.
-/

namespace WakeMyPc
namespace Crypto

open Protocol (SpkiHash)

/-- A set of pinned keys. -/
structure PinSet where
  pins : Finset SpkiHash
deriving DecidableEq

/-- The set of the listed pins. -/
def PinSet.withPins (pins : List SpkiHash) : PinSet :=
  ⟨pins.toFinset⟩

def PinSet.contains (s : PinSet) (pin : SpkiHash) : Bool :=
  decide (pin ∈ s.pins)

/-- How a verifier decides. -/
inductive VerifierMode where
  | pinned (pinset : PinSet)
  | pairingWindow
deriving DecidableEq

/-- Why a verifier refuses a certificate. -/
inductive VerifyError where
  | spkiExtract (cause : Error)
  | notPinned
deriving DecidableEq

section Verifier

-- the hash of the public key of a certificate, by the X.509 parser and SHA-256
variable (extractSpkiHash : Bytes → Except Error SpkiHash)

/-- Decide on the leaf certificate of a client. -/
def verifyClientCert (mode : VerifierMode) (endEntity : Bytes) : Except VerifyError Unit :=
  match mode with
  | .pinned pinset =>
      match extractSpkiHash endEntity with
      | .error e => .error (.spkiExtract e)
      | .ok pin => if pinset.contains pin then .ok () else .error .notPinned
  | .pairingWindow =>
      match extractSpkiHash endEntity with
      | .error e => .error (.spkiExtract e)
      | .ok _ => .ok ()

/-- A pinned verifier accepts exactly the certificates whose key is in its set. -/
theorem verifyClientCert_pinned_iff (pinset : PinSet) (endEntity : Bytes) :
    verifyClientCert extractSpkiHash (.pinned pinset) endEntity = .ok () ↔
      ∃ pin ∈ pinset.pins, extractSpkiHash endEntity = .ok pin := by
  cases h : extractSpkiHash endEntity with
  | error e => simp [verifyClientCert, h]
  | ok pin =>
      by_cases hmem : pin ∈ pinset.pins
      · simp [verifyClientCert, h, PinSet.contains, hmem]
      · simp [verifyClientCert, h, PinSet.contains, hmem]

end Verifier
end Crypto
end WakeMyPc
