import WakeMyPc.Crypto.Pairing

/-!
# Keystore contents

What the daemon stores: its identity, one record for each paired phone, the
re-auth interval, and the time of the last credential prompt.

Main results:

- Theorem `activePairing_isSome_iff`: a key has a live pairing exactly when some
  record of it is not revoked.
-/

namespace WakeMyPc
namespace Daemon

open Protocol (SpkiHash)

/-- An address that a phone connects from. -/
inductive SocketAddr where
  | v4 (ip : BitVec 32) (port : UInt16)
  | v6 (ip : BitVec 128) (port : UInt16) (flowinfo scopeId : UInt32)
deriving DecidableEq

/-- The record of one paired phone. -/
structure PairingRecord where
  phoneName : RustString
  clientSpki : SpkiHash
  pairedAtUnixMs : UInt64
  lastAuthenticatedAtUnixMs : UInt64
  revoked : Bool
  revokePending : Bool
  lastKnownAddress : Option SocketAddr
deriving DecidableEq

/-- The record of a pairing that just succeeded. -/
def PairingRecord.fromCore (record : Crypto.PairingRecord) : PairingRecord where
  phoneName := record.phoneName
  clientSpki := record.clientSpki
  pairedAtUnixMs := record.pairedAtUnixMs
  lastAuthenticatedAtUnixMs := record.pairedAtUnixMs
  revoked := false
  revokePending := false
  lastKnownAddress := none

/-- The pairing belongs in the live pin set. -/
def PairingRecord.isActive (p : PairingRecord) : Bool :=
  !p.revoked

/-- The daemon's key and certificate. -/
structure DeviceIdentityBytes where
  keyPkcs8Der : Bytes
  certDer : Bytes
deriving DecidableEq

/-- The plaintext of the keystore. -/
structure KeystoreContents where
  keyPkcs8Der : Bytes
  certDer : Bytes
  pairings : List PairingRecord
  reauthIntervalDays : UInt8
  lastAuthenticatedAtUnixMs : UInt64
deriving DecidableEq

namespace KeystoreContents

/-- The contents for a fresh identity: no pairings and seven days. -/
def fromIdentity (identity : DeviceIdentityBytes) : KeystoreContents where
  keyPkcs8Der := identity.keyPkcs8Der
  certDer := identity.certDer
  pairings := []
  reauthIntervalDays := 7
  lastAuthenticatedAtUnixMs := 0

/-- The stored key and certificate. -/
def deviceIdentityBytes (c : KeystoreContents) : DeviceIdentityBytes :=
  ⟨c.keyPkcs8Der, c.certDer⟩

/-- The live pairing of a key, if it has one. -/
def activePairing (c : KeystoreContents) (clientSpki : SpkiHash) : Option PairingRecord :=
  c.pairings.find? fun p => p.isActive && p.clientSpki == clientSpki

/-- The key has a record that is not revoked. -/
def HasActive (c : KeystoreContents) (clientSpki : SpkiHash) : Prop :=
  ∃ p ∈ c.pairings, p.revoked = false ∧ p.clientSpki = clientSpki

instance (c : KeystoreContents) (clientSpki : SpkiHash) : Decidable (c.HasActive clientSpki) :=
  inferInstanceAs (Decidable (∃ p ∈ c.pairings, _))

/-- A key has a live pairing exactly when some record of it is not revoked. -/
theorem activePairing_isSome_iff (c : KeystoreContents) (clientSpki : SpkiHash) :
    (c.activePairing clientSpki).isSome ↔ c.HasActive clientSpki := by
  simp [activePairing, HasActive, PairingRecord.isActive]

end KeystoreContents

/-- A failed input or output operation; the code looks at none of its detail. -/
inductive IoError where
  | io
deriving DecidableEq

/-- Why a keystore could not be loaded or saved. -/
inductive KeystoreError where
  | io (cause : IoError)
  | encryption (detail : RustString)
  | decode (detail : RustString)
  | formatVersion (got expected : UInt8)
deriving DecidableEq

/-! ## One paired phone -/

theorem length_phoneKey : (List.replicate 32 (1 : UInt8)).length = 32 := rfl

/-- The key of a phone. -/
def phoneKey : SpkiHash :=
  ⟨List.replicate 32 1, length_phoneKey⟩

/-- The address of a phone. -/
def phoneAddress : SocketAddr :=
  .v4 0 4242

theorem size_phone_le : "phone".toByteArray.size ≤ isizeMax := by decide

/-- A pairing that is not revoked. -/
def livePairing : PairingRecord where
  phoneName := ⟨"phone", size_phone_le⟩
  clientSpki := phoneKey
  pairedAtUnixMs := 0
  lastAuthenticatedAtUnixMs := 0
  revoked := false
  revokePending := false
  lastKnownAddress := none

/-- Contents with one live pairing and no re-auth interval. -/
def pairedContents : KeystoreContents where
  keyPkcs8Der := []
  certDer := []
  pairings := [livePairing]
  reauthIntervalDays := 0
  lastAuthenticatedAtUnixMs := 0

end Daemon
end WakeMyPc
