import WakeMyPc.Daemon.Effects

/-!
# Local subcommands

The subcommands that change the keystore file load it, change the loaded contents,
and save them.

Main results:

- Definitions `revoke`, `reauthNow` and `uninstallRevokeBroadcast`: the subcommands.
- Definition `Change`: what a subcommand does to the contents it loaded.
-/

namespace WakeMyPc
namespace Daemon

/-! ## Changes of the contents -/

/-- The marks of a revoked pairing. -/
def PairingRecord.markRevoked (p : PairingRecord) : PairingRecord :=
  { p with revoked := true, revokePending := true }

/-- What a subcommand does to the contents it loaded. -/
inductive Change where
  | revoke (phoneName : RustString)
  | reauthNow (nowMs : UInt64)
  | revokeAll
  | pair (record : PairingRecord)
deriving DecidableEq

/-- The contents after a change.  A new pairing replaces those of the same key. -/
def Change.apply (c : KeystoreContents) : Change → KeystoreContents
  | .revoke phoneName =>
      { c with
        pairings := c.pairings.map fun p => if p.phoneName = phoneName then p.markRevoked else p }
  | .reauthNow nowMs => { c with lastAuthenticatedAtUnixMs := nowMs }
  | .revokeAll => { c with pairings := c.pairings.map PairingRecord.markRevoked }
  | .pair record =>
      { c with
        pairings := (c.pairings.filter fun p => p.clientSpki != record.clientSpki) ++ [record] }

/-! ## Subcommands -/

/-- Why a subcommand fails. -/
inductive AdminError where
  | keystore (cause : KeystoreError)
  | noKeystore
  | noPairingNamed (phoneName : RustString)
  | credentialPromptCancelled
deriving DecidableEq

/-- Load a keystore that has to be there. -/
def requireKeystore : Task (Except AdminError KeystoreContents) := do
  match ← perform .load with
  | .error e => return .error (.keystore e)
  | .ok none => return .error .noKeystore
  | .ok (some contents) => return .ok contents

/-- Save contents in place of those that were loaded. -/
def saveContents (contents : KeystoreContents) : Task (Except AdminError Unit) := do
  match ← perform (.saveFile contents) with
  | .error e => return .error (.keystore e)
  | .ok () => return .ok ()

/-- Revoke the pairings of a name. -/
def revoke (phoneName : RustString) : Task (Except AdminError Unit) := do
  match ← requireKeystore with
  | .error e => return .error e
  | .ok contents =>
      let found := contents.pairings.any fun p => decide (p.phoneName = phoneName)
      if !found then return .error (.noPairingNamed phoneName)
      else saveContents ((Change.revoke phoneName).apply contents)

/-- The credential prompt: a stub that always succeeds. -/
def runCredentialPromptStub : Bool :=
  true

/-- Start the re-auth window anew. -/
def reauthNow : Task (Except AdminError Unit) := do
  match ← requireKeystore with
  | .error e => return .error e
  | .ok contents =>
      if !runCredentialPromptStub then return .error .credentialPromptCancelled
      else do
        let now ← perform .clock
        saveContents ((Change.reauthNow now).apply contents)

/-- Try to reach the phones whose address is known. -/
def pushRevoke : List PairingRecord → Task Unit
  | [] => return ()
  | p :: ps =>
      match p.lastKnownAddress with
      | none => pushRevoke ps
      | some addr => do
          let _ ← perform (.connect addr)
          pushRevoke ps

/-- Revoke all pairings, and try to reach the phones. -/
def uninstallRevokeBroadcast : Task (Except AdminError Unit) := do
  match ← requireKeystore with
  | .error e => return .error e
  | .ok contents =>
      match ← saveContents (Change.revokeAll.apply contents) with
      | .error e => return .error e
      | .ok () => do
          pushRevoke contents.pairings
          return .ok ()

end Daemon
end WakeMyPc
