import WakeMyPc.Daemon.Effects
import WakeMyPc.Foundations.History

/-!
# The start of the server

Before the server accepts connections it loads its keystore, reads its identity back, and
prepares the handlers.

Main results:

- Definition `startUp`: what the server does first.
- Theorem `startUp_local`: it commands nothing, and touches no shared contents.
-/

namespace WakeMyPc
namespace Daemon

open Foundations

/-- The operations of a start: those of the daemon, and the preparation of the handlers. -/
inductive StartOp where
  | daemon (o : Op)
  | prepare

/-- The answers of each operation. -/
def StartAns : StartOp → Type
  | .daemon o => Ans o
  | .prepare => Except OsHandlerError Unit

/-- Why a server does not start. -/
inductive StartError where
  | keystore (e : KeystoreError)
  /-- There is no keystore yet. -/
  | noKeystore
  | identity (e : Crypto.Error)
deriving DecidableEq

/-- Perform one operation of a start. -/
def startCall (o : StartOp) : Prog StartOp StartAns (StartAns o) :=
  .call o .ret

/-- What the server does before it accepts connections.  A failure to prepare the handlers
is only logged. -/
def startUp : Prog StartOp StartAns (Except StartError KeystoreContents) := do
  let dir : Except KeystoreError Unit ← startCall (.daemon .ensureDataDir)
  match dir with
  | .error e => return .error (.keystore e)
  | .ok () =>
      let loaded : Except KeystoreError (Option KeystoreContents) ← startCall (.daemon .load)
      match loaded with
      | .error e => return .error (.keystore e)
      | .ok none => return .error .noKeystore
      | .ok (some contents) => do
          let identity : Except Crypto.Error Unit ←
            startCall (.daemon (.parseIdentity contents.deviceIdentityBytes))
          match identity with
          | .error e => return .error (.identity e)
          | .ok () => do
              let _ ← startCall .prepare
              return .ok contents

/-- The operation neither changes what the PC does nor concerns shared contents. -/
def StartOp.IsLocal : StartOp → Prop
  | .daemon .ensureDataDir => True
  | .daemon .load => True
  | .daemon (.parseIdentity _) => True
  | .daemon _ => False
  | .prepare => True

/-- A start commands nothing, and touches no shared contents. -/
theorem startUp_local : startUp.Safe (fun _ => StartOp.IsLocal) [] fun _ _ => True := by
  refine ⟨trivial, fun (dir : Except KeystoreError Unit) => ?_⟩
  cases dir with
  | error e => trivial
  | ok _ =>
      refine ⟨trivial, fun (loaded : Except KeystoreError (Option KeystoreContents)) => ?_⟩
      cases loaded with
      | error e => trivial
      | ok contents =>
          cases contents with
          | none => trivial
          | some contents =>
              refine ⟨trivial, fun (identity : Except Crypto.Error Unit) => ?_⟩
              cases identity with
              | error e => trivial
              | ok _ => exact ⟨trivial, fun _ => trivial⟩

end Daemon
end WakeMyPc
