import WakeMyPc.Crypto.Pin
import WakeMyPc.Daemon.Keystore
import WakeMyPc.Foundations.Program

/-!
# Operations of the daemon

A task of the running server reads and writes its own connection, asks the clock
and the operating system, and shares the keystore contents with the other tasks.  A
subcommand loads and saves the keystore file.  Each of these is an operation that
the environment answers, so a task is one program for every environment.

Main results:

- Definitions `Op` and `Ans`: the operations and their answers.
- Theorem `hasActive_of_update`: no update of the shared contents makes a key active.
-/

namespace WakeMyPc
namespace Daemon

open Foundations
open Protocol (SpkiHash PcState ProtocolError)
open Crypto (VerifierMode)

/-! ## Updates of the shared contents -/

/-- The blocks that run under the write lock of the shared contents. -/
inductive Update where
  | lastKnownAddress (peerSpki : SpkiHash) (peerAddr : SocketAddr)
  | reauthInterval (newDays : UInt8)
  | removeRevoked (peerSpki : SpkiHash)
deriving DecidableEq

/-- What a block hands out of the lock: whether it changed an address, or how
many records it removed. -/
def Update.Out : Update → Type
  | .lastKnownAddress _ _ => Bool
  | .reauthInterval _ => Unit
  | .removeRevoked _ => ℕ

/-- Set the address of the first record of a key that has another one. -/
def setLastKnownAddress (peerSpki : SpkiHash) (peerAddr : SocketAddr) :
    List PairingRecord → Bool × List PairingRecord
  | [] => (false, [])
  | p :: ps =>
      if p.clientSpki = peerSpki ∧ p.lastKnownAddress ≠ some peerAddr then
        (true, { p with lastKnownAddress := some peerAddr } :: ps)
      else
        let rest := setLastKnownAddress peerSpki peerAddr ps
        (rest.1, p :: rest.2)

/-- Run a block on the contents. -/
def Update.run : (u : Update) → KeystoreContents → u.Out × KeystoreContents
  | .lastKnownAddress peerSpki peerAddr, c =>
      let result := setLastKnownAddress peerSpki peerAddr c.pairings
      (result.1, { c with pairings := result.2 })
  | .reauthInterval newDays, c => ((), { c with reauthIntervalDays := newDays })
  | .removeRevoked peerSpki, c =>
      let before := c.pairings.length
      let pairings := c.pairings.filter fun p => !(p.clientSpki == peerSpki && p.revoked)
      (before - pairings.length, { c with pairings })

/-- The contents after a block. -/
def Update.apply (u : Update) (c : KeystoreContents) : KeystoreContents :=
  (u.run c).2

/-! ## Operations -/

/-- A failed call into the operating system. -/
inductive OsHandlerError where
  | osApi (detail : RustString)
  | notPermitted (detail : RustString)
deriving DecidableEq

/-- All handler failures are one wire code. -/
def OsHandlerError.toWireCode (_e : OsHandlerError) : ProtocolError :=
  .internal

/-- The operations of the daemon's tasks. -/
inductive Op where
  /-- The TLS handshake with the next peer. -/
  | handshake (mode : VerifierMode)
  /-- The certificate chain that the peer presented. -/
  | peerCertificates
  /-- Read at most one chunk; an empty chunk is the end of the stream. -/
  | recv
  /-- Write all of some bytes. -/
  | send (bytes : Bytes)
  /-- Close the connection. -/
  | shutdown
  /-- The time in Unix milliseconds. -/
  | clock
  /-- Read the shared contents. -/
  | snapshot
  /-- Change the shared contents under the write lock. -/
  | write (u : Update)
  /-- Store contents in the keystore file. -/
  | saveFile (contents : KeystoreContents)
  | sleep
  | lock
  | powerOff
  | currentSessionState
  | ensureDataDir
  /-- Read the keystore file, if there is one. -/
  | load
  | generateIdentity
  /-- Read a key and certificate back. -/
  | parseIdentity (identity : DeviceIdentityBytes)
  /-- Four random bytes. -/
  | randomBytes
  /-- Set up and bind the listener of a pairing window. -/
  | bindListener
  /-- The next connection; there is none when the deadline of the window comes first. -/
  | acceptTcp
  /-- Try to connect to a phone. -/
  | connect (addr : SocketAddr)

/-- The answers of each operation. -/
def Ans : Op → Type
  | .handshake _ => Except IoError Unit
  | .peerCertificates => Option (List Bytes)
  | .recv => Except IoError Bytes
  | .send _ => Except IoError Unit
  | .shutdown => Except IoError Unit
  | .clock => UInt64
  | .snapshot => KeystoreContents
  | .write u => u.Out
  | .saveFile _ => Except KeystoreError Unit
  | .sleep => Except OsHandlerError Unit
  | .lock => Except OsHandlerError Unit
  | .powerOff => Except OsHandlerError Unit
  | .currentSessionState => Except OsHandlerError PcState
  | .ensureDataDir => Except KeystoreError Unit
  | .load => Except KeystoreError (Option KeystoreContents)
  | .generateIdentity => Except Crypto.Error DeviceIdentityBytes
  | .parseIdentity _ => Except Crypto.Error Unit
  | .randomBytes => Crypto.Draw
  | .bindListener => Except IoError Unit
  | .acceptTcp => Option (Except IoError Unit)
  | .connect _ => Except IoError Unit

/-- An environment that answers every operation. -/
def answering {W : Type} (answer : W → (o : Op) → Ans o × W) : Env Op Ans W :=
  fun w o => some (answer w o)

/-- The answers of an environment with fixed contents in which every call succeeds. -/
def succeeding (contents : KeystoreContents) (o : Op) : Ans o :=
  match o with
  | .handshake _ => Except.ok ()
  | .peerCertificates => some [[]]
  | .recv => Except.ok []
  | .send _ => Except.ok ()
  | .shutdown => Except.ok ()
  | .clock => (0 : UInt64)
  | .snapshot => contents
  | .write u => (u.run contents).1
  | .saveFile _ => Except.ok ()
  | .sleep => Except.ok ()
  | .lock => Except.ok ()
  | .powerOff => Except.ok ()
  | .currentSessionState => Except.ok PcState.onLoggedIn
  | .ensureDataDir => Except.ok ()
  | .load => Except.ok (some contents)
  | .generateIdentity => Except.ok contents.deviceIdentityBytes
  | .parseIdentity _ => Except.ok ()
  | .randomBytes => Except.ok (Vector.replicate 4 0)
  | .bindListener => Except.ok ()
  | .acceptTcp => some (Except.ok ())
  | .connect _ => Except.ok ()

/-- A program of the daemon. -/
abbrev Task (α : Type) := Prog Op Ans α

/-- One performed operation with its answer. -/
abbrev TaskEvent := Event Op Ans

/-- Perform one operation. -/
def perform (o : Op) : Task (Ans o) := .call o .ret

@[simp]
theorem perform_bind {α : Type} (o : Op) (f : Ans o → Task α) : perform o >>= f = .call o f :=
  rfl

/-- The operation changes what the PC does. -/
def Op.isCommand : Op → Bool
  | .sleep => true
  | .lock => true
  | .powerOff => true
  | _ => false

/-- The operation is a call of a handler. -/
def Op.isHandler : Op → Bool
  | .sleep => true
  | .lock => true
  | .powerOff => true
  | .currentSessionState => true
  | _ => false

/-- The operation reads from the peer. -/
def Op.isRecv : Op → Bool
  | .recv => true
  | _ => false

/-- Store the shared contents as they are at the time of the call. -/
def save : Task (Except KeystoreError Unit) := do
  let snap ← perform .snapshot
  perform (.saveFile snap)

/-! ## What updates leave alone -/

theorem setLastKnownAddress_mem {peerSpki : SpkiHash} {peerAddr : SocketAddr}
    {ps : List PairingRecord} {q : PairingRecord}
    (h : q ∈ (setLastKnownAddress peerSpki peerAddr ps).2) :
    ∃ p ∈ ps, q = p ∨ q = { p with lastKnownAddress := some peerAddr } := by
  induction ps with
  | nil => simp [setLastKnownAddress] at h
  | cons p ps ih =>
      simp only [setLastKnownAddress] at h
      split at h
      · rcases List.mem_cons.mp h with rfl | hq
        · exact ⟨p, List.mem_cons_self, .inr rfl⟩
        · exact ⟨q, List.mem_cons_of_mem p hq, .inl rfl⟩
      · rcases List.mem_cons.mp h with rfl | hq
        · exact ⟨q, List.mem_cons_self, .inl rfl⟩
        · obtain ⟨p', hp', hcase⟩ := ih hq
          exact ⟨p', List.mem_cons_of_mem p hp', hcase⟩

/-- No update makes a key active that was not. -/
theorem hasActive_of_update {u : Update} {c : KeystoreContents} {spki : SpkiHash}
    (h : (u.apply c).HasActive spki) : c.HasActive spki := by
  obtain ⟨q, hq, hrevoked, hspki⟩ := h
  cases u with
  | lastKnownAddress peerSpki peerAddr =>
      obtain ⟨p, hp, rfl | rfl⟩ := setLastKnownAddress_mem hq
      · exact ⟨q, hp, hrevoked, hspki⟩
      · exact ⟨p, hp, hrevoked, hspki⟩
  | reauthInterval newDays => exact ⟨q, hq, hrevoked, hspki⟩
  | removeRevoked peerSpki => exact ⟨q, (List.mem_filter.mp hq).1, hrevoked, hspki⟩

end Daemon
end WakeMyPc
