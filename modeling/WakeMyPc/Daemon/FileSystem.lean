import WakeMyPc.Daemon.KeystoreFile
import WakeMyPc.Foundations.Files
import WakeMyPc.Foundations.Program

/-!
# The files of the keystore

The keystore file is never written in place.  Its next bytes go to a temporary file, which is
then renamed to it; each process has one such file, whatever it saves.

Main results:

- Definition `Keystore.replace`: the calls that put other bytes in the keystore file.
- Theorem `Keystore.replace_eq`: they start with the temporary file.
-/

namespace WakeMyPc
namespace Daemon

open Foundations

/-! ## Calls into the file system -/

/-- The files that a save names: `keystore.bin` and `keystore.bin.tmp.<pid>`. -/
inductive FileName where
  | keystore
  | tmp (pid : UInt32)
deriving DecidableEq

/-- The calls of a save into the file system. -/
inductive FileOp where
  /-- Open a file for writing, empty. -/
  | create (name : FileName)
  /-- Write all of some bytes to an open file. -/
  | write (file : ℕ) (bytes : Bytes)
  | rename (source target : FileName)

/-- The answers of each call. -/
abbrev FileAns : FileOp → Type
  | .create _ => Except IoError ℕ
  | .write _ _ => Except IoError Unit
  | .rename _ _ => Except IoError Unit

/-- A program that calls the file system. -/
abbrev FileTask (α : Type) := Prog FileOp FileAns α

/-- Write a whole file. -/
def fsWrite (name : FileName) (bytes : Bytes) : FileTask (Except IoError Unit) :=
  .call (.create name) fun
    | .error e => .ret (.error e)
    | .ok file => .call (.write file bytes) .ret

/-- Rename a file over another. -/
def fsRename (source target : FileName) : FileTask (Except IoError Unit) :=
  .call (.rename source target) .ret

/-- What a rename answers when it made these files of others. -/
def answerRename (files : Files FileName) : Option (Files FileName) →
    Except IoError Unit × Files FileName
  | some files' => (.ok (), files')
  | none => (.error .io, files)

/-- The answers of a file system without faults. -/
def answerFile (files : Files FileName) : (o : FileOp) → FileAns o × Files FileName
  | .create name => (Except.ok (files.create name).1, (files.create name).2)
  | .write file bytes => (Except.ok (), files.write file bytes)
  | .rename source target => answerRename files (files.rename source target)

/-- The only file is the keystore, with these bytes. -/
def keystoreFiles (bytes : Bytes) : Files FileName :=
  (Files.empty.create .keystore).2.write 0 bytes

/-- The files of a PC with one paired phone. -/
def savedFiles : Files FileName :=
  keystoreFiles (savePlaintext pairedContents)

/-! ## Replacing the keystore file -/

namespace Keystore

/-- The end of a save, after the rename. -/
def afterRename : Except IoError Unit → FileTask (Except KeystoreError Unit)
  | .error e => return .error (.io e)
  | .ok () => return .ok ()

-- the number of the process
variable (pid : UInt32)

/-- A save after the write: rename the temporary file over the keystore. -/
def afterWrite : Except IoError Unit → FileTask (Except KeystoreError Unit)
  | .error e => return .error (.io e)
  | .ok () => do
      let renamed ← fsRename (.tmp pid) .keystore
      afterRename renamed

/-- Put these bytes in the keystore file. -/
def replace (cipher : Bytes) : FileTask (Except KeystoreError Unit) := do
  let written ← fsWrite (.tmp pid) cipher
  afterWrite pid written

/-- What a save does once the temporary file is open. -/
def afterCreate (cipher : Bytes) : Except IoError ℕ → FileTask (Except KeystoreError Unit)
  | .error e => .ret (.error (.io e))
  | .ok file => .call (.write file cipher) (afterWrite pid)

/-- A save first opens the temporary file. -/
theorem replace_eq (cipher : Bytes) :
    replace pid cipher = .call (.create (.tmp pid)) (afterCreate pid cipher) := by
  refine congrArg (Prog.call _) (funext fun opened => ?_)
  cases opened with
  | error e => rfl
  | ok file => rfl

theorem afterWrite_ok :
    afterWrite pid (.ok ()) = .call (.rename (.tmp pid) .keystore) afterRename :=
  rfl

end Keystore
end Daemon
end WakeMyPc
