import WakeMyPc.Daemon.FileSystem
import WakeMyPc.Daemon.Host
import WakeMyPc.Daemon.Startup
import WakeMyPc.Foundations.Resources

/-!
# The calls into Windows

On Windows the handlers and the encryption of the keystore are calls into the system: some
hand out a handle or a buffer that has to be given back, some report a failure only by the
last error code.

Main results:

- Definition `onWindows`: the operations of the daemon as calls into the system.
- Theorem `onWindows_tidy`: every operation gives back the handles and buffers it gets.
-/

namespace WakeMyPc
namespace Daemon

open Foundations
open Protocol (PcState)

/-- A locally unique identifier of a privilege. -/
structure Luid where
  lowPart : UInt32
  highPart : Int32
deriving DecidableEq

/-- What the system knows about a session. -/
structure WtsInfo where
  sessionState : Int32
  sessionFlags : Int32
deriving DecidableEq

/-- The calls into the system and the standard library, and the operations that are not
about the platform. -/
inductive WinOp where
  /-- Read the cell that says whether the shutdown privilege is enabled. -/
  | readyGet
  | readySet (ready : Bool)
  | openProcessToken (access : UInt32)
  | lookupPrivilegeValue (name : String)
  | adjustTokenPrivileges (token : ℕ) (luid : Luid) (attributes : UInt32)
  | closeHandle (token : ℕ)
  | getLastError
  | setSuspendState (hibernate force wakeupEventsDisabled : Bool)
  | lockWorkStation
  | exitWindowsEx (flags reason : UInt32)
  | wtsGetActiveConsoleSessionId
  | wtsQuerySessionInformation (sessionId : UInt32)
  /-- Read the structure that a buffer holds. -/
  | readBuffer (buffer : ℕ)
  | wtsFreeMemory (buffer : ℕ)
  | cryptProtectData (plain : Bytes) (flags : UInt32)
  | cryptUnprotectData (cipher : Bytes) (flags : UInt32)
  /-- Copy the bytes of a blob. -/
  | copyBlob (blob : ℕ) (len : UInt32)
  | localFree (blob : ℕ)
  | readKeystore
  /-- The number of the process. -/
  | processId
  | file (o : FileOp)
  /-- Go on as a running server with these contents. -/
  | serve (contents : KeystoreContents)
  /-- End the process. -/
  | exit
  | daemon (o : Op)

/-- The answers of each call; a call that fails hands nothing out. -/
def WinAns : WinOp → Type
  | .readyGet => Option Bool
  | .readySet _ => Unit
  | .openProcessToken _ => Option ℕ
  | .lookupPrivilegeValue _ => Option Luid
  | .adjustTokenPrivileges _ _ _ => Bool
  | .closeHandle _ => Unit
  | .getLastError => UInt32
  | .setSuspendState _ _ _ => Bool
  | .lockWorkStation => Bool
  | .exitWindowsEx _ _ => Bool
  | .wtsGetActiveConsoleSessionId => UInt32
  | .wtsQuerySessionInformation _ => Bool × Option ℕ
  | .readBuffer _ => WtsInfo
  | .wtsFreeMemory _ => Unit
  | .cryptProtectData _ _ => Option (ℕ × UInt32)
  | .cryptUnprotectData _ _ => Option (ℕ × UInt32)
  | .copyBlob _ _ => Bytes
  | .localFree _ => Unit
  | .readKeystore => Except ReadError Bytes
  | .processId => UInt32
  | .file o => FileAns o
  | .serve _ => Unit
  | .exit => Unit
  | .daemon o => Ans o

/-- A program of calls into the system. -/
abbrev WinTask (α : Type) := Prog WinOp WinAns α

/-- Make one call. -/
def winCall (o : WinOp) : WinTask (WinAns o) :=
  .call o .ret

theorem size_noText_le : "".toByteArray.size ≤ isizeMax := by decide

/-- A text of the source. -/
def osText (text : String) : RustString :=
  if h : text.toByteArray.size ≤ isizeMax then ⟨text, h⟩ else ⟨"", size_noText_le⟩

/-- The text of a call that failed with an error code. -/
def failedText (call : String) (code : UInt32) : RustString :=
  osText (call ++ " failed: error " ++ toString code.toNat)

namespace Windows

/-- A call failed: ask for the error code. -/
def failed {α : Type} (call : String) : WinTask (Except OsHandlerError α) := do
  let code : UInt32 ← winCall .getLastError
  return .error (.osApi (failedText call code))

/-! ## Handlers -/

/-- Enable the shutdown privilege on the token of the process. -/
def enableShutdownPrivilege : WinTask (Except OsHandlerError Unit) := do
  -- TOKEN_ADJUST_PRIVILEGES and TOKEN_QUERY
  let opened : Option ℕ ← winCall (.openProcessToken 0x28)
  match opened with
  | none => failed "OpenProcessToken"
  | some token =>
      let found : Option Luid ← winCall (.lookupPrivilegeValue "SeShutdownPrivilege")
      match found with
      | none =>
          let _ ← winCall (.closeHandle token)
          failed "LookupPrivilegeValueW"
      | some luid =>
          -- SE_PRIVILEGE_ENABLED
          let ok : Bool ← winCall (.adjustTokenPrivileges token luid 2)
          let err : UInt32 ← winCall .getLastError
          let _ ← winCall (.closeHandle token)
          if !ok then return .error (.osApi (failedText "AdjustTokenPrivileges" err))
          else if err = 1300 then
            return .error (.notPermitted
              (osText "process token does not hold SeShutdownPrivilege"))
          else return .ok ()

/-- One-time setup at startup. -/
def prepare : WinTask (Except OsHandlerError Unit) := do
  let ready : Option Bool ← winCall .readyGet
  if ready.getD false then return .ok ()
  else
    match ← enableShutdownPrivilege with
    | .error e => return .error e
    | .ok () => do
        let _ ← winCall (.readySet true)
        return .ok ()

def sleep : WinTask (Except OsHandlerError Unit) := do
  let ok : Bool ← winCall (.setSuspendState false false false)
  if !ok then failed "SetSuspendState" else return .ok ()

def lock : WinTask (Except OsHandlerError Unit) := do
  let ok : Bool ← winCall .lockWorkStation
  if !ok then failed "LockWorkStation" else return .ok ()

/-- Power off, once the privilege is enabled. -/
def powerOff : WinTask (Except OsHandlerError Unit) := do
  let ready : Option Bool ← winCall .readyGet
  if !ready.getD false then
    return .error (.notPermitted
      (osText "SE_SHUTDOWN_NAME not enabled — call prepare() at startup"))
  else
    -- EWX_POWEROFF and EWX_FORCE, and a planned shutdown for other reasons
    let ok : Bool ← winCall (.exitWindowsEx 0xC 0x80000000)
    if !ok then failed "ExitWindowsEx" else return .ok ()

/-- The state of the console session. -/
def currentSessionState : WinTask (Except OsHandlerError PcState) := do
  let sessionId : UInt32 ← winCall .wtsGetActiveConsoleSessionId
  if sessionId = 0xFFFFFFFF then return .ok .onLoggedOut
  else
    let queried : Bool × Option ℕ ← winCall (.wtsQuerySessionInformation sessionId)
    match queried with
    | (true, some buffer) => do
        let info : WtsInfo ← winCall (.readBuffer buffer)
        let _ ← winCall (.wtsFreeMemory buffer)
        -- WTSActive and WTS_SESSIONSTATE_LOCK are zero
        if info.sessionState ≠ 0 then return .ok .onLoggedOut
        else if info.sessionFlags = 0 then return .ok .onLocked
        else return .ok .onLoggedIn
    | _ => return .ok .onLoggedIn

/-! ## Encryption -/

/-- Take the bytes of a blob, and give it back. -/
def takeBlob (call : String) (made : Option (ℕ × UInt32)) : WinTask (Except RustString Bytes) :=
  match made with
  | none => do
      let code : UInt32 ← winCall .getLastError
      return .error (failedText call code)
  | some (blob, len) => do
      let bytes : Bytes ← winCall (.copyBlob blob len)
      let _ ← winCall (.localFree blob)
      return .ok bytes

def encrypt (plain : Bytes) : WinTask (Except RustString Bytes) :=
  match u32TryFrom plain.length with
  | none => return .error (osText "plaintext too large for DPAPI")
  | some _ => do
      -- CRYPTPROTECT_LOCAL_MACHINE and CRYPTPROTECT_UI_FORBIDDEN
      let made : Option (ℕ × UInt32) ← winCall (.cryptProtectData plain 5)
      takeBlob "CryptProtectData" made

def decrypt (cipher : Bytes) : WinTask (Except RustString Bytes) :=
  match u32TryFrom cipher.length with
  | none => return .error (osText "ciphertext too large for DPAPI")
  | some _ => do
      -- CRYPTPROTECT_UI_FORBIDDEN
      let made : Option (ℕ × UInt32) ← winCall (.cryptUnprotectData cipher 1)
      takeBlob "CryptUnprotectData" made

/-! ## The keystore -/

def load : WinTask (Except KeystoreError (Option KeystoreContents)) := do
  let read : Except ReadError Bytes ← winCall .readKeystore
  match read with
  | .error .notFound => return .ok none
  | .error (.other e) => return .error (.io e)
  | .ok cipher =>
      match ← decrypt cipher with
      | .error detail => return .error (.encryption detail)
      | .ok plain => return (loadPlaintext plain).map some

/-- A call into the file system. -/
def onFile (o : FileOp) : WinTask (FileAns o) :=
  winCall (.file o)

/-- Put these bytes in the keystore file, by way of the temporary file of the process. -/
def replaceKeystore (cipher : Bytes) : WinTask (Except KeystoreError Unit) := do
  let pid : UInt32 ← winCall .processId
  (Keystore.replace pid cipher).interpret onFile

def save (contents : KeystoreContents) : WinTask (Except KeystoreError Unit) := do
  match ← encrypt (savePlaintext contents) with
  | .error detail => return .error (.encryption detail)
  | .ok cipher => replaceKeystore cipher

/-- The calls with which the keystore file gets other bytes. -/
theorem replaceKeystore_eq (cipher : Bytes) :
    replaceKeystore cipher = .call .processId fun (pid : UInt32) =>
      .call (.file (.create (.tmp pid))) fun opened =>
        (Keystore.afterCreate pid cipher opened).interpret onFile := by
  refine congrArg (Prog.call _) (funext fun (pid : UInt32) => ?_)
  change (Keystore.replace pid cipher).interpret onFile = _
  rw [Keystore.replace_eq]
  rfl

end Windows

/-- Each operation of the daemon as calls into the system. -/
def onWindows : (o : Op) → WinTask (Ans o)
  | .sleep => Windows.sleep
  | .lock => Windows.lock
  | .powerOff => Windows.powerOff
  | .currentSessionState => Windows.currentSessionState
  | .load => Windows.load
  | .saveFile contents => Windows.save contents
  | o => winCall (.daemon o)

/-- Each operation of a start as calls into the system. -/
def startOnWindows : (o : StartOp) → WinTask (StartAns o)
  | .daemon o => onWindows o
  | .prepare => Windows.prepare

/-- Start the server, or end its process. -/
def startServer : WinTask Unit := do
  match ← startUp.interpret startOnWindows with
  | .error _ => winCall .exit
  | .ok contents => winCall (.serve contents)

/-! ## Handles and buffers -/

/-- What the system hands out. -/
inductive WinResource where
  | token (handle : ℕ)
  | buffer (address : ℕ)
  | blob (address : ℕ)
deriving DecidableEq

/-- What a call that succeeded handed out. -/
def winGives : Event WinOp WinAns → Option WinResource
  | ⟨.openProcessToken _, opened⟩ => (opened : Option ℕ).map .token
  | ⟨.wtsQuerySessionInformation _, queried⟩ =>
      match (queried : Bool × Option ℕ) with
      | (true, buffer) => buffer.map .buffer
      | (false, _) => none
  | ⟨.cryptProtectData _ _, made⟩ => (made : Option (ℕ × UInt32)).map fun x => .blob x.1
  | ⟨.cryptUnprotectData _ _, made⟩ => (made : Option (ℕ × UInt32)).map fun x => .blob x.1
  | _ => none

/-- Which calls hand out, need and give back handles and buffers. -/
def winDiscipline : Discipline WinOp WinAns WinResource where
  gives := winGives
  needs
    | .adjustTokenPrivileges token _ _ => some (.token token)
    | .readBuffer buffer => some (.buffer buffer)
    | .copyBlob blob _ => some (.blob blob)
    | _ => none
  frees
    | .closeHandle token => some (.token token)
    | .wtsFreeMemory buffer => some (.buffer buffer)
    | .localFree blob => some (.blob blob)
    | _ => none

open Discipline (Tidy Closes)

/-- A call that has nothing to do with handles and buffers. -/
theorem tidy_winCall {α : Type} {o : WinOp} (hgives : ∀ r, winGives ⟨o, r⟩ = none)
    (hneeds : winDiscipline.needs o = none) (hfrees : winDiscipline.frees o = none)
    {k : WinAns o → WinTask α} (hk : ∀ a, winDiscipline.Tidy (k a)) :
    winDiscipline.Tidy (.call o k) :=
  Tidy.call hgives hneeds hfrees hk

namespace Windows

theorem failed_tidy {α : Type} (call : String) :
    winDiscipline.Tidy (failed call : WinTask (Except OsHandlerError α)) :=
  tidy_winCall (fun _ => rfl) rfl rfl fun _ => .ret _

/-- The token is closed on every path. -/
theorem enableShutdownPrivilege_tidy : winDiscipline.Tidy enableShutdownPrivilege := by
  refine Tidy.acquire rfl rfl (fun (opened : Option ℕ) hnone => ?_)
    fun (opened : Option ℕ) r hsome => ?_
  · cases opened with
    | none => exact failed_tidy _
    | some token => cases hnone
  · cases opened with
    | none => cases hsome
    | some token =>
        obtain rfl : WinResource.token token = r := Option.some.inj hsome
        refine Closes.call (fun _ => rfl) nofun rfl fun (found : Option Luid) => ?_
        cases found with
        | none => exact Closes.free (fun _ => rfl) rfl rfl fun _ => failed_tidy _
        | some luid =>
            refine Closes.call (fun _ => rfl) (fun r' hr' => (Option.some.inj hr').symm) rfl
              fun (ok : Bool) => ?_
            refine Closes.call (fun _ => rfl) nofun rfl fun (err : UInt32) => ?_
            refine Closes.free (fun _ => rfl) rfl rfl fun _ => ?_
            change winDiscipline.Tidy (if _ then _ else if _ then _ else _)
            split
            · exact .ret _
            · split <;> exact .ret _

theorem prepare_tidy : winDiscipline.Tidy prepare := by
  refine tidy_winCall (fun _ => rfl) rfl rfl fun (ready : Option Bool) => ?_
  change winDiscipline.Tidy (if _ then _ else _)
  split
  · exact .ret _
  · refine enableShutdownPrivilege_tidy.bind fun result => ?_
    cases result with
    | error e => exact .ret _
    | ok _ => exact tidy_winCall (fun _ => rfl) rfl rfl fun _ => .ret _

/-- A handler that is one call. -/
theorem oneCall_tidy (ok : Bool) (call : String) :
    winDiscipline.Tidy (if !ok then failed call else return .ok () :
      WinTask (Except OsHandlerError Unit)) := by
  split
  · exact failed_tidy _
  · exact .ret _

theorem powerOff_tidy : winDiscipline.Tidy powerOff := by
  refine tidy_winCall (fun _ => rfl) rfl rfl fun (ready : Option Bool) => ?_
  change winDiscipline.Tidy (if _ then _ else _)
  split
  · exact .ret _
  · exact tidy_winCall (fun _ => rfl) rfl rfl fun ok => oneCall_tidy ok _

/-- The buffer is freed before its copy is looked at. -/
theorem currentSessionState_tidy : winDiscipline.Tidy currentSessionState := by
  refine tidy_winCall (fun _ => rfl) rfl rfl fun (sessionId : UInt32) => ?_
  change winDiscipline.Tidy (if _ then _ else _)
  split
  · exact .ret _
  · refine Tidy.acquire rfl rfl (fun (queried : Bool × Option ℕ) hnone => ?_)
      fun (queried : Bool × Option ℕ) r hsome => ?_
    · obtain ⟨ok, buffer⟩ := queried
      cases ok with
      | false => exact .ret _
      | true =>
          cases buffer with
          | none => exact .ret _
          | some buffer => cases hnone
    · obtain ⟨ok, buffer⟩ := queried
      cases ok with
      | false => cases hsome
      | true =>
          cases buffer with
          | none => cases hsome
          | some buffer =>
              obtain rfl : WinResource.buffer buffer = r := Option.some.inj hsome
              refine Closes.call (fun _ => rfl) (fun r' hr' => (Option.some.inj hr').symm) rfl
                fun (info : WtsInfo) => ?_
              refine Closes.free (fun _ => rfl) rfl rfl fun _ => ?_
              change winDiscipline.Tidy (if _ then _ else if _ then _ else _)
              split
              · exact .ret _
              · split <;> exact .ret _

/-- The blob is freed after it was copied. -/
theorem takeBlob_closes (call : String) (blob : ℕ) (len : UInt32) :
    winDiscipline.Closes (.blob blob) (takeBlob call (some (blob, len))) :=
  Closes.call (fun _ => rfl) (fun _ hr => (Option.some.inj hr).symm) rfl fun _ =>
    Closes.free (fun _ => rfl) rfl rfl fun _ => .ret _

theorem takeBlob_tidy (call : String) : winDiscipline.Tidy (takeBlob call none) :=
  tidy_winCall (fun _ => rfl) rfl rfl fun _ => .ret _

theorem encrypt_tidy (plain : Bytes) : winDiscipline.Tidy (encrypt plain) := by
  unfold encrypt
  split
  · exact .ret _
  · refine Tidy.acquire rfl rfl (fun (made : Option (ℕ × UInt32)) hnone => ?_)
      fun (made : Option (ℕ × UInt32)) r hsome => ?_
    · cases made with
      | none => exact takeBlob_tidy "CryptProtectData"
      | some x => cases hnone
    · cases made with
      | none => cases hsome
      | some x =>
          obtain rfl : WinResource.blob x.1 = r := Option.some.inj hsome
          exact takeBlob_closes "CryptProtectData" _ _

theorem decrypt_tidy (cipher : Bytes) : winDiscipline.Tidy (decrypt cipher) := by
  unfold decrypt
  split
  · exact .ret _
  · refine Tidy.acquire rfl rfl (fun (made : Option (ℕ × UInt32)) hnone => ?_)
      fun (made : Option (ℕ × UInt32)) r hsome => ?_
    · cases made with
      | none => exact takeBlob_tidy "CryptUnprotectData"
      | some x => cases hnone
    · cases made with
      | none => cases hsome
      | some x =>
          obtain rfl : WinResource.blob x.1 = r := Option.some.inj hsome
          exact takeBlob_closes "CryptUnprotectData" _ _

theorem load_tidy : winDiscipline.Tidy load := by
  refine tidy_winCall (fun _ => rfl) rfl rfl fun (read : Except ReadError Bytes) => ?_
  cases read with
  | error e => cases e <;> exact .ret _
  | ok cipher =>
      refine (decrypt_tidy cipher).bind fun result => ?_
      cases result <;> exact .ret _

theorem onFile_tidy (o : FileOp) : winDiscipline.Tidy (onFile o) :=
  tidy_winCall (fun _ => rfl) rfl rfl fun _ => .ret _

theorem replaceKeystore_tidy (cipher : Bytes) : winDiscipline.Tidy (replaceKeystore cipher) :=
  tidy_winCall (fun _ => rfl) rfl rfl fun _ => Tidy.interpret onFile_tidy _

theorem save_tidy (contents : KeystoreContents) : winDiscipline.Tidy (save contents) := by
  refine (encrypt_tidy _).bind fun result => ?_
  cases result with
  | error detail => exact .ret _
  | ok cipher => exact replaceKeystore_tidy cipher

end Windows

/-- Every operation gives back the handles and buffers that it gets. -/
theorem onWindows_tidy (o : Op) : winDiscipline.Tidy (onWindows o) := by
  cases o with
  | sleep => exact tidy_winCall (fun _ => rfl) rfl rfl fun ok => Windows.oneCall_tidy ok _
  | lock => exact tidy_winCall (fun _ => rfl) rfl rfl fun ok => Windows.oneCall_tidy ok _
  | powerOff => exact Windows.powerOff_tidy
  | currentSessionState => exact Windows.currentSessionState_tidy
  | load => exact Windows.load_tidy
  | saveFile contents => exact Windows.save_tidy contents
  | _ => exact tidy_winCall (fun _ => rfl) rfl rfl fun _ => .ret _

/-- The start of the server gives back what it gets. -/
theorem startServer_tidy : winDiscipline.Tidy startServer := by
  refine (Tidy.interpret (fun o => ?_) startUp).bind fun result => ?_
  · cases o with
    | daemon o => exact onWindows_tidy o
    | prepare => exact Windows.prepare_tidy
  · cases result <;> exact tidy_winCall (fun _ => rfl) rfl rfl fun _ => .ret _

end Daemon
end WakeMyPc
