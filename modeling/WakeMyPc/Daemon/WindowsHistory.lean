import WakeMyPc.Daemon.WindowsHost

/-!
# What the calls into Windows come after

Some calls are made only after others: the shutdown privilege counts as enabled only after
it was, the power is turned off only after that was looked at, and what is written to the
keystore file was encrypted just before, and is first written to the temporary file.

Main results:

- Definition `WinFits`: the calls that fit a history.
- Theorems `program_fits` and `fits_of_step`: all calls of all threads fit their histories.
-/

namespace WakeMyPc
namespace Daemon

open Foundations
open Foundations.Prog (safe_bind safe_interpret)
open Protocol (SpkiHash)

/-! ## Calls that fit a history -/

/-- The shutdown privilege was looked up and enabled, and the system did not say that the
token does not hold it. -/
def Enabled (h : List WinEvent) : Prop :=
  ∃ front token luid err rest,
    h = front ++ [⟨.openProcessToken 0x28, some token⟩,
      ⟨.lookupPrivilegeValue "SeShutdownPrivilege", some luid⟩,
      ⟨.adjustTokenPrivileges token luid 2, true⟩, ⟨.getLastError, err⟩] ++ rest ∧
    (err : UInt32) ≠ 1300

/-- The bytes are what was just encrypted of the contents. -/
def Sealed (h : List WinEvent) (contents : KeystoreContents) (cipher : Bytes) : Prop :=
  ∃ front blob len, (u32TryFrom (savePlaintext contents).length).isSome = true ∧
    h = front ++ [⟨.cryptProtectData (savePlaintext contents) 5, some (blob, len)⟩,
      ⟨.copyBlob blob len, cipher⟩, ⟨.localFree blob, ()⟩]

/-- The contents were encrypted, the number of the process was asked for, and these calls
were made since. -/
def Saving (h : List WinEvent) (contents : KeystoreContents) (cipher : Bytes) (pid : UInt32)
    (calls : List WinEvent) : Prop :=
  ∃ front, h = front ++ ⟨.processId, pid⟩ :: calls ∧ Sealed front contents cipher

/-- The calls into the file system that fit a save: open the temporary file of the process,
write to it what was encrypted, and rename it to the keystore file. -/
def SaveFits (h : List WinEvent) (contents : KeystoreContents) (cipher : Bytes) (pid : UInt32) :
    FileOp → Prop
  | .create name => name = .tmp pid ∧ Saving h contents cipher pid []
  | .write file bytes =>
      bytes = cipher ∧ Saving h contents cipher pid [⟨.file (.create (.tmp pid)), Except.ok file⟩]
  | .rename source target => source = .tmp pid ∧ target = .keystore ∧ ∃ file,
      Saving h contents cipher pid [⟨.file (.create (.tmp pid)), Except.ok file⟩,
        ⟨.file (.write file cipher), Except.ok ()⟩]

/-- The calls of a job that fit its history, when the operations that it carries out are
those of `serving`. -/
def WinFits (job : WinJob) (serving : Op → Prop) (h : List WinEvent) : WinOp → Prop
  | .readySet _ => job = .startServer ∧ Enabled h
  | .setSuspendState _ _ _ => serving .sleep
  | .lockWorkStation => serving .lock
  | .exitWindowsEx _ _ => serving .powerOff ∧ ∃ front, h = front ++ [⟨.readyGet, some true⟩]
  | .file o =>
      ∃ contents cipher pid, serving (.saveFile contents) ∧ SaveFits h contents cipher pid o
  | _ => True

theorem Saving.concat {h : List WinEvent} {contents : KeystoreContents} {cipher : Bytes}
    {pid : UInt32} {calls : List WinEvent} (hsaving : Saving h contents cipher pid calls)
    (e : WinEvent) : Saving (h ++ [e]) contents cipher pid (calls ++ [e]) := by
  obtain ⟨front, rfl, hsealed⟩ := hsaving
  exact ⟨front, List.append_assoc _ _ _, hsealed⟩

theorem Enabled.append {h : List WinEvent} (henabled : Enabled h) (events : List WinEvent) :
    Enabled (h ++ events) := by
  obtain ⟨front, token, luid, err, rest, rfl, herr⟩ := henabled
  exact ⟨front, token, luid, err, rest ++ events, by simp, herr⟩

/-! ## The programs of the calls -/

variable {job : WinJob} {serving : Op → Prop}

namespace Windows

theorem failed_fits {α : Type} (call : String) (h : List WinEvent) :
    (failed call : WinTask (Except OsHandlerError α)).Safe (WinFits job serving) h
      fun _ _ => True :=
  ⟨trivial, fun _ => trivial⟩

/-- When enabling succeeds, the privilege is enabled. -/
theorem enableShutdownPrivilege_fits (h : List WinEvent) :
    enableShutdownPrivilege.Safe (WinFits job serving) h fun h' result =>
      result = .ok () → Enabled h' := by
  have hfailed : ∀ call h', (failed call : WinTask (Except OsHandlerError Unit)).Safe
      (WinFits job serving) h' fun h'' result => result = .ok () → Enabled h'' :=
    fun call h' => ⟨trivial, fun _ => nofun⟩
  refine ⟨trivial, fun (opened : Option ℕ) => ?_⟩
  cases opened with
  | none => exact hfailed _ _
  | some token =>
      refine ⟨trivial, fun (found : Option Luid) => ?_⟩
      cases found with
      | none => exact ⟨trivial, fun _ => hfailed _ _⟩
      | some luid =>
          refine ⟨trivial, fun (ok : Bool) => ⟨trivial, fun (err : UInt32) => ?_⟩⟩
          refine ⟨trivial, fun _ => ?_⟩
          change (if _ then _ else if _ then _ else _ : WinTask _).Safe _ _ _
          split
          · exact nofun
          · next hok =>
              split
              · exact nofun
              · next herr =>
                  obtain rfl : ok = true := by simpa using hok
                  refine fun _ => ⟨h, token, luid, err, [⟨.closeHandle token, ()⟩], ?_, herr⟩
                  simp only [List.append_assoc]
                  rfl

theorem prepare_fits (h : List WinEvent) :
    prepare.Safe (WinFits .startServer serving) h fun _ _ => True := by
  refine ⟨trivial, fun (ready : Option Bool) => ?_⟩
  change (if _ then _ else _ : WinTask _).Safe _ _ _
  split
  · trivial
  · refine (safe_bind _ _ _ _).mpr ((enableShutdownPrivilege_fits _).mono fun h' result hok => ?_)
    cases result with
    | error e => trivial
    | ok u => exact ⟨⟨rfl, hok rfl⟩, fun _ => trivial⟩

/-- A handler that is one call. -/
theorem oneCall_fits (ok : Bool) (call : String) (h : List WinEvent) :
    (if !ok then failed call else return .ok () : WinTask (Except OsHandlerError Unit)).Safe
      (WinFits job serving) h fun _ _ => True := by
  split
  · exact failed_fits call h
  · trivial

theorem powerOff_fits (hserving : serving .powerOff) (h : List WinEvent) :
    powerOff.Safe (WinFits job serving) h fun _ _ => True := by
  refine ⟨trivial, fun (ready : Option Bool) => ?_⟩
  change (if _ then _ else _ : WinTask _).Safe _ _ _
  split
  · trivial
  · next hready =>
      obtain rfl : ready = some true := by
        cases ready <;> simp_all
      exact ⟨⟨hserving, h, rfl⟩, fun ok => oneCall_fits ok _ _⟩

theorem currentSessionState_fits (h : List WinEvent) :
    currentSessionState.Safe (WinFits job serving) h fun _ _ => True := by
  refine ⟨trivial, fun (sessionId : UInt32) => ?_⟩
  change (if _ then _ else _ : WinTask _).Safe _ _ _
  split
  · trivial
  · refine ⟨trivial, fun (queried : Bool × Option ℕ) => ?_⟩
    obtain ⟨ok, buffer⟩ := queried
    cases ok with
    | false => trivial
    | true =>
        cases buffer with
        | none => trivial
        | some buffer =>
            refine ⟨trivial, fun (info : WtsInfo) => ⟨trivial, fun _ => ?_⟩⟩
            change (if _ then _ else if _ then _ else _ : WinTask _).Safe _ _ _
            split
            · trivial
            · split <;> trivial

/-- When encrypting succeeds, the bytes are what was encrypted. -/
theorem encrypt_fits (plain : Bytes) (h : List WinEvent) :
    (encrypt plain).Safe (WinFits job serving) h fun h' result => ∀ cipher, result = .ok cipher →
      (u32TryFrom plain.length).isSome = true ∧ ∃ blob len,
        h' = h ++ [⟨.cryptProtectData plain 5, some (blob, len)⟩, ⟨.copyBlob blob len, cipher⟩,
          ⟨.localFree blob, ()⟩] := by
  unfold encrypt
  split
  · exact nofun
  · next size hsize =>
      refine ⟨trivial, fun (made : Option (ℕ × UInt32)) => ?_⟩
      cases made with
      | none => exact ⟨trivial, fun _ => nofun⟩
      | some blob =>
          obtain ⟨blob, len⟩ := blob
          refine ⟨trivial, fun (bytes : Bytes) => ⟨trivial, fun _ => ?_⟩⟩
          intro cipher hcipher
          obtain rfl := Except.ok.inj hcipher
          refine ⟨by rw [hsize]; rfl, blob, len, ?_⟩
          simp only [List.append_assoc]
          rfl

theorem decrypt_fits (cipher : Bytes) (h : List WinEvent) :
    (decrypt cipher).Safe (WinFits job serving) h fun _ _ => True := by
  unfold decrypt
  split
  · trivial
  · refine ⟨trivial, fun (made : Option (ℕ × UInt32)) => ?_⟩
    cases made with
    | none => exact ⟨trivial, fun _ => trivial⟩
    | some blob => exact ⟨trivial, fun _ => ⟨trivial, fun _ => trivial⟩⟩

theorem load_fits (h : List WinEvent) : load.Safe (WinFits job serving) h fun _ _ => True := by
  refine ⟨trivial, fun (read : Except ReadError Bytes) => ?_⟩
  cases read with
  | error e => cases e <;> trivial
  | ok cipher =>
      refine (safe_bind (decrypt cipher) _ _ _).mpr
        ((decrypt_fits cipher _).mono fun h' result _ => ?_)
      cases result <;> trivial

/-- What is put in the keystore file was encrypted just before. -/
theorem replaceKeystore_fits {contents : KeystoreContents} {cipher : Bytes} {h : List WinEvent}
    (hserving : serving (.saveFile contents)) (hsealed : Sealed h contents cipher) :
    (replaceKeystore cipher).Safe (WinFits job serving) h fun _ _ => True := by
  rw [replaceKeystore_eq]
  refine ⟨trivial, fun (pid : UInt32) => ?_⟩
  have hasked : Saving (h ++ [⟨.processId, pid⟩]) contents cipher pid [] := ⟨h, rfl, hsealed⟩
  refine ⟨⟨contents, cipher, pid, hserving, rfl, hasked⟩, fun (opened : Except IoError ℕ) => ?_⟩
  cases opened with
  | error e => trivial
  | ok file =>
      have hopened := hasked.concat ⟨.file (.create (.tmp pid)), Except.ok file⟩
      refine ⟨⟨contents, cipher, pid, hserving, rfl, hopened⟩,
        fun (written : Except IoError Unit) => ?_⟩
      cases written with
      | error e => trivial
      | ok _ =>
          have hwritten := hopened.concat ⟨.file (.write file cipher), Except.ok ()⟩
          refine ⟨⟨contents, cipher, pid, hserving, rfl, rfl, file, hwritten⟩,
            fun (renamed : Except IoError Unit) => ?_⟩
          cases renamed <;> trivial

/-- What is saved was encrypted just before. -/
theorem save_fits {contents : KeystoreContents} (hserving : serving (.saveFile contents))
    (h : List WinEvent) : (save contents).Safe (WinFits job serving) h fun _ _ => True := by
  refine (safe_bind _ _ _ _).mpr ((encrypt_fits _ h).mono fun h' result hsealed => ?_)
  cases result with
  | error detail => trivial
  | ok cipher =>
      obtain ⟨hsize, blob, len, rfl⟩ := hsealed cipher rfl
      exact replaceKeystore_fits hserving ⟨h, blob, len, hsize, rfl⟩

end Windows

/-- All calls of every operation fit their histories. -/
theorem onWindows_fits {o : Op} (hserving : serving o) (h : List WinEvent) :
    (onWindows o).Safe (WinFits job serving) h fun _ _ => True := by
  cases o with
  | sleep => exact ⟨hserving, fun ok => Windows.oneCall_fits ok _ _⟩
  | lock => exact ⟨hserving, fun ok => Windows.oneCall_fits ok _ _⟩
  | powerOff => exact Windows.powerOff_fits hserving h
  | currentSessionState => exact Windows.currentSessionState_fits h
  | load => exact Windows.load_fits h
  | saveFile contents => exact Windows.save_fits hserving h
  | _ => exact ⟨trivial, fun _ => trivial⟩

/-- All calls of the start of the server fit their histories, and command nothing. -/
theorem startServer_fits (hserving : ∀ o, (StartOp.daemon o).IsLocal → serving o) :
    startServer.Safe (WinFits .startServer serving) [] fun _ _ => True := by
  refine (safe_bind _ _ _ _).mpr
    ((startUp_local.interpreted (fun _ o ho h => ?_) []).mono fun h result _ => ?_)
  · cases o with
    | daemon o => exact onWindows_fits (hserving o ho) h
    | prepare => exact Windows.prepare_fits h
  · cases result <;> exact ⟨trivial, fun _ => trivial⟩

/-- All calls of all threads fit their histories. -/
theorem program_fits (extractSpkiHash : Bytes → Except Crypto.Error SpkiHash) (kind : WinKind) :
    (kind.program extractSpkiHash).Safe (WinFits kind.job fun _ => True) [] fun _ _ => True := by
  obtain ⟨process, job⟩ := kind
  cases job with
  | startServer => exact startServer_fits fun _ _ => trivial
  | thread k =>
      exact safe_interpret (I := fun _ => True) (fun o h _ => onWindows_fits trivial h) _ trivial

/-- All calls of all threads stay such that they fit their histories. -/
theorem fits_of_step {extractSpkiHash : Bytes → Except Crypto.Error SpkiHash}
    {opens : Bytes → Option Bytes} {h h' : WinHost} {a : WinAction}
    (hall : ∀ t ∈ h.threads, t.Keeps (WinFits t.kind.job fun _ => True))
    (hstep : h.step extractSpkiHash opens a = some h') :
    ∀ t ∈ h'.threads, t.Keeps (WinFits t.kind.job fun _ => True) := by
  refine WinHost.threads_of_step (T := fun t => t.Keeps (WinFits t.kind.job fun _ => True))
    ?_ ?_ ?_ hall hstep
  · intro kind
    exact program_fits extractSpkiHash kind
  · intro t t' answer w w' e ht hperform heffect
    rw [Thread.kind_of_perform hperform]
    exact ht.perform hperform
  · intro t ht
    unfold endServerThread
    split
    · trivial
    · exact ht

end Daemon
end WakeMyPc
