import WakeMyPc.Daemon.WindowsCommands

/-!
# What is loaded on Windows

A load reads the keystore file, has the bytes decrypted and reads the contents in them, while
other processes go on to write the file.

Main results:

- Theorem `served_is_loaded`: the server starts to serve only contents that it has loaded.
- Theorem `reads_of_steps`: unless saves of one process overlap, the bytes that are read were in
  the file at first, or were saved as a whole.
- Theorem `loaded_was_saved`: so contents that are loaded were in the file at first, or were saved.
-/

namespace WakeMyPc
namespace Daemon

open Foundations
open Foundations.Prog (safe_bind safe_interpret)
open Protocol (SpkiHash)

/-! ## Calls that concern neither the file nor the server -/

/-- The call neither concerns the file nor the server. -/
def WinOp.isInner : WinOp → Bool
  | .readKeystore => false
  | .file _ => false
  | .serve _ => false
  | .exit => false
  | .daemon _ => false
  | _ => true

/-- The call does not end the start of a server. -/
def WinOp.goesOn : WinOp → Bool
  | .serve _ => false
  | .exit => false
  | _ => true

theorem WinOp.goesOn_of_isInner {o : WinOp} (h : o.isInner = true) : o.goesOn = true := by
  cases o <;> first | rfl | cases h

/-- The program makes only inner calls. -/
abbrev Inner {α : Type} (p : WinTask α) : Prop :=
  p.Uses fun o => o.isInner = true

namespace Windows

theorem failed_inner {α : Type} (call : String) :
    Inner (failed call : WinTask (Except OsHandlerError α)) :=
  ⟨rfl, fun _ => trivial⟩

theorem enableShutdownPrivilege_inner : Inner enableShutdownPrivilege := by
  refine ⟨rfl, fun (opened : Option ℕ) => ?_⟩
  cases opened with
  | none => exact failed_inner _
  | some token =>
      refine ⟨rfl, fun (found : Option Luid) => ?_⟩
      cases found with
      | none => exact ⟨rfl, fun _ => failed_inner _⟩
      | some luid =>
          refine ⟨rfl, fun (ok : Bool) => ⟨rfl, fun (err : UInt32) => ⟨rfl, fun _ => ?_⟩⟩⟩
          change Inner (if _ then _ else if _ then _ else _)
          split
          · trivial
          · split <;> trivial

theorem prepare_inner : Inner prepare := by
  refine ⟨rfl, fun (ready : Option Bool) => ?_⟩
  change Inner (if _ then _ else _)
  split
  · trivial
  · refine enableShutdownPrivilege_inner.bind fun result => ?_
    cases result with
    | error e => trivial
    | ok _ => exact ⟨rfl, fun _ => trivial⟩

/-- A handler that is one call. -/
theorem oneCall_inner (ok : Bool) (call : String) :
    Inner (if !ok then failed call else return .ok () : WinTask (Except OsHandlerError Unit)) := by
  split
  · exact failed_inner call
  · trivial

theorem powerOff_inner : Inner powerOff := by
  refine ⟨rfl, fun (ready : Option Bool) => ?_⟩
  change Inner (if _ then _ else _)
  split
  · trivial
  · exact ⟨rfl, fun ok => oneCall_inner ok _⟩

theorem currentSessionState_inner : Inner currentSessionState := by
  refine ⟨rfl, fun (sessionId : UInt32) => ?_⟩
  change Inner (if _ then _ else _)
  split
  · trivial
  · refine ⟨rfl, fun (queried : Bool × Option ℕ) => ?_⟩
    obtain ⟨ok, buffer⟩ := queried
    cases ok with
    | false => trivial
    | true =>
        cases buffer with
        | none => trivial
        | some buffer =>
            refine ⟨rfl, fun (info : WtsInfo) => ⟨rfl, fun _ => ?_⟩⟩
            change Inner (if _ then _ else if _ then _ else _)
            split
            · trivial
            · split <;> trivial

theorem takeBlob_inner (call : String) (made : Option (ℕ × UInt32)) :
    Inner (takeBlob call made) := by
  cases made with
  | none => exact ⟨rfl, fun _ => trivial⟩
  | some blob => exact ⟨rfl, fun _ => ⟨rfl, fun _ => trivial⟩⟩

theorem encrypt_inner (plain : Bytes) : Inner (encrypt plain) := by
  unfold encrypt
  split
  · trivial
  · exact ⟨rfl, fun made => takeBlob_inner _ made⟩

theorem decrypt_inner (cipher : Bytes) : Inner (decrypt cipher) := by
  unfold decrypt
  split
  · trivial
  · exact ⟨rfl, fun made => takeBlob_inner _ made⟩

end Windows

/-- The program does not end the start of a server. -/
abbrev Unending {α : Type} (p : WinTask α) : Prop :=
  p.Uses fun o => o.goesOn = true

/-- No call of a save into the file system ends the start of a server. -/
theorem replaceKeystore_unending (cipher : Bytes) : Unending (Windows.replaceKeystore cipher) := by
  rw [Windows.replaceKeystore_eq]
  refine ⟨rfl, fun (pid : UInt32) => ⟨rfl, fun (opened : Except IoError ℕ) => ?_⟩⟩
  cases opened with
  | error e => trivial
  | ok file =>
      refine ⟨rfl, fun (written : Except IoError Unit) => ?_⟩
      cases written with
      | error e => trivial
      | ok _ =>
          refine ⟨rfl, fun (renamed : Except IoError Unit) => ?_⟩
          cases renamed <;> trivial

/-- No operation ends the start of a server. -/
theorem onWindows_unending (o : Op) : Unending (onWindows o) := by
  have hinner : ∀ {α : Type} {p : WinTask α}, Inner p → Unending p :=
    fun hp => Prog.Uses.mono hp fun _ => WinOp.goesOn_of_isInner
  cases o with
  | sleep => exact ⟨rfl, fun ok => hinner (Windows.oneCall_inner ok _)⟩
  | lock => exact ⟨rfl, fun ok => hinner (Windows.oneCall_inner ok _)⟩
  | powerOff => exact hinner Windows.powerOff_inner
  | currentSessionState => exact hinner Windows.currentSessionState_inner
  | load =>
      refine ⟨rfl, fun (read : Except ReadError Bytes) => ?_⟩
      cases read with
      | error e => cases e <;> trivial
      | ok cipher =>
          refine (hinner (Windows.decrypt_inner cipher)).bind fun result => ?_
          cases result <;> trivial
  | saveFile contents =>
      refine (hinner (Windows.encrypt_inner _)).bind fun result => ?_
      cases result with
      | error detail => trivial
      | ok cipher => exact replaceKeystore_unending cipher
  | _ => exact ⟨rfl, fun _ => trivial⟩

theorem prepare_unending : Unending Windows.prepare :=
  Prog.Uses.mono Windows.prepare_inner fun _ => WinOp.goesOn_of_isInner

/-! ## What is served -/

/-- A load that gave these contents was carried out. -/
def LoadedIn (h : List WinEvent) (c : KeystoreContents) : Prop :=
  ∃ front events back, h = front ++ events ++ back ∧ Windows.load.Trace events (.ok (some c))

theorem LoadedIn.append {h : List WinEvent} {c : KeystoreContents} (hloaded : LoadedIn h c)
    (events : List WinEvent) : LoadedIn (h ++ events) c := by
  obtain ⟨front, inner, back, rfl, htrace⟩ := hloaded
  exact ⟨front, inner, back ++ events, List.append_assoc _ _ _, htrace⟩

/-- Only contents that were loaded are served. -/
def ServeFits (h : List WinEvent) : WinOp → Prop
  | .serve c => LoadedIn h c
  | _ => True

theorem serveFits_of_goesOn {h : List WinEvent} {o : WinOp} (ho : o.goesOn = true) :
    ServeFits h o := by
  cases o <;> trivial

/-- A program that does not serve goes through one of its traces. -/
theorem Unending.traced {α : Type} {p : WinTask α} (hp : Unending p) (h : List WinEvent) :
    p.Safe ServeFits h fun h' a => ∃ events, h' = h ++ events ∧ p.Trace events a :=
  ((hp.safe (fun _ _ => serveFits_of_goesOn) h).traced).mono fun _ _ hspec => hspec.2

/-- A start that succeeds has loaded the contents. -/
theorem startUp_serveFits :
    (startUp.interpret startOnWindows).Safe ServeFits [] fun h result =>
      ∀ c, result = .ok c → LoadedIn h c := by
  refine ⟨trivial, fun (dir : Except KeystoreError Unit) => ?_⟩
  cases dir with
  | error e => exact nofun
  | ok _ =>
      refine (safe_bind Windows.load _ _ _).mpr
        (((onWindows_unending .load).traced _).mono fun h result htrace => ?_)
      obtain ⟨events, rfl, htrace⟩ := htrace
      cases result with
      | error e => exact nofun
      | ok found =>
          cases found with
          | none => exact nofun
          | some contents =>
              refine ⟨trivial, fun (identity : Except Crypto.Error Unit) => ?_⟩
              cases identity with
              | error e => exact nofun
              | ok _ =>
                  refine (safe_bind Windows.prepare _ _ _).mpr
                    ((prepare_unending.traced _).mono fun h _ hprepared => ?_)
                  obtain ⟨after, rfl, -⟩ := hprepared
                  rintro c ⟨⟩
                  exact ⟨_, events, _, List.append_assoc _ _ _, htrace⟩

/-- All programs serve only contents that they have loaded. -/
theorem program_serveFits (extractSpkiHash : Bytes → Except Crypto.Error SpkiHash)
    (kind : WinKind) :
    (kind.program extractSpkiHash).Safe ServeFits [] fun _ _ => True := by
  obtain ⟨process, job⟩ := kind
  cases job with
  | startServer =>
      refine (safe_bind _ _ _ _).mpr (startUp_serveFits.mono fun h result hloaded => ?_)
      cases result with
      | error e => exact ⟨trivial, fun _ => trivial⟩
      | ok c => exact ⟨hloaded c rfl, fun _ => trivial⟩
  | thread k =>
      refine safe_interpret (I := fun _ => True) (fun o h _ => ?_) _ trivial
      exact ((onWindows_unending o).traced h).mono fun _ _ _ => trivial

/-! ## Loads that succeed -/

namespace Windows

/-- What is decrypted was copied from the blob of the call. -/
theorem decrypt_spec (cipher : Bytes) (h : List WinEvent) :
    (decrypt cipher).Safe (fun _ _ => True) h fun h' result => ∀ plain, result = .ok plain →
      ∃ blob len, h' = h ++ [⟨.cryptUnprotectData cipher 1, some (blob, len)⟩,
        ⟨.copyBlob blob len, plain⟩, ⟨.localFree blob, ()⟩] := by
  unfold decrypt
  split
  · exact nofun
  · refine ⟨trivial, fun (made : Option (ℕ × UInt32)) => ?_⟩
    cases made with
    | none => exact ⟨trivial, fun _ => nofun⟩
    | some blob =>
        obtain ⟨blob, len⟩ := blob
        refine ⟨trivial, fun (bytes : Bytes) => ⟨trivial, fun _ => ?_⟩⟩
        rintro plain ⟨⟩
        exact ⟨blob, len, by simp only [List.append_assoc]; rfl⟩

/-- What is loaded was decrypted from the bytes of the file. -/
theorem load_spec (h : List WinEvent) :
    load.Safe (fun _ _ => True) h fun h' result => ∀ c, result = .ok (some c) →
      ∃ cipher blob len plain, h' = h ++ [⟨.readKeystore, Except.ok cipher⟩,
          ⟨.cryptUnprotectData cipher 1, some (blob, len)⟩, ⟨.copyBlob blob len, plain⟩,
          ⟨.localFree blob, ()⟩] ∧
        loadPlaintext plain = .ok c := by
  refine ⟨trivial, fun (read : Except ReadError Bytes) => ?_⟩
  cases read with
  | error e => cases e <;> exact nofun
  | ok cipher =>
      refine (safe_bind (decrypt cipher) _ _ _).mpr
        ((decrypt_spec cipher _).mono fun h' result hspec => ?_)
      cases result with
      | error detail => exact nofun
      | ok plain =>
          obtain ⟨blob, len, rfl⟩ := hspec plain rfl
          intro c hc
          refine ⟨cipher, blob, len, plain, List.append_assoc _ _ _, ?_⟩
          cases hload : loadPlaintext plain with
          | error e =>
              rw [hload] at hc
              cases hc
          | ok contents =>
              rw [hload] at hc
              cases hc
              rfl

end Windows

/-- The contents of the bytes of a keystore file, if they can be read at all. -/
def contentsOf (opens : Bytes → Option Bytes) (cipher : Bytes) : Option KeystoreContents :=
  (opens cipher).bind fun plain => (loadPlaintext plain).toOption

theorem contentsOf_eq {opens : Bytes → Option Bytes} {cipher plain : Bytes} {c : KeystoreContents}
    (hopens : opens cipher = some plain) (hload : loadPlaintext plain = .ok c) :
    contentsOf opens cipher = some c := by
  simp only [contentsOf, hopens, Option.bind_some, hload]
  rfl

/-- A load that succeeds gives the contents of the bytes that it has read. -/
theorem contents_of_trace {opens : Bytes → Option Bytes} {events : List WinEvent}
    {c : KeystoreContents} (htrace : Windows.load.Trace events (.ok (some c)))
    (hcopied : events.IsChain (CopiedRight opens)) :
    ∃ cipher rest, events = ⟨.readKeystore, Except.ok cipher⟩ :: rest ∧
      contentsOf opens cipher = some c := by
  obtain ⟨cipher, blob, len, plain, rfl, hload⟩ := (Windows.load_spec []).trace htrace c rfl
  -- the copy comes right after the call that has filled the blob
  have hopens : opens cipher = some plain :=
    (List.isChain_cons_cons.mp (List.isChain_cons_cons.mp hcopied).2).1 rfl
  exact ⟨cipher, _, rfl, contentsOf_eq hopens hload⟩

/-- Contents that were loaded are those of bytes that were read. -/
theorem LoadedIn.contents {opens : Bytes → Option Bytes} {h : List WinEvent} {c : KeystoreContents}
    (hloaded : LoadedIn h c) (hcopied : h.IsChain (CopiedRight opens)) :
    ∃ cipher, ⟨.readKeystore, Except.ok cipher⟩ ∈ h ∧ contentsOf opens cipher = some c := by
  obtain ⟨front, events, back, rfl, htrace⟩ := hloaded
  have hchain := (List.isChain_append.mp (List.isChain_append.mp hcopied).1).2.1
  obtain ⟨cipher, rest, rfl, hcontents⟩ := contents_of_trace htrace hchain
  exact ⟨cipher, by simp, hcontents⟩

section Runs

variable {extractSpkiHash : Bytes → Except Crypto.Error SpkiHash} {opens : Bytes → Option Bytes}
  {files : Files FileName} {file : Option Bytes}

/-- Contents that are served have been loaded by the thread that serves them. -/
theorem served_is_loaded {h : WinHost} {actions : List WinAction}
    (hsteps : takeSteps (WinHost.step extractSpkiHash opens) (WinHost.initial files) actions =
      some h)
    {t : WinThread} (ht : t ∈ h.threads) {c : KeystoreContents}
    (hserve : ⟨.serve c, ()⟩ ∈ t.done) : LoadedIn t.done c := by
  obtain ⟨front, back, hdone⟩ := List.append_of_mem hserve
  have hfits := (program_serveFits extractSpkiHash t.kind).performs
    (winFollows_of_steps hsteps t ht).1 front _ back hdone
  rw [hdone]
  exact LoadedIn.append hfits _

/-! ## Bytes that are read -/

/-- The bytes were in the file at first, or are what some thread has encrypted and saved. -/
def BytesOrigin (opens : Bytes → Option Bytes) (file : Option Bytes) (h : WinHost)
    (cipher : Bytes) : Prop :=
  file = some cipher ∨ ∃ t ∈ h.threads, ∃ contents, Wrote t contents cipher ∧
    opens cipher = some (savePlaintext contents) ∧
    loadPlaintext (savePlaintext contents) = .ok contents.reloaded

theorem BytesOrigin.persists {h h' : WinHost} {a : WinAction} {cipher : Bytes}
    (horigin : BytesOrigin opens file h cipher)
    (hstep : h.step extractSpkiHash opens a = some h') : BytesOrigin opens file h' cipher := by
  rcases horigin with hold | ⟨t, ht, contents, hwrote, hloads⟩
  · exact .inl hold
  · obtain ⟨t', ht', -, events, hdone⟩ := threads_persist hstep ht
    exact .inr ⟨t', ht', contents, hwrote.persists hdone, hloads⟩

/-- The bytes in the file have such an origin. -/
theorem bytesOrigin_of_file {h : WinHost} (hwritten : FileWritten opens file h) {cipher : Bytes}
    (hcipher : h.world.file = some cipher) : BytesOrigin opens file h cipher := by
  rcases hwritten with hold | ⟨t, ht, contents, cipher', hwrote, hcipher', hloads⟩
  · exact .inl (hold.symm.trans hcipher)
  · obtain rfl := Option.some.inj (hcipher'.symm.trans hcipher)
    exact .inr ⟨t, ht, contents, hwrote, hloads⟩

/-- A read gives the bytes that are in the file. -/
theorem file_of_read {kind : WinKind} {w w' : WinWorld} {cipher : Bytes}
    (heffect : WinEffect extractSpkiHash opens kind w ⟨.readKeystore, Except.ok cipher⟩ w') :
    w.file = some cipher := by
  cases heffect with
  | read hfile => exact hfile
  | other hother => cases hother

/-- All bytes that were read have such an origin. -/
def ReadsWritten (opens : Bytes → Option Bytes) (file : Option Bytes) (h : WinHost) : Prop :=
  ∀ t ∈ h.threads, ∀ cipher, ⟨.readKeystore, Except.ok cipher⟩ ∈ t.done →
    BytesOrigin opens file h cipher

theorem readsWritten_of_step {h h' : WinHost} {a : WinAction}
    (hwritten : FileWritten opens file h) (hreads : ReadsWritten opens file h)
    (hstep : h.step extractSpkiHash opens a = some h') : ReadsWritten opens file h' := by
  have hold : ∀ t ∈ h.threads, ∀ cipher, ⟨.readKeystore, Except.ok cipher⟩ ∈ t.done →
      BytesOrigin opens file h' cipher :=
    fun t ht cipher hread => (hreads t ht cipher hread).persists hstep
  have hspawn : ∀ kind : WinKind, ∀ t ∈ h.threads ++ [kind.start extractSpkiHash], ∀ cipher,
      ⟨.readKeystore, Except.ok cipher⟩ ∈ t.done → BytesOrigin opens file h' cipher := by
    intro kind t ht cipher hread
    rcases List.mem_append.mp ht with hmem | hnew
    · exact hold t hmem cipher hread
    · obtain rfl := List.mem_singleton.mp hnew
      exact absurd hread List.not_mem_nil
  cases WinHost.stepped_of_step hstep with
  | boot hprocess => exact hspawn _
  | stop =>
      intro t ht cipher hread
      obtain ⟨t₀, ht₀, rfl⟩ := List.mem_map.mp ht
      rw [endServerThread_done] at hread
      exact hold t₀ ht₀ cipher hread
  | accept hprocess hserver certs peerAddr rounds reads => exact hspawn _
  | launch command => exact hspawn _
  | @perform i outside filled t t' e w ht hthread heffect hfree =>
      intro u hu cipher hread
      rcases List.mem_or_eq_of_mem_set hu with hmem | rfl
      · exact hold u hmem cipher hread
      · obtain ⟨k, -, -, hafter⟩ := Thread.perform_eq_some hthread
        rw [hafter] at hread
        rcases List.mem_append.mp hread with hdone | hlast
        · exact hold t (List.mem_of_getElem? ht) cipher hdone
        · obtain rfl := List.mem_singleton.mp hlast
          exact (bytesOrigin_of_file hwritten (file_of_read heffect)).persists hstep

/-- In every run in which no save opens the temporary file of its process while another has yet
to rename it, the bytes that any thread has read were in the file at first, or were saved as a
whole. -/
theorem reads_of_steps {h : WinHost} {actions : List WinAction}
    (halone : Along (WinHost.step extractSpkiHash opens) WinHost.SavesAlone
      (WinHost.initial files) actions)
    (hsteps : takeSteps (WinHost.step extractSpkiHash opens) (WinHost.initial files) actions =
      some h) :
    ReadsWritten opens (files.read .keystore) h := by
  have hall := halone.invariant
    (fun h : WinHost => SavesOrderly h ∧ (∀ t ∈ h.threads, BlobsRight opens h.world t) ∧
      FileWritten opens (files.read .keystore) h ∧ ReadsWritten opens (files.read .keystore) h)
    (fun h a h' hall halone hstep => ⟨savesOrderly_of_step hall.1 halone hstep,
      blobsRight_of_step hall.2.1 hstep, fileWritten_of_step hall.1 hall.2.1 hall.2.2.1 hstep,
      readsWritten_of_step hall.2.2.1 hall.2.2.2 hstep⟩)
    ⟨savesOrderly_initial files, by simp [WinHost.initial], .inl rfl,
      by simp [ReadsWritten, WinHost.initial]⟩ hsteps
  exact hall.2.2.2

/-! ## Contents that are loaded -/

/-- The contents are those of the file at first, or some thread has saved them. -/
def ContentsOrigin (opens : Bytes → Option Bytes) (file : Option Bytes) (h : WinHost)
    (c : KeystoreContents) : Prop :=
  file.bind (contentsOf opens) = some c ∨
    ∃ t ∈ h.threads, ∃ contents cipher, Wrote t contents cipher ∧ c = contents.reloaded

theorem contentsOrigin_of_bytes {h : WinHost} {cipher : Bytes} {c : KeystoreContents}
    (horigin : BytesOrigin opens file h cipher) (hc : contentsOf opens cipher = some c) :
    ContentsOrigin opens file h c := by
  rcases horigin with rfl | ⟨t, ht, contents, hwrote, hopens, hloads⟩
  · exact .inl hc
  · have hcontents := contentsOf_eq hopens hloads
    exact .inr ⟨t, ht, contents, cipher, hwrote, Option.some.inj (hc.symm.trans hcontents)⟩

/-- In every run in which no save opens the temporary file of its process while another has yet
to rename it, contents that a thread has loaded, or that the server starts to serve, are those of
the keystore file at first or what some thread has saved, also when the file is replaced between
the read and the end of the load; and contents that a thread serves, it has loaded itself. -/
theorem loaded_was_saved {h : WinHost} {actions : List WinAction}
    (halone : Along (WinHost.step extractSpkiHash opens) WinHost.SavesAlone
      (WinHost.initial files) actions)
    (hsteps : takeSteps (WinHost.step extractSpkiHash opens) (WinHost.initial files) actions =
      some h)
    {t : WinThread} (ht : t ∈ h.threads) {c : KeystoreContents}
    (hc : LoadedIn t.done c ∨ ⟨.serve c, ()⟩ ∈ t.done) :
    LoadedIn t.done c ∧ ContentsOrigin opens (files.read .keystore) h c := by
  have hloaded : LoadedIn t.done c := hc.elim id (served_is_loaded hsteps ht)
  obtain ⟨cipher, hread, hcontents⟩ := hloaded.contents (blobsRight_of_steps hsteps t ht).copied
  exact ⟨hloaded, contentsOrigin_of_bytes (reads_of_steps halone hsteps t ht cipher hread)
    hcontents⟩

end Runs

/-- All phones are revoked after the start of a server has read the keystore, and before it
serves. -/
def overtakenLoad : List WinAction :=
  .boot :: List.replicate 2 (goOn pairedContents 0 (succeeding pairedContents)) ++
    .launch .uninstallRevokeBroadcast ::
      List.replicate 4 (goOn pairedContents 1 (succeeding pairedContents)) ++
    List.replicate 7 (goOn (Change.revokeAll.apply pairedContents) 1 (succeeding pairedContents)) ++
    List.replicate 12 (goOn pairedContents 0 (succeeding pairedContents))

/-- The server starts with the contents of the file at first. -/
theorem server_loads_first :
    ∃ h t, takeSteps (WinHost.step phoneSpki opensPlain) (WinHost.initial savedFiles)
        overtakenLoad = some h ∧
      t ∈ h.threads ∧ ⟨.serve pairedContents, ()⟩ ∈ t.done ∧
      h.world.file ≠ savedFiles.read .keystore ∧ LoadedIn t.done pairedContents ∧
      ContentsOrigin opensPlain (savedFiles.read .keystore) h pairedContents := by
  have hview : ((takeSteps (WinHost.step phoneSpki opensPlain) (WinHost.initial savedFiles)
      overtakenLoad).bind fun h => h.threads.head?.bind fun t => t.done.getLast?.map fun e =>
        (e, h.world.file == savedFiles.read .keystore)) =
      some (⟨.serve pairedContents, ()⟩, false) := by
    rfl
  obtain ⟨h, hsteps, hhead⟩ := Option.bind_eq_some_iff.mp hview
  obtain ⟨t, ht, hlast⟩ := Option.bind_eq_some_iff.mp hhead
  obtain ⟨e, hlast, heq⟩ := Option.map_eq_some_iff.mp hlast
  obtain ⟨rfl, hfile⟩ := Prod.mk.inj heq
  have hmem := List.mem_of_mem_head? ht
  have hserve := List.mem_of_getLast? hlast
  exact ⟨h, t, hsteps, hmem, hserve, by simpa using hfile,
    loaded_was_saved (by decide) hsteps hmem (.inr hserve)⟩

end Daemon
end WakeMyPc
