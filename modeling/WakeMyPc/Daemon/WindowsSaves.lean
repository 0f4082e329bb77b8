import WakeMyPc.Daemon.WindowsHistory

/-!
# Saves on Windows

The saves of a process have one temporary file.  While no save opens it before another one has
renamed it, a save finds in it what it has written there itself.

Main results:

- Definition `WinHost.SavesAlone`: the steps that leave the temporary files to the saves that
  have them open.
- Theorem `savesOrderly_of_step`: the temporary files stay as the saves have left them.
- Theorem `SavesOrderly.leaves`: what one call does to the keystore file.
-/

namespace WakeMyPc
namespace Daemon

open Foundations
open Protocol (SpkiHash)

/-! ## Temporary files -/

/-- The temporary file of a process. -/
def WinKind.tmp (kind : WinKind) : FileName :=
  .tmp (UInt32.ofNat kind.process)

/-- The thread is about to open the temporary file. -/
def opensTmp (t : WinThread) : Bool :=
  match t.next with
  | some (.file (.create _)) => true
  | _ => false

/-- The thread has opened the temporary file, and has yet to rename it. -/
def inSave (t : WinThread) : Bool :=
  match t.next with
  | some (.file (.write _ _)) => true
  | some (.file (.rename _ _)) => true
  | _ => false

/-- The step opens the temporary file of a process only when no other save has yet to rename
it. -/
def WinHost.SavesAlone (h : WinHost) : WinAction → Prop
  | .perform i _ _ => ∀ t ∈ h.threads[i]?, opensTmp t = true →
      ∀ u ∈ h.threads, u.kind.tmp = t.kind.tmp → inSave u = false
  | _ => True

instance WinHost.SavesAlone.decidable (h : WinHost) : (a : WinAction) → Decidable (h.SavesAlone a)
  | .perform i _ _ => inferInstanceAs (Decidable (∀ t ∈ h.threads[i]?, _))
  | .boot => isTrue trivial
  | .stop => isTrue trivial
  | .accept _ _ _ _ => isTrue trivial
  | .launch _ => isTrue trivial

/-- What a call has left in a temporary file. -/
def LeftInTmp (files : Files FileName) (name : FileName) : WinEvent → Prop
  | ⟨.file (.create _), opened⟩ => ∀ file, (opened : Except IoError ℕ) = .ok file →
      files.entry name = some file ∧ files.read name = some []
  | ⟨.file (.write file bytes), written⟩ => (written : Except IoError Unit) = .ok () →
      files.entry name = some file ∧ files.read name = some bytes
  | _ => True

theorem LeftInTmp.mono {files files' : Files FileName} {name : FileName} {e : WinEvent}
    (h : LeftInTmp files name e) (hentry : files'.entry name = files.entry name)
    (hread : files'.read name = files.read name) : LeftInTmp files' name e := by
  unfold LeftInTmp at *
  split at h
  · rwa [hentry, hread]
  · rwa [hentry, hread]
  · trivial

/-- The temporary file is as the last call of the save that has it open left it, and only one
save has it open. -/
structure TmpsRight (files : Files FileName) (threads : List WinThread) : Prop where
  left : ∀ t ∈ threads, inSave t = true → ∀ e ∈ t.done.getLast?, LeftInTmp files t.kind.tmp e
  single : ∀ (i j : ℕ) t u, threads[i]? = some t → threads[j]? = some u → inSave t = true →
    inSave u = true → t.kind.tmp = u.kind.tmp → i = j

/-- Every save fits its history and asks for the number of its own process, and the temporary
files are right. -/
structure SavesOrderly (h : WinHost) : Prop where
  fits : ∀ t ∈ h.threads, t.Keeps (WinFits t.kind.job fun _ => True)
  pids : ∀ t ∈ h.threads, ∀ pid, ⟨.processId, pid⟩ ∈ t.done → .tmp pid = t.kind.tmp
  tmps : TmpsRight h.world.files h.threads

/-! ## Calls into the file system -/

/-- A call into the file system, when the temporary file is as the save left it. -/
inductive OrderlyCall (files : Files FileName) (t : WinThread) : FileOp → Prop where
  | create : OrderlyCall files t (.create t.kind.tmp)
  | write {file : ℕ} (bytes : Bytes) (hentry : files.entry t.kind.tmp = some file)
      (hread : files.read t.kind.tmp = some []) : OrderlyCall files t (.write file bytes)
  | rename {file : ℕ} {cipher : Bytes} {front : List WinEvent}
      (hentry : files.entry t.kind.tmp = some file)
      (hread : files.read t.kind.tmp = some cipher)
      (hdone : t.done = front ++ [⟨.file (.write file cipher), Except.ok ()⟩]) :
      OrderlyCall files t (.rename t.kind.tmp .keystore)

/-- What one call does to the keystore file: it stays, or gets what the save has written. -/
inductive FileStep (done : List WinEvent) (w : WinWorld) (e : WinEvent) (w' : WinWorld) :
    Prop where
  | same (hfile : w'.file = w.file)
      (hnot : ∀ source target, e ≠ ⟨.file (.rename source target), Except.ok ()⟩)
  | renamed {source : FileName} {file : ℕ} {cipher : Bytes} {front : List WinEvent}
      (he : e = ⟨.file (.rename source .keystore), Except.ok ()⟩)
      (hdone : done = front ++ [⟨.file (.write file cipher), Except.ok ()⟩])
      (hfile : w'.file = some cipher)

/-- What one call leaves of the files. -/
structure CallLeaves (w : WinWorld) (t : WinThread) (e : WinEvent) (w' : WinWorld) : Prop where
  others : ∀ name, name ≠ t.kind.tmp → name ≠ .keystore →
    w'.files.entry name = w.files.entry name ∧ w'.files.read name = w.files.read name
  left : LeftInTmp w'.files t.kind.tmp e
  file : FileStep t.done w e w'

theorem inSave_of_next {t : WinThread} {o : FileOp} (hnext : t.next = some (.file o)) :
    opensTmp t = true ∨ inSave t = true := by
  cases o <;> simp [opensTmp, inSave, hnext]

/-- The next call of a save into the file system. -/
theorem SavesOrderly.call {h : WinHost} (horderly : SavesOrderly h) {t : WinThread}
    (ht : t ∈ h.threads) {o : FileOp} (hnext : t.next = some (.file o)) :
    OrderlyCall h.world.files t o := by
  obtain ⟨contents, cipher, pid, -, hfits⟩ := (horderly.fits t ht).next hnext
  have htmp : ∀ calls, Saving t.done contents cipher pid calls → .tmp pid = t.kind.tmp := by
    rintro calls ⟨front, hdone, -⟩
    exact horderly.pids t ht pid (by simp [hdone])
  cases o with
  | create name =>
      obtain ⟨rfl, hsaving⟩ := hfits
      rw [htmp _ hsaving]
      exact .create
  | write file bytes =>
      obtain ⟨rfl, front, hdone, -⟩ := hfits
      have hsave : inSave t = true := by simp [inSave, hnext]
      obtain ⟨hentry, hread⟩ := horderly.tmps.left t ht hsave
        ⟨.file (.create (.tmp pid)), Except.ok file⟩ (by simp [hdone]) file rfl
      exact .write bytes hentry hread
  | rename source target =>
      obtain ⟨rfl, rfl, file, hsaving⟩ := hfits
      have hsave : inSave t = true := by simp [inSave, hnext]
      have hsource := htmp _ hsaving
      obtain ⟨front, hdone, -⟩ := hsaving
      obtain ⟨hentry, hread⟩ := horderly.tmps.left t ht hsave
        ⟨.file (.write file cipher), Except.ok ()⟩ (by simp [hdone]) rfl
      have hlast : t.done = front ++ [⟨.processId, pid⟩,
          ⟨.file (.create (.tmp pid)), Except.ok file⟩] ++
            [⟨.file (.write file cipher), Except.ok ()⟩] := by simp [hdone]
      rw [hsource]
      exact .rename hentry hread hlast

section Runs

variable {extractSpkiHash : Bytes → Except Crypto.Error SpkiHash} {opens : Bytes → Option Bytes}

/-- Other calls leave the files. -/
theorem files_of_effect {kind : WinKind} {w w' : WinWorld} {e : WinEvent}
    (heffect : WinEffect extractSpkiHash opens kind w e w') :
    w'.files = w.files ∨ ∃ o r, e = ⟨.file o, r⟩ := by
  cases heffect with
  | created name => exact .inr ⟨_, _, rfl⟩
  | written file bytes => exact .inr ⟨_, _, rfl⟩
  | partlyWritten file bytes n e => exact .inr ⟨_, _, rfl⟩
  | renamed hrename => exact .inr ⟨_, _, rfl⟩
  | _ => exact .inl rfl

theorem fileStep_of_files {done : List WinEvent} {w w' : WinWorld} {e : WinEvent}
    (hfiles : w'.files = w.files)
    (hnot : ∀ source target, e ≠ ⟨.file (.rename source target), Except.ok ()⟩) :
    FileStep done w e w' :=
  .same (congrArg (fun files : Files FileName => files.read .keystore) hfiles) hnot

theorem WinKind.tmp_ne (kind : WinKind) : FileName.keystore ≠ kind.tmp := nofun

/-- What one call leaves when the temporary file is as the save left it. -/
theorem OrderlyCall.leaves {w w' : WinWorld} {t : WinThread} {e : WinEvent} {o : FileOp}
    (hcall : OrderlyCall w.files t o) (heffect : WinEffect extractSpkiHash opens t.kind w e w')
    (ho : e.op = .file o) : CallLeaves w t e w' := by
  cases heffect with
  | created name =>
      cases ho
      cases hcall with
      | create =>
          refine ⟨fun name hne _ => ⟨w.files.entry_create_of_ne hne, w.files.read_create hne⟩, ?_,
            .same (w.files.read_create t.kind.tmp_ne) nofun⟩
          rintro file ⟨⟩
          exact ⟨w.files.create_entry _, w.files.read_create_self _⟩
  | notCreated name error =>
      exact ⟨fun _ _ _ => ⟨rfl, rfl⟩, fun _ => nofun, fileStep_of_files rfl nofun⟩
  | written file bytes =>
      cases ho
      cases hcall with
      | write _ hentry hread =>
          exact ⟨fun name hne _ => ⟨rfl, Files.read_write hentry hne bytes⟩,
            fun _ => ⟨hentry, Files.read_write_self hentry hread bytes⟩,
            .same (Files.read_write hentry t.kind.tmp_ne bytes) nofun⟩
  | partlyWritten file bytes n error =>
      cases ho
      cases hcall with
      | write _ hentry hread =>
          exact ⟨fun name hne _ => ⟨rfl, Files.read_write hentry hne _⟩, nofun,
            .same (Files.read_write hentry t.kind.tmp_ne _) nofun⟩
  | @renamed source target files hrename =>
      cases ho
      cases hcall with
      | rename hentry hread hdone =>
          refine ⟨fun name hne hne' => ⟨Files.rename_entry_of_ne hne hne' hrename,
            Files.read_rename_of_ne hne hne' hrename⟩, trivial, .renamed rfl hdone ?_⟩
          obtain ⟨files', hrename', hfile⟩ := Files.read_rename hentry FileName.keystore
          obtain rfl := Option.some.inj (hrename.symm.trans hrename')
          rw [Files.read_of_entry hentry] at hread
          exact hfile.trans hread
  | notRenamed source target error =>
      exact ⟨fun _ _ _ => ⟨rfl, rfl⟩, trivial, fileStep_of_files rfl nofun⟩
  | other hother => cases ho ▸ hother
  | _ => cases ho

/-- What one call leaves. -/
theorem SavesOrderly.leaves {h : WinHost} (horderly : SavesOrderly h) {t : WinThread}
    (ht : t ∈ h.threads) {e : WinEvent} {w : WinWorld} (hnext : t.next = some e.op)
    (heffect : WinEffect extractSpkiHash opens t.kind h.world e w) : CallLeaves h.world t e w := by
  obtain ⟨o, r⟩ := e
  cases o with
  | file o => exact (horderly.call ht hnext).leaves heffect rfl
  | _ =>
      have hsame : w.files = h.world.files := (files_of_effect heffect).resolve_right nofun
      exact ⟨fun _ _ _ => by rw [hsame]; exact ⟨rfl, rfl⟩, trivial, fileStep_of_files hsame nofun⟩

/-! ## Steps -/

/-- The number of the process is the one of the thread. -/
theorem pids_of_step {h h' : WinHost} {a : WinAction}
    (hall : ∀ t ∈ h.threads, ∀ pid, ⟨.processId, pid⟩ ∈ t.done → .tmp pid = t.kind.tmp)
    (hstep : h.step extractSpkiHash opens a = some h') :
    ∀ t ∈ h'.threads, ∀ pid, ⟨.processId, pid⟩ ∈ t.done → .tmp pid = t.kind.tmp := by
  refine WinHost.threads_of_step
    (T := fun t => ∀ pid, ⟨.processId, pid⟩ ∈ t.done → .tmp pid = t.kind.tmp) ?_ ?_ ?_ hall hstep
  · intro kind pid hpid
    cases hpid
  · intro t t' answer w w' e ht hperform heffect pid hpid
    rw [Thread.done_of_perform hperform] at hpid
    rw [Thread.kind_of_perform hperform]
    rcases List.mem_append.mp hpid with hold | hnew
    · exact ht pid hold
    · obtain rfl := List.mem_singleton.mp hnew
      cases heffect with
      | processId => rfl
      | other hother => cases hother
  · intro t ht pid hpid
    rw [endServerThread_done] at hpid
    rw [endServerThread_kind]
    exact ht pid hpid

/-- A thread that has its temporary file open has just made a call into the file system. -/
theorem last_of_inSave {t : WinThread} (hfits : t.Keeps (WinFits t.kind.job fun _ => True))
    (hsave : inSave t = true) : ∃ o r, (⟨.file o, r⟩ : WinEvent) ∈ t.done.getLast? := by
  unfold inSave at hsave
  split at hsave
  · next file bytes hnext =>
      obtain ⟨contents, cipher, pid, -, -, front, hdone, -⟩ := hfits.next hnext
      exact ⟨.create (.tmp pid), Except.ok file, by simp [hdone]⟩
  · next source target hnext =>
      obtain ⟨contents, cipher, pid, -, -, -, file, front, hdone, -⟩ := hfits.next hnext
      exact ⟨.write file cipher, Except.ok (), by simp [hdone]⟩
  · cases hsave

/-- A thread that starts has no temporary file open. -/
theorem inSave_start (kind : WinKind) : inSave (kind.start extractSpkiHash) = false := by
  refine Bool.eq_false_iff.mpr fun hsave => ?_
  obtain ⟨o, r, hlast⟩ := last_of_inSave (t := kind.start extractSpkiHash)
    (program_fits extractSpkiHash kind) hsave
  cases hlast

theorem inSave_of_end {t : WinThread} (hsave : inSave (endServerThread t) = true) :
    inSave t = true := by
  unfold endServerThread at hsave
  split at hsave
  · cases hsave
  · exact hsave

/-- One more thread that has no temporary file open. -/
theorem TmpsRight.concat {files : Files FileName} {threads : List WinThread}
    (h : TmpsRight files threads) {u : WinThread} (hu : inSave u = false) :
    TmpsRight files (threads ++ [u]) where
  left := by
    intro t ht hsave
    rcases List.mem_append.mp ht with hold | hnew
    · exact h.left t hold hsave
    · obtain rfl := List.mem_singleton.mp hnew
      cases hu.symm.trans hsave
  single := by
    intro i j t t' hi hj ht ht'
    rcases getElem?_concat_cases hi with hi | ⟨-, rfl⟩
    · rcases getElem?_concat_cases hj with hj | ⟨-, rfl⟩
      · exact h.single i j t t' hi hj ht ht'
      · cases hu.symm.trans ht'
    · cases hu.symm.trans ht

/-- The threads of the server end. -/
theorem TmpsRight.ends {files : Files FileName} {threads : List WinThread}
    (h : TmpsRight files threads) : TmpsRight files (threads.map endServerThread) where
  left := by
    intro t ht hsave
    obtain ⟨t₀, ht₀, rfl⟩ := List.mem_map.mp ht
    rw [endServerThread_done, endServerThread_kind]
    exact h.left t₀ ht₀ (inSave_of_end hsave)
  single := by
    intro i j t u hi hj ht hu htmp
    rw [List.getElem?_map] at hi hj
    obtain ⟨t₀, ht₀, rfl⟩ := Option.map_eq_some_iff.mp hi
    obtain ⟨u₀, hu₀, rfl⟩ := Option.map_eq_some_iff.mp hj
    rw [endServerThread_kind, endServerThread_kind] at htmp
    exact h.single i j t₀ u₀ ht₀ hu₀ (inSave_of_end ht) (inSave_of_end hu) htmp

/-- While a thread calls into the file system, no other one has the same temporary file open. -/
theorem SavesOrderly.tmp_ne {h : WinHost} (horderly : SavesOrderly h) {i j : ℕ} {t u : WinThread}
    {outside : (o : WinOp) → WinAns o} {filled : Bytes} (ht : h.threads[i]? = some t)
    (halone : h.SavesAlone (.perform i outside filled)) {o : FileOp}
    (hnext : t.next = some (.file o)) (hu : h.threads[j]? = some u) (hji : j ≠ i)
    (hsave : inSave u = true) : u.kind.tmp ≠ t.kind.tmp := by
  intro htmp
  rcases inSave_of_next hnext with hopens | hin
  · have hnot := halone t ht hopens u (List.mem_of_getElem? hu) htmp
    cases hnot.symm.trans hsave
  · exact hji (horderly.tmps.single j i u t hu ht hsave hin htmp)

/-- A thread makes a call. -/
theorem SavesOrderly.perform {h : WinHost} (horderly : SavesOrderly h) {i : ℕ} {t t' : WinThread}
    {outside : (o : WinOp) → WinAns o} {filled : Bytes} {e : WinEvent} {w : WinWorld}
    (halone : h.SavesAlone (.perform i outside filled)) (ht : h.threads[i]? = some t)
    (hthread : t.perform (t.kind.answer extractSpkiHash opens outside filled h.world) =
      some (e, t', w))
    (heffect : WinEffect extractSpkiHash opens t.kind h.world e w)
    (hfits : t'.Keeps (WinFits t'.kind.job fun _ => True)) :
    TmpsRight w.files (h.threads.set i t') := by
  have hnext := Thread.next_of_perform hthread
  have hkind := Thread.kind_of_perform hthread
  have hdone := Thread.done_of_perform hthread
  have hleaves := horderly.leaves (List.mem_of_getElem? ht) hnext heffect
  -- the call is not about the files, or the others have other temporary files
  have hothers : ∀ j u, h.threads[j]? = some u → j ≠ i → inSave u = true →
      w.files = h.world.files ∨ u.kind.tmp ≠ t.kind.tmp := by
    intro j u hu hji hsave
    refine (files_of_effect heffect).imp_right ?_
    rintro ⟨o, r, rfl⟩
    exact horderly.tmp_ne ht halone hnext hu hji hsave
  -- a save that has the file open now has opened it, or had it open
  have hnone : ∀ j u, h.threads[j]? = some u → j ≠ i → inSave u = true →
      inSave t' = true → u.kind.tmp ≠ t'.kind.tmp := by
    intro j u hu hji hsave hsave'
    obtain ⟨o, r, hlast⟩ := last_of_inSave hfits hsave'
    rw [hdone] at hlast
    obtain rfl : e = ⟨.file o, r⟩ := by simpa using hlast
    rw [hkind]
    exact horderly.tmp_ne ht halone hnext hu hji hsave
  refine ⟨?_, ?_⟩
  · intro u hu hsave e₀ hlast
    obtain ⟨j, hj⟩ := List.getElem?_of_mem hu
    rcases getElem?_set_cases hj with ⟨rfl, rfl⟩ | ⟨hji, hj⟩
    · obtain rfl : e = e₀ := by simpa [hdone] using hlast
      rw [hkind]
      exact hleaves.left
    · have hold := horderly.tmps.left u (List.mem_of_getElem? hj) hsave e₀ hlast
      rcases hothers j u hj hji hsave with hfiles | hne
      · rwa [hfiles]
      · obtain ⟨hentry, hread⟩ := hleaves.others _ hne u.kind.tmp_ne.symm
        exact hold.mono hentry hread
  · intro j k u v hj hk hu hv htmp
    rcases getElem?_set_cases hj with ⟨hji, rfl⟩ | ⟨hji, hu₀⟩ <;>
      rcases getElem?_set_cases hk with ⟨hki, rfl⟩ | ⟨hki, hv₀⟩
    · rw [hji, hki]
    · exact absurd htmp.symm (hnone k v hv₀ hki hv hu)
    · exact absurd htmp (hnone j u hu₀ hji hu hv)
    · exact horderly.tmps.single j k u v hu₀ hv₀ hu hv htmp

/-- With a step that opens no temporary file that another save has yet to rename, the temporary
files stay as the saves have left them. -/
theorem savesOrderly_of_step {h h' : WinHost} {a : WinAction} (horderly : SavesOrderly h)
    (halone : h.SavesAlone a) (hstep : h.step extractSpkiHash opens a = some h') :
    SavesOrderly h' := by
  have hfits := fits_of_step horderly.fits hstep
  refine ⟨hfits, pids_of_step horderly.pids hstep, ?_⟩
  cases WinHost.stepped_of_step hstep with
  | boot hprocess => exact horderly.tmps.concat (inSave_start _)
  | stop => exact horderly.tmps.ends
  | accept hprocess hserver certs peerAddr rounds reads =>
      exact horderly.tmps.concat (inSave_start _)
  | launch command => exact horderly.tmps.concat (inSave_start _)
  | perform ht hthread heffect hfree =>
      exact horderly.perform halone ht hthread heffect
        (hfits _ (List.mem_set (List.getElem?_eq_some_iff.mp ht).1 _))

/-- No save has begun at first. -/
theorem savesOrderly_initial (files : Files FileName) : SavesOrderly (.initial files) := by
  refine ⟨nofun, nofun, nofun, fun i j t u hi => ?_⟩
  simp [WinHost.initial] at hi

/-- The temporary files are as the saves have left them in every run in which no save opens one
that another has yet to rename. -/
theorem savesOrderly_of_steps {files : Files FileName} {h : WinHost} {actions : List WinAction}
    (halone : Along (WinHost.step extractSpkiHash opens) WinHost.SavesAlone (.initial files)
      actions)
    (hsteps : takeSteps (WinHost.step extractSpkiHash opens) (.initial files) actions = some h) :
    SavesOrderly h :=
  halone.invariant SavesOrderly
    (fun _ _ _ horderly halone hstep => savesOrderly_of_step horderly halone hstep)
    (savesOrderly_initial files) hsteps

end Runs

end Daemon
end WakeMyPc
