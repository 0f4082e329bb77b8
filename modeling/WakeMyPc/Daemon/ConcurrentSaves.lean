import WakeMyPc.Daemon.FileSystem
import WakeMyPc.Foundations.Runs

/-!
# Saves of one process at the same time

A save writes the encrypted contents to a temporary file, and then renames that file to
the keystore.  All saves of a process have the same temporary file, and no lock is held
while they write it.

Main results:

- Theorem `exec_keystoreSave`: what a save does that runs alone.
- Theorem `Saves.orderly_of_steps`: what holds in every run in which no save opens the
  temporary file while another has yet to rename it.
- Theorem `keystore_file_intact`: in such a run the keystore can always be loaded, and no
  save fails.
- Theorem `alone_of_returned`: every run in which all saves return without failing is such
  a run.
-/

namespace WakeMyPc
namespace Daemon

open Foundations

/-! ## Saving -/

namespace Keystore

section Save

-- the encryption of the operating system, and the number of the process
variable (platform : Platform) (pid : UInt32)

/-- Encrypt some contents and save them. -/
def save (contents : KeystoreContents) : FileTask (Except KeystoreError Unit) :=
  match saveImage platform contents with
  | .error e => return .error e
  | .ok cipher => replace pid cipher

variable {platform} {pid}

theorem save_of_image {contents : KeystoreContents} {cipher : Bytes}
    (himage : saveImage platform contents = .ok cipher) :
    save platform pid contents = .call (.create (.tmp pid)) (afterCreate pid cipher) := by
  unfold save
  rw [himage]
  exact replace_eq pid cipher

theorem save_of_failed {contents : KeystoreContents} {e : KeystoreError}
    (himage : saveImage platform contents = .error e) :
    save platform pid contents = .ret (.error e) := by
  unfold save
  rw [himage]
  rfl

end Save
end Keystore

section Saves

variable (platform : Platform) (pid : UInt32)

/-- A save that runs alone puts the encrypted contents in the keystore file, whatever the
temporary file was before. -/
theorem exec_keystoreSave {contents : KeystoreContents} {cipher : Bytes}
    (himage : saveImage platform contents = .ok cipher) (files : Files FileName) :
    let out := (Keystore.save platform pid contents).exec
      (fun files o => some (answerFile files o)) files
    out.value = some (.ok ()) ∧ out.world.read .keystore = some cipher := by
  let opened := files.create (.tmp pid)
  have hentry : (opened.2.write opened.1 cipher).entry (.tmp pid) = some opened.1 :=
    files.create_entry (.tmp pid)
  obtain ⟨files', hrename, hread⟩ := Files.read_rename hentry FileName.keystore
  rw [Files.write_bytes (files.create_bytes (.tmp pid))] at hread
  have hanswer : some (answerFile (opened.2.write opened.1 cipher)
      (.rename (.tmp pid) .keystore)) = some (Except.ok (), files') :=
    congrArg (fun renamed => some (answerRename _ renamed)) hrename
  rw [Keystore.save_of_image himage, Prog.exec_call_some _ rfl, Keystore.afterCreate,
    Prog.exec_call_some _ rfl, Keystore.afterWrite_ok, Prog.exec_call_some _ hanswer]
  exact ⟨rfl, hread⟩

/-! ## Saves that take turns in any order -/

/-- A save of some contents: what is left of it. -/
structure Save where
  contents : KeystoreContents
  rest : FileTask (Except KeystoreError Unit)

namespace Save

/-- Make the next call. -/
def perform (t : Save) (files : Files FileName) : Option (Save × Files FileName) :=
  match t.rest with
  | .call o k => some ({ t with rest := k (answerFile files o).1 }, (answerFile files o).2)
  | _ => none

/-- The save is about to open the temporary file. -/
def opens (t : Save) : Bool :=
  match t.rest with
  | .call (.create _) _ => true
  | _ => false

/-- The save has opened the temporary file, and has yet to rename it. -/
def inFlight (t : Save) : Bool :=
  match t.rest with
  | .call (.write _ _) _ => true
  | .call (.rename _ _) _ => true
  | _ => false

/-- The number of calls that are left. -/
def left (t : Save) : ℕ :=
  match t.rest with
  | .call (.create _) _ => 3
  | .call (.write _ _) _ => 2
  | .call (.rename _ _) _ => 1
  | _ => 0

theorem perform_of_rest {t : Save} {o : FileOp}
    {k : FileAns o → FileTask (Except KeystoreError Unit)} (hrest : t.rest = .call o k)
    (files : Files FileName) :
    t.perform files =
      some ({ t with rest := k (answerFile files o).1 }, (answerFile files o).2) := by
  unfold perform
  rw [hrest]

end Save

/-- What can happen next: a task calls for a save, or a save makes its next call. -/
inductive SaveAction where
  | request (contents : KeystoreContents)
  | perform (save : ℕ)

/-- The files, and the saves that the tasks of one process have called for. -/
structure Saves where
  files : Files FileName
  saves : List Save

namespace Saves

/-- No save has been called for. -/
def initial (files : Files FileName) : Saves :=
  ⟨files, []⟩

/-- One step. -/
def step (s : Saves) : SaveAction → Option Saves
  | .request contents =>
      some { s with saves := s.saves ++ [⟨contents, Keystore.save platform pid contents⟩] }
  | .perform i => s.saves[i]?.bind fun t =>
      (t.perform s.files).map fun next => ⟨next.2, s.saves.set i next.1⟩

/-- The contents were passed to a save, or saved before. -/
def Passed (first : KeystoreContents) (s : Saves) (c : KeystoreContents) : Prop :=
  c = first ∨ ∃ t ∈ s.saves, t.contents = c

/-- What loading the keystore file gives. -/
def loadFile (s : Saves) : Except KeystoreError (Option KeystoreContents) :=
  match s.files.read .keystore with
  | none => load platform (.error .notFound)
  | some cipher => load platform (.ok cipher)

/-- The keystore file has the complete image of some contents. -/
def Complete (first : KeystoreContents) (s : Saves) : Prop :=
  ∃ c cipher, s.Passed first c ∧ saveImage platform c = .ok cipher ∧
    s.files.read .keystore = some cipher

/-- The action opens the temporary file only when no save is in flight. -/
def Alone (s : Saves) : SaveAction → Prop
  | .request _ => True
  | .perform i => ∀ t ∈ s.saves[i]?, t.opens = true → ∀ u ∈ s.saves, u.inFlight = false

instance Alone.decidable (s : Saves) : (a : SaveAction) → Decidable (s.Alone a)
  | .request _ => isTrue trivial
  | .perform i => inferInstanceAs (Decidable (∀ t ∈ s.saves[i]?, _))

/-- The cases of a step. -/
inductive Stepped (s : Saves) : SaveAction → Saves → Prop where
  | request (contents : KeystoreContents) :
      Stepped s (.request contents)
        { s with saves := s.saves ++ [⟨contents, Keystore.save platform pid contents⟩] }
  | perform {i : ℕ} {t t' : Save} {files : Files FileName} (ht : s.saves[i]? = some t)
      (hperform : t.perform s.files = some (t', files)) :
      Stepped s (.perform i) ⟨files, s.saves.set i t'⟩

end Saves

/-! ## How far a save is -/

/-- Where a save of the process is.  Only a save in flight depends on the files. -/
inductive Save.Stage (files : Files FileName) (t : Save) : Prop where
  | waiting {cipher : Bytes} (himage : saveImage platform t.contents = .ok cipher)
      (hrest : t.rest = .call (.create (.tmp pid)) (Keystore.afterCreate pid cipher))
  | created {cipher : Bytes} {file : ℕ} (himage : saveImage platform t.contents = .ok cipher)
      (hentry : files.entry (.tmp pid) = some file) (hempty : files.bytes file = [])
      (hrest : t.rest = .call (.write file cipher) (Keystore.afterWrite pid))
  | written {cipher : Bytes} {file : ℕ} (himage : saveImage platform t.contents = .ok cipher)
      (hentry : files.entry (.tmp pid) = some file) (hwritten : files.bytes file = cipher)
      (hrest : t.rest = .call (.rename (.tmp pid) .keystore) Keystore.afterRename)
  | returned (hrest : t.rest = .ret ((saveImage platform t.contents).map fun _ => ()))

/-- What one call of a save does, when the temporary file is as the save left it. -/
structure Save.Performed (files : Files FileName) (t t' : Save)
    (files' : Files FileName) : Prop where
  contents : t'.contents = t.contents
  stage : t'.Stage platform pid files'
  opens : t.opens = true ∨ t.inFlight = true
  left : t'.left < t.left
  /-- The keystore file stays, or gets the image of the contents. -/
  read : files'.read .keystore = files.read .keystore ∨
    ∃ cipher, saveImage platform t.contents = .ok cipher ∧ files'.read .keystore = some cipher

variable {platform} {pid}

namespace Save

/-- A save starts by waiting, or has failed already when the contents cannot be
encrypted. -/
theorem stage_of_request (files : Files FileName) (contents : KeystoreContents) :
    Stage platform pid files ⟨contents, Keystore.save platform pid contents⟩ := by
  cases himage : saveImage platform contents with
  | error e => exact .returned ((Keystore.save_of_failed himage).trans (by rw [himage]; rfl))
  | ok cipher => exact .waiting himage (Keystore.save_of_image himage)

/-- A save that is not in flight does not depend on the files. -/
theorem Stage.of_not_inFlight {files files' : Files FileName} {t : Save}
    (h : Stage platform pid files t) (hnot : t.inFlight = false) :
    Stage platform pid files' t := by
  cases h with
  | waiting himage hrest => exact .waiting himage hrest
  | returned hrest => exact .returned hrest
  | created himage hentry hempty hrest => simp [inFlight, hrest] at hnot
  | written himage hentry hwritten hrest => simp [inFlight, hrest] at hnot

theorem Stage.perform {files files' : Files FileName} {t t' : Save}
    (h : Stage platform pid files t) (hperform : t.perform files = some (t', files')) :
    Performed platform pid files t t' files' := by
  cases h with
  | returned hrest => simp [Save.perform, hrest] at hperform
  | @waiting cipher himage hrest =>
      rw [perform_of_rest hrest] at hperform
      obtain ⟨rfl, rfl⟩ := Prod.mk.inj (Option.some.inj hperform)
      exact ⟨rfl, .created himage (files.create_entry _) (files.create_bytes _) rfl,
        .inl (by simp [Save.opens, hrest]),
        by simp [Save.left, hrest, answerFile, Keystore.afterCreate],
        .inl (files.read_create (by simp))⟩
  | @created cipher file himage hentry hempty hrest =>
      rw [perform_of_rest hrest] at hperform
      obtain ⟨rfl, rfl⟩ := Prod.mk.inj (Option.some.inj hperform)
      exact ⟨rfl, .written himage hentry (Files.write_bytes hempty cipher) rfl,
        .inr (by simp [inFlight, hrest]),
        by simp [Save.left, hrest, answerFile, Keystore.afterWrite_ok],
        .inl (Files.read_write hentry (by simp) cipher)⟩
  | @written cipher file himage hentry hwritten hrest =>
      obtain ⟨files₁, hrename, hread⟩ := Files.read_rename hentry FileName.keystore
      have hanswer : answerFile files (.rename (.tmp pid) .keystore) = (Except.ok (), files₁) :=
        congrArg (answerRename files) hrename
      rw [perform_of_rest hrest, hanswer] at hperform
      obtain ⟨rfl, rfl⟩ := Prod.mk.inj (Option.some.inj hperform)
      rw [hwritten] at hread
      exact ⟨rfl, .returned (by rw [himage]; rfl), .inr (by simp [inFlight, hrest]),
        by simp [Save.left, hrest, Keystore.afterRename], .inr ⟨cipher, himage, hread⟩⟩

end Save

namespace Saves

/-- A step that is taken is one of these cases. -/
theorem stepped_of_step {s s' : Saves} {a : SaveAction}
    (hstep : s.step platform pid a = some s') : Stepped platform pid s a s' := by
  cases a with
  | request contents =>
      obtain rfl := Option.some.inj hstep
      exact .request contents
  | perform i =>
      obtain ⟨t, ht, hnext⟩ := Option.bind_eq_some_iff.mp hstep
      obtain ⟨⟨t', files⟩, hperform, rfl⟩ := Option.map_eq_some_iff.mp hnext
      exact .perform ht hperform

/-! ## Runs in which a save is in flight alone -/

variable (platform) (pid)

/-- Every save is at one of its stages, at most one is in flight, and the keystore file
is complete. -/
structure Orderly (first : KeystoreContents) (s : Saves) : Prop where
  stages : ∀ t ∈ s.saves, t.Stage platform pid s.files
  single : ∀ (i j : ℕ) (t u : Save), s.saves[i]? = some t → s.saves[j]? = some u →
    t.inFlight = true → u.inFlight = true → i = j
  complete : s.Complete platform first

variable {platform} {pid} {first : KeystoreContents}

theorem passed_of_contents {s s' : Saves} {c : KeystoreContents} (h : s.Passed first c)
    (hsaves : ∀ t ∈ s.saves, ∃ t' ∈ s'.saves, t'.contents = t.contents) :
    s'.Passed first c := by
  rcases h with hfirst | ⟨t, ht, hc⟩
  · exact .inl hfirst
  · obtain ⟨t', ht', hcontents⟩ := hsaves t ht
    exact .inr ⟨t', ht', hcontents.trans hc⟩

private theorem orderly_request {s : Saves} (h : Orderly platform pid first s)
    (contents : KeystoreContents) :
    Orderly platform pid first
      { s with saves := s.saves ++ [⟨contents, Keystore.save platform pid contents⟩] } where
  stages := by
    intro t ht
    rcases List.mem_append.mp ht with hold | hnew
    · exact h.stages t hold
    · obtain rfl := List.mem_singleton.mp hnew
      exact Save.stage_of_request s.files contents
  single := by
    have hnot : (⟨contents, Keystore.save platform pid contents⟩ : Save).inFlight = false := by
      cases himage : saveImage platform contents with
      | error e => simp [Save.inFlight, Keystore.save_of_failed himage]
      | ok cipher => simp [Save.inFlight, Keystore.save_of_image himage]
    intro i j t u ht hu htflight huflight
    rcases getElem?_concat_cases ht with ht | ⟨-, rfl⟩
    · rcases getElem?_concat_cases hu with hu | ⟨-, rfl⟩
      · exact h.single i j t u ht hu htflight huflight
      · simp [hnot] at huflight
    · simp [hnot] at htflight
  complete := by
    obtain ⟨c, cipher, hpassed, himage, hread⟩ := h.complete
    exact ⟨c, cipher, passed_of_contents hpassed fun t ht => ⟨t, List.mem_append_left _ ht, rfl⟩,
      himage, hread⟩

private theorem orderly_perform {s : Saves} (h : Orderly platform pid first s) {i : ℕ} {t t' : Save}
    {files : Files FileName} (ht : s.saves[i]? = some t)
    (hperform : t.perform s.files = some (t', files)) (halone : s.Alone (.perform i)) :
    Orderly platform pid first ⟨files, s.saves.set i t'⟩ := by
  have hdone := (h.stages t (List.mem_of_getElem? ht)).perform hperform
  -- whether the save opens the temporary file or has it open, no other save is in flight
  have hothers : ∀ j u, j ≠ i → s.saves[j]? = some u → u.inFlight = false := by
    intro j u hji hu
    rcases hdone.opens with hopens | hflight
    · exact halone t ht hopens u (List.mem_of_getElem? hu)
    · refine Bool.eq_false_iff.mpr fun huflight => hji ?_
      exact h.single j i u t hu ht huflight hflight
  refine ⟨?_, ?_, ?_⟩
  · intro u hu
    obtain ⟨j, hj⟩ := List.mem_iff_getElem?.mp hu
    rcases getElem?_set_cases hj with ⟨-, rfl⟩ | ⟨hji, hj⟩
    · exact hdone.stage
    · exact (h.stages u (List.mem_of_getElem? hj)).of_not_inFlight (hothers j u hji hj)
  · intro j k u v hj hk hu hv
    rcases getElem?_set_cases hj with ⟨rfl, -⟩ | ⟨hji, hj⟩
    · rcases getElem?_set_cases hk with ⟨rfl, -⟩ | ⟨hki, hk⟩
      · rfl
      · simp [hothers k v hki hk] at hv
    · simp [hothers j u hji hj] at hu
  · have hlt : i < s.saves.length := (List.getElem?_eq_some_iff.mp ht).1
    have hmem : t' ∈ s.saves.set i t' := List.mem_set hlt t'
    rcases hdone.read with hsame | ⟨cipher, himage, hread⟩
    · obtain ⟨c, cipher, hpassed, himage, hread⟩ := h.complete
      refine ⟨c, cipher, passed_of_contents hpassed fun u hu => ?_, himage, hsame.trans hread⟩
      obtain ⟨j, hj⟩ := List.mem_iff_getElem?.mp hu
      by_cases hji : j = i
      · subst hji
        obtain rfl := Option.some.inj (ht.symm.trans hj)
        exact ⟨t', hmem, hdone.contents⟩
      · have hu' : (s.saves.set i t')[j]? = some u := by
          rw [List.getElem?_set_ne (Ne.symm hji), hj]
        exact ⟨u, List.mem_of_getElem? hu', rfl⟩
    · exact ⟨t.contents, cipher, .inr ⟨t', hmem, hdone.contents⟩, himage, hread⟩

theorem orderly_of_step {s s' : Saves} {a : SaveAction} (h : Orderly platform pid first s)
    (halone : s.Alone a) (hstep : s.step platform pid a = some s') :
    Orderly platform pid first s' := by
  cases stepped_of_step hstep with
  | request contents => exact orderly_request h contents
  | perform ht hperform => exact orderly_perform h ht hperform halone

/-- A run in which a save is in flight alone is orderly. -/
theorem orderly_of_steps {files : Files FileName} {cipher : Bytes}
    (himage : saveImage platform first = .ok cipher) (hfile : files.read .keystore = some cipher)
    {actions : List SaveAction} {s : Saves}
    (hsteps : takeSteps (step platform pid) (initial files) actions = some s)
    (halone : Along (step platform pid) Alone (initial files) actions) :
    Orderly platform pid first s := by
  refine halone.invariant (Orderly platform pid first) ?_ ?_ hsteps
  · exact fun s a s' h ha hstep => orderly_of_step h ha hstep
  · exact ⟨by simp [initial], by simp [initial], first, cipher, .inl rfl, himage, hfile⟩

/-- The keystore file has the complete image of contents that were passed to a save, so
it can be loaded, and no save has failed that could encrypt its contents: it has returned,
or it comes nearer to its end. -/
structure Intact (platform : Platform) (first : KeystoreContents) (s : Saves) : Prop where
  complete : s.Complete platform first
  loads : (∀ c, s.Passed first c → c.Fits) →
    ∃ c, s.Passed first c ∧ s.loadFile platform = .ok (some c.reloaded)
  results : ∀ t ∈ s.saves, ∀ cipher, saveImage platform t.contents = .ok cipher →
    t.rest = .ret (.ok ()) ∨
      ∃ t' files, t.perform s.files = some (t', files) ∧ t'.left < t.left

end Saves

/-- A save that has not returned can make its next call. -/
theorem Save.Stage.goesOn {files : Files FileName} {t : Save} (h : t.Stage platform pid files) :
    t.rest = .ret ((saveImage platform t.contents).map fun _ => ()) ∨
      ∃ t' files', t.perform files = some (t', files') ∧ t'.left < t.left := by
  have hgoes : ∀ o k, t.rest = .call o k →
      ∃ t' files', t.perform files = some (t', files') ∧ t'.left < t.left := by
    intro o k hrest
    have hperform := perform_of_rest hrest files
    exact ⟨_, _, hperform, (h.perform hperform).left⟩
  cases h with
  | waiting himage hrest => exact .inr (hgoes _ _ hrest)
  | created himage hentry hempty hrest => exact .inr (hgoes _ _ hrest)
  | written himage hentry hwritten hrest => exact .inr (hgoes _ _ hrest)
  | returned hrest => exact .inl hrest

/-- As long as no save opens the temporary file while another has yet to rename it, the
keystore file is the complete image of contents that were passed to a save, and no save
fails. -/
theorem keystore_file_intact (hplatform : platform.Undoes) {first : KeystoreContents}
    {files : Files FileName} {cipher : Bytes} (himage : saveImage platform first = .ok cipher)
    (hfile : files.read .keystore = some cipher) {actions : List SaveAction} {s : Saves}
    (hsteps : takeSteps (Saves.step platform pid) (.initial files) actions = some s)
    (halone : Along (Saves.step platform pid) Saves.Alone (.initial files) actions) :
    s.Intact platform first := by
  have horderly := Saves.orderly_of_steps himage hfile hsteps halone
  refine ⟨horderly.complete, ?_, ?_⟩
  · intro hfits
    obtain ⟨c, cipher', hpassed, himage', hread⟩ := horderly.complete
    refine ⟨c, hpassed, ?_⟩
    rw [Saves.loadFile, hread]
    exact congrArg (Except.map some) (loadImage_of_saveImage hplatform (hfits c hpassed) himage')
  · intro t ht cipher' himage'
    rcases (horderly.stages t ht).goesOn with hrest | hgoes
    · rw [himage'] at hrest
      exact .inl hrest
    · exact .inr hgoes

/-! ## Runs in which saves overlap -/

variable (pid)

/-- What is left of a save, whatever the files are. -/
inductive Save.Shape (t : Save) : Prop where
  | waiting {cipher : Bytes}
      (hrest : t.rest = .call (.create (.tmp pid)) (Keystore.afterCreate pid cipher))
  | created {cipher : Bytes} {file : ℕ}
      (hrest : t.rest = .call (.write file cipher) (Keystore.afterWrite pid))
  | written (hrest : t.rest = .call (.rename (.tmp pid) .keystore) Keystore.afterRename)
  | returned {result : Except KeystoreError Unit} (hrest : t.rest = .ret result)

/-- What one call of a save does to the temporary file. -/
inductive Save.Called (files : Files FileName) (t t' : Save) (files' : Files FileName) :
    Prop where
  | opened (hbefore : t.inFlight = false) (hafter : t'.inFlight = true)
  | wrote (hopens : t.opens = false) (hbefore : t.inFlight = true) (hafter : t'.inFlight = true)
      (hentry : files'.entry = files.entry)
  | renamed (hopens : t.opens = false) (hbefore : t.inFlight = true)
      (hentry : (files.entry (.tmp pid)).isSome = true)
      (hnone : files'.entry (.tmp pid) = none)
  | failed (hopens : t.opens = false) (hrest : t'.rest = .ret (.error (.io .io)))

/-- A save has failed to write its file. -/
def Saves.Failed (s : Saves) : Prop :=
  ∃ t ∈ s.saves, ∃ e, t.rest = .ret (.error (.io e))

/-- There are more saves in flight than temporary files. -/
def Saves.Crowded (s : Saves) : Prop :=
  (s.files.entry (.tmp pid)).isSome.toNat < s.saves.countP (·.inFlight)

variable {pid}

theorem Save.shape_of_request (contents : KeystoreContents) :
    Shape pid ⟨contents, Keystore.save platform pid contents⟩ := by
  cases himage : saveImage platform contents with
  | error e => exact .returned (Keystore.save_of_failed himage)
  | ok cipher => exact .waiting (Keystore.save_of_image himage)

theorem Save.Shape.perform {files files' : Files FileName} {t t' : Save} (h : t.Shape pid)
    (hperform : t.perform files = some (t', files')) :
    t'.Shape pid ∧ t.Called pid files t' files' := by
  cases h with
  | returned hrest => simp [Save.perform, hrest] at hperform
  | @waiting cipher hrest =>
      rw [perform_of_rest hrest] at hperform
      obtain ⟨rfl, rfl⟩ := Prod.mk.inj (Option.some.inj hperform)
      exact ⟨.created rfl, .opened (by simp [inFlight, hrest]) rfl⟩
  | @created cipher file hrest =>
      rw [perform_of_rest hrest] at hperform
      obtain ⟨rfl, rfl⟩ := Prod.mk.inj (Option.some.inj hperform)
      exact ⟨.written rfl, .wrote (by simp [Save.opens, hrest]) (by simp [inFlight, hrest]) rfl rfl⟩
  | written hrest =>
      rw [perform_of_rest hrest] at hperform
      obtain ⟨rfl, rfl⟩ := Prod.mk.inj (Option.some.inj hperform)
      have hopens : t.opens = false := by simp [Save.opens, hrest]
      cases hrename : files.rename (.tmp pid) .keystore with
      | none =>
          have hanswer : answerFile files (.rename (.tmp pid) .keystore) =
              (Except.error IoError.io, files) := congrArg (answerRename files) hrename
          simp only [hanswer]
          exact ⟨.returned rfl, .failed hopens rfl⟩
      | some files₁ =>
          have hanswer : answerFile files (.rename (.tmp pid) .keystore) =
              (Except.ok (), files₁) := congrArg (answerRename files) hrename
          simp only [hanswer]
          exact ⟨.returned rfl, .renamed hopens (by simp [inFlight, hrest])
            (Files.entry_isSome_of_rename hrename) (Files.rename_entry (by simp) hrename)⟩

namespace Saves

theorem shape_of_step {s s' : Saves} {a : SaveAction} (hshape : ∀ t ∈ s.saves, t.Shape pid)
    (hstep : s.step platform pid a = some s') : ∀ t ∈ s'.saves, t.Shape pid := by
  intro u hu
  cases stepped_of_step hstep with
  | request contents =>
      rcases List.mem_append.mp hu with hold | hnew
      · exact hshape u hold
      · obtain rfl := List.mem_singleton.mp hnew
        exact Save.shape_of_request contents
  | perform ht hperform =>
      rcases List.mem_or_eq_of_mem_set hu with hold | rfl
      · exact hshape u hold
      · exact ((hshape _ (List.mem_of_getElem? ht)).perform hperform).1

theorem crowded_mk {files : Files FileName} {saves : List Save} :
    Crowded pid ⟨files, saves⟩ ↔
      (files.entry (.tmp pid)).isSome.toNat < saves.countP (·.inFlight) :=
  Iff.rfl

/-- A save that opens the temporary file while another is in flight makes the saves more
than the files. -/
theorem crowded_of_not_alone {s s' : Saves} {a : SaveAction}
    (hshape : ∀ t ∈ s.saves, t.Shape pid) (halone : ¬ s.Alone a)
    (hstep : s.step platform pid a = some s') : s'.Crowded pid := by
  cases stepped_of_step hstep with
  | request contents => exact absurd trivial halone
  | @perform i t t' files ht hperform =>
      have hcalled := ((hshape t (List.mem_of_getElem? ht)).perform hperform).2
      have hopens : t.opens = true ∧ ∃ u ∈ s.saves, u.inFlight = true := by
        simpa [Alone, ht] using halone
      obtain ⟨hopens, u, hu, hflight⟩ := hopens
      have hpos : 0 < s.saves.countP (·.inFlight) := List.countP_pos_iff.mpr ⟨u, hu, hflight⟩
      have hcount := countP_set_add (fun v : Save => v.inFlight) ht t'
      have hfile := Bool.toNat_le (files.entry (.tmp pid)).isSome
      cases hcalled with
      | opened hbefore hafter =>
          simp only [hbefore, hafter, Bool.toNat_false, Bool.toNat_true] at hcount
          exact crowded_mk.mpr (by omega)
      | wrote hnot => simp [hopens] at hnot
      | renamed hnot => simp [hopens] at hnot
      | failed hnot => simp [hopens] at hnot

/-- Once a save has failed, or the saves in flight are more than the files, this stays so:
the last of them finds no file to rename. -/
theorem doomed_of_step {s s' : Saves} {a : SaveAction} (hshape : ∀ t ∈ s.saves, t.Shape pid)
    (hdoomed : s.Failed ∨ s.Crowded pid) (hstep : s.step platform pid a = some s') :
    s'.Failed ∨ s'.Crowded pid := by
  cases stepped_of_step hstep with
  | request contents =>
      refine hdoomed.imp ?_ ?_
      · rintro ⟨t, ht, hrest⟩
        exact ⟨t, List.mem_append_left _ ht, hrest⟩
      · intro hcrowded
        simp only [Crowded, List.countP_append] at hcrowded ⊢
        omega
  | @perform i t t' files ht hperform =>
      have hmem : t' ∈ s.saves.set i t' := List.mem_set (List.getElem?_eq_some_iff.mp ht).1 t'
      have hcalled := ((hshape t (List.mem_of_getElem? ht)).perform hperform).2
      rcases hdoomed with ⟨u, hu, e, hrest⟩ | hcrowded
      · -- a save that has returned is not the one that makes the call
        obtain ⟨j, hj⟩ := List.mem_iff_getElem?.mp hu
        have hji : i ≠ j := by
          rintro rfl
          obtain rfl := Option.some.inj (ht.symm.trans hj)
          simp [Save.perform, hrest] at hperform
        exact .inl ⟨u, List.mem_of_getElem? ((List.getElem?_set_ne hji).trans hj), e, hrest⟩
      · have hcount := countP_set_add (fun v : Save => v.inFlight) ht t'
        have hfile := Bool.toNat_le (files.entry (.tmp pid)).isSome
        rw [crowded_mk]
        unfold Crowded at hcrowded
        cases hcalled with
        | failed hopens hfailed => exact .inl ⟨t', hmem, .io, hfailed⟩
        | opened hbefore hafter =>
            simp only [hbefore, hafter, Bool.toNat_false, Bool.toNat_true] at hcount
            exact .inr (by omega)
        | wrote hopens hbefore hafter hentry =>
            simp only [hbefore, hafter, Bool.toNat_true] at hcount
            rw [hentry]
            exact .inr (by omega)
        | renamed hopens hbefore hentry hnone =>
            rw [hentry] at hcrowded
            simp only [hbefore, Bool.toNat_true] at hcount hcrowded
            rw [hnone]
            exact .inr (by simp only [Option.isSome_none, Bool.toNat_false]; omega)

/-- A run keeps to the condition, or it ends with a save that has failed or will. -/
theorem along_or_doomed {actions : List SaveAction} {s s' : Saves}
    (hshape : ∀ t ∈ s.saves, t.Shape pid)
    (hsteps : takeSteps (step platform pid) s actions = some s') :
    Along (step platform pid) Alone s actions ∨ s'.Failed ∨ s'.Crowded pid := by
  induction actions generalizing s with
  | nil => exact .inl trivial
  | cons a actions ih =>
      obtain ⟨s₁, hs₁, hrest⟩ := takeSteps_cons hsteps
      have hshape₁ := shape_of_step hshape hs₁
      by_cases halone : s.Alone a
      · refine (ih hshape₁ hrest).imp_left fun halong => ⟨halone, fun s₂ hs₂ => ?_⟩
        obtain rfl := Option.some.inj (hs₁.symm.trans hs₂)
        exact halong
      · have hdoomed₁ : s₁.Failed ∨ s₁.Crowded pid :=
          .inr (crowded_of_not_alone hshape halone hs₁)
        refine .inr (takeSteps_invariant
          (fun s => (∀ t ∈ s.saves, t.Shape pid) ∧ (s.Failed ∨ s.Crowded pid)) ?_
          ⟨hshape₁, hdoomed₁⟩ hrest).2
        exact fun s a s' h hstep => ⟨shape_of_step h.1 hstep, doomed_of_step h.1 h.2 hstep⟩

end Saves

/-- A save whose contents cannot be encrypted does not fail in the file system. -/
theorem saveImage_ne_io {contents : KeystoreContents} {e : IoError} :
    saveImage platform contents ≠ .error (.io e) := by
  unfold saveImage
  split <;> simp

/-- The condition is necessary: in a run that breaks it a save fails, or has yet to return
when the run ends. -/
theorem alone_of_returned {files : Files FileName} {actions : List SaveAction} {s : Saves}
    (hsteps : takeSteps (Saves.step platform pid) (.initial files) actions = some s)
    (hreturned : ∀ t ∈ s.saves,
      t.rest = .ret ((saveImage platform t.contents).map fun _ => ())) :
    Along (Saves.step platform pid) Saves.Alone (.initial files) actions := by
  have hshape : ∀ t ∈ (Saves.initial files).saves, t.Shape pid := by simp [Saves.initial]
  rcases Saves.along_or_doomed hshape hsteps with halong | ⟨t, ht, e, hfailed⟩ | hcrowded
  · exact halong
  · have himage := hfailed.symm.trans (hreturned t ht)
    cases hsave : saveImage platform t.contents with
    | ok cipher => simp [hsave, Except.map] at himage
    | error e' =>
        simp only [hsave, Except.map, Prog.ret.injEq, Except.error.injEq] at himage
        exact absurd (himage ▸ hsave) saveImage_ne_io
  · have hpos : 0 < s.saves.countP (·.inFlight) := Nat.lt_of_le_of_lt (Nat.zero_le _) hcrowded
    obtain ⟨t, ht, hflight⟩ := List.countP_pos_iff.mp hpos
    simp [Save.inFlight, hreturned t ht] at hflight

end Saves

/-! ## Two runs -/

/-- Two connections save the address of the phone, one after the other. -/
def savesInTurn : List SaveAction :=
  [.request lanContents, .request lanContents] ++ List.replicate 3 (.perform 0) ++
    List.replicate 3 (.perform 1)

/-- Nothing goes wrong. -/
theorem saves_in_turn_intact :
    ∃ s, takeSteps (Saves.step plainPlatform 1) (.initial savedFiles) savesInTurn = some s ∧
      s.Intact plainPlatform pairedContents ∧ s.saves.length = 2 := by
  obtain ⟨s, hs, hlength⟩ : ∃ s, takeSteps (Saves.step plainPlatform 1) (.initial savedFiles)
      savesInTurn = some s ∧ s.saves.length = 2 := ⟨_, rfl, rfl⟩
  exact ⟨s, hs, keystore_file_intact plainPlatform_undoes rfl rfl hs (by decide), hlength⟩

/-- The second connection opens the temporary file when the first has written it. -/
def savesThatOverlap : List SaveAction :=
  [.request lanContents, .request lanContents, .perform 0, .perform 0, .perform 1, .perform 0]

/-- The first save then renames an empty file to the keystore, which cannot be loaded any
more, and the second save fails. -/
theorem keystore_file_truncated :
    plainPlatform.Undoes ∧
      saveImage plainPlatform pairedContents = .ok (savePlaintext pairedContents) ∧
      savedFiles.read .keystore = some (savePlaintext pairedContents) ∧
      ∃ s s', takeSteps (Saves.step plainPlatform 1) (.initial savedFiles) savesThatOverlap =
          some s ∧
        ¬ s.Intact plainPlatform pairedContents ∧ s.files.read .keystore = some [] ∧
        (∃ e, s.loadFile plainPlatform = .error e) ∧
        takeSteps (Saves.step plainPlatform 1) s [.perform 1, .perform 1] = some s' ∧
        ∃ t ∈ s'.saves, t.rest = .ret (.error (.io .io)) := by
  obtain ⟨s, s', hs, hread, hs', ht⟩ : ∃ s s', takeSteps (Saves.step plainPlatform 1)
      (.initial savedFiles) savesThatOverlap = some s ∧ s.files.read .keystore = some [] ∧
      takeSteps (Saves.step plainPlatform 1) s [.perform 1, .perform 1] = some s' ∧
      ∃ t, s'.saves[1]? = some t ∧ t.rest = .ret (.error (.io .io)) :=
    ⟨_, _, rfl, rfl, rfl, _, rfl, rfl⟩
  refine ⟨plainPlatform_undoes, rfl, rfl, s, s', hs, ?_, hread, ?_, hs', ?_⟩
  · intro hintact
    obtain ⟨c, cipher, -, himage, hcipher⟩ := hintact.complete
    obtain rfl := Option.some.inj (hread.symm.trans hcipher)
    cases himage
  · rw [Saves.loadFile, hread]
    exact ⟨_, rfl⟩
  · obtain ⟨t, ht, hrest⟩ := ht
    exact ⟨t, List.mem_of_getElem? ht, hrest⟩

end Daemon
end WakeMyPc
