import WakeMyPc.Daemon.Authorization
import WakeMyPc.Daemon.Reloading
import WakeMyPc.Daemon.WindowsSaves
import WakeMyPc.Foundations.Interpretation
import Mathlib.Data.List.Chain

/-!
# Runs of the daemon on Windows

The threads of the daemon make their calls into the system in any order.

Main results:

- Theorem `handles_had_by_one`: a handle, buffer or blob is used and given back only by the
  thread that was handed it, and a thread that is finished has given back all of them.
- Theorem `keystore_loads_back`: unless saves of one process overlap, the keystore file is what
  was there first, or is loaded back as what some thread saved.
-/

namespace WakeMyPc
namespace Daemon

open Foundations
open Protocol (SpkiHash)

section Runs

variable {extractSpkiHash : Bytes → Except Crypto.Error SpkiHash} {opens : Bytes → Option Bytes}

/-! ## Handles and buffers -/

/-- Every thread of a run is tidy. -/
theorem tidyThreads_of_steps {files : Files FileName} {h : WinHost} {actions : List WinAction}
    (hsteps : takeSteps (WinHost.step extractSpkiHash opens) (WinHost.initial files) actions =
      some h) :
    ∀ t ∈ h.threads, winDiscipline.TidyThread t := by
  refine WinHost.threads_of_steps ?_ ?_ ?_ hsteps
  · intro kind
    refine Discipline.Tidy.thread ?_ kind
    unfold WinKind.program
    split
    · exact startServer_tidy
    · exact Discipline.Tidy.interpret onWindows_tidy _
  · intro t t' answer w w' e ht hperform heffect
    exact (ht.perform hperform).2
  · intro t ht
    unfold endServerThread
    split
    · trivial
    · exact ht

/-- In each process, no handle or buffer is had twice. -/
theorem exclusive_of_steps {files : Files FileName} {h : WinHost} {actions : List WinAction}
    (hsteps : takeSteps (WinHost.step extractSpkiHash opens) (WinHost.initial files) actions =
      some h) :
    winDiscipline.Exclusive WinKind.process h.threads := by
  refine takeSteps_invariant
    (fun h : WinHost => winDiscipline.Exclusive WinKind.process h.threads) ?_
    Discipline.Exclusive.nil hsteps
  intro h a h' hexclusive hstep
  cases WinHost.stepped_of_step hstep with
  | boot hprocess => exact hexclusive.concat rfl
  | stop => exact hexclusive.map endServerThread_kind endServerThread_done
  | accept hprocess hserver certs peerAddr rounds reads => exact hexclusive.concat rfl
  | launch command => exact hexclusive.concat rfl
  | perform ht hthread heffect hfree => exact hexclusive.perform ht hthread hfree

/-- In every run, a thread needs or gives back only a handle or buffer that it was handed and
has not given back, and that no other thread of its process has; and a thread that is
finished has none. -/
theorem handles_had_by_one {files : Files FileName} {h h' : WinHost} {actions : List WinAction}
    (hsteps : takeSteps (WinHost.step extractSpkiHash opens) (WinHost.initial files) actions =
      some h)
    {i : ℕ} {outside : (o : WinOp) → WinAns o} {filled : Bytes} {e : WinEvent}
    (hperform : h.perform extractSpkiHash opens i outside filled = some (e, h')) :
    ∃ t, h.threads[i]? = some t ∧
      (∀ r, winDiscipline.needs e.op = some r ∨ winDiscipline.frees e.op = some r →
        winDiscipline.balance r t.done = 1 ∧
        ∀ j u, j ≠ i → h.threads[j]? = some u → u.kind.process = t.kind.process →
          winDiscipline.balance r u.done = 0) ∧
      ∀ u ∈ h'.threads, ∀ result, u.rest = .ret result →
        ∀ r, winDiscipline.balance r u.done = 0 := by
  obtain ⟨t, t', w, ht, hthread, hfree, rfl⟩ := WinHost.thread_of_perform hperform
  have htidy := tidyThreads_of_steps hsteps
  refine ⟨t, ht, fun r hr => ?_, fun u hu result hrest r => ?_⟩
  · exact Discipline.sole_of_perform (exclusive_of_steps hsteps) ht
      (htidy t (List.mem_of_getElem? ht)) hthread hr
  · rcases List.mem_or_eq_of_mem_set hu with hold | rfl
    · exact (htidy u hold).finished hrest r
    · exact ((htidy t (List.mem_of_getElem? ht)).perform hthread).2.finished hrest r

/-! ## Blobs -/

/-- What a call left in its blob is right. -/
def LeftRight (opens : Bytes → Option Bytes) (memory : ℕ → Bytes) : WinEvent → Prop
  | ⟨.cryptProtectData plain _, made⟩ =>
      ∀ blob len, (made : Option (ℕ × UInt32)) = some (blob, len) →
        opens (memory blob) = some plain ∧ len.toNat = (memory blob).length
  | ⟨.cryptUnprotectData cipher _, made⟩ =>
      ∀ blob len, (made : Option (ℕ × UInt32)) = some (blob, len) →
        opens cipher = some (memory blob) ∧ len.toNat = (memory blob).length
  | _ => True

/-- What is copied of the blob of the call before is the result of that call. -/
def CopiedRight (opens : Bytes → Option Bytes) : WinEvent → WinEvent → Prop
  | ⟨.cryptProtectData plain _, made⟩, ⟨.copyBlob blob len, bytes⟩ =>
      (made : Option (ℕ × UInt32)) = some (blob, len) → opens bytes = some plain
  | ⟨.cryptUnprotectData cipher _, made⟩, ⟨.copyBlob blob len, bytes⟩ =>
      (made : Option (ℕ × UInt32)) = some (blob, len) → opens cipher = some bytes
  | _, _ => True

/-- The blobs of a thread. -/
structure BlobsRight (opens : Bytes → Option Bytes) (w : WinWorld) (t : WinThread) : Prop where
  left : ∀ e ∈ t.done.getLast?, LeftRight opens (w.memory t.kind.process) e
  copied : t.done.IsChain (CopiedRight opens)

/-- A call changes no memory, or only the blob that it hands out. -/
theorem memory_of_effect {kind : WinKind} {w w' : WinWorld} {e : WinEvent}
    (heffect : WinEffect extractSpkiHash opens kind w e w') :
    w'.memory = w.memory ∨ ∃ blob bytes, winGives e = some (.blob blob) ∧
      w' = w.write kind.process blob bytes := by
  cases heffect with
  | encrypted flags blob hopens hlen => exact .inr ⟨blob, _, rfl, rfl⟩
  | decrypted flags blob hopens hlen => exact .inr ⟨blob, _, rfl, rfl⟩
  | _ => exact .inl rfl

@[simp]
theorem WinWorld.write_memory (w : WinWorld) (process blob : ℕ) (bytes : Bytes) :
    (w.write process blob bytes).memory process blob = bytes := by
  simp [write]

/-- A call that fills a blob fills it right. -/
theorem leftRight_of_effect {kind : WinKind} {w w' : WinWorld} {e : WinEvent}
    (heffect : WinEffect extractSpkiHash opens kind w e w') :
    LeftRight opens (w'.memory kind.process) e := by
  cases heffect with
  | encrypted flags blob hopens hlen =>
      rintro blob' len' ⟨⟩
      rw [WinWorld.write_memory]
      exact ⟨hopens, hlen⟩
  | decrypted flags blob hopens hlen =>
      rintro blob' len' ⟨⟩
      rw [WinWorld.write_memory]
      exact ⟨hopens, hlen⟩
  | notEncrypted plain flags => exact nofun
  | notDecrypted cipher flags => exact nofun
  | other hother =>
      obtain ⟨o, r⟩ := e
      cases o <;> trivial
  | _ => trivial

/-- What is copied of a blob that was left right is right. -/
theorem copiedRight_of_effect {kind : WinKind} {w w' : WinWorld} {e e' : WinEvent}
    (hleft : LeftRight opens (w.memory kind.process) e)
    (heffect : WinEffect extractSpkiHash opens kind w e' w') : CopiedRight opens e e' := by
  obtain ⟨o, made⟩ := e
  cases heffect with
  | copied blob len =>
      cases o with
      | cryptProtectData plain flags =>
          intro hmade
          obtain ⟨hopens, hlen⟩ := hleft blob len hmade
          rwa [hlen, List.take_length]
      | cryptUnprotectData cipher flags =>
          intro hmade
          obtain ⟨hopens, hlen⟩ := hleft blob len hmade
          rwa [hlen, List.take_length]
      | _ => trivial
  | other hother =>
      obtain ⟨o', r⟩ := e'
      cases o <;> first | trivial | (cases o' <;> trivial)
  | _ => cases o <;> trivial

/-- A blob is left as it is while no thread of its process that has it makes a call. -/
theorem LeftRight.mono {memory memory' : ℕ → Bytes} {e : WinEvent}
    (h : LeftRight opens memory e)
    (hsame : ∀ blob, winGives e = some (.blob blob) → memory' blob = memory blob) :
    LeftRight opens memory' e := by
  obtain ⟨o, made⟩ := e
  cases o with
  | cryptProtectData plain flags =>
      intro blob len hmade
      obtain rfl : made = some (blob, len) := hmade
      rw [hsame blob rfl]
      exact h blob len rfl
  | cryptUnprotectData cipher flags =>
      intro blob len hmade
      obtain rfl : made = some (blob, len) := hmade
      rw [hsame blob rfl]
      exact h blob len rfl
  | _ => trivial

/-- The blobs of the threads stay right with every step. -/
theorem blobsRight_of_step {h h' : WinHost} {a : WinAction}
    (hall : ∀ t ∈ h.threads, BlobsRight opens h.world t)
    (hstep : h.step extractSpkiHash opens a = some h') :
    ∀ t ∈ h'.threads, BlobsRight opens h'.world t := by
  have hspawn : ∀ kind : WinKind, ∀ t ∈ h.threads ++ [kind.start extractSpkiHash],
      BlobsRight opens h.world t := by
    intro kind t ht
    rcases List.mem_append.mp ht with hold | hnew
    · exact hall t hold
    · obtain rfl := List.mem_singleton.mp hnew
      exact ⟨nofun, .nil⟩
  cases WinHost.stepped_of_step hstep with
  | boot hprocess => exact fun t ht => ⟨(hspawn _ t ht).left, (hspawn _ t ht).copied⟩
  | stop =>
      intro t ht
      obtain ⟨t₀, ht₀, rfl⟩ := List.mem_map.mp ht
      have h₀ := hall t₀ ht₀
      refine ⟨?_, ?_⟩
      · rw [endServerThread_done, endServerThread_kind]
        exact h₀.left
      · rw [endServerThread_done]
        exact h₀.copied
  | accept hprocess hserver certs peerAddr rounds reads => exact hspawn _
  | launch command => exact hspawn _
  | @perform i outside filled t t' e w ht hthread heffect hfree =>
      intro u hu
      rcases List.mem_or_eq_of_mem_set hu with hold | rfl
      · -- another thread has its blobs, so none of them was handed out
        have hu₀ := hall u hold
        refine ⟨fun e₀ hlast => (hu₀.left e₀ hlast).mono fun blob hgives => ?_, hu₀.copied⟩
        rcases memory_of_effect heffect with hsame | ⟨blob', bytes, hgives', rfl⟩
        · exact congrFun (congrFun hsame _) _
        · change (if _ then _ else _) = _
          rw [if_neg]
          rintro ⟨hprocess, rfl⟩
          have hzero := Discipline.free_iff.mp (hfree _ hgives') u hold hprocess
          obtain ⟨front, hdone⟩ := List.getLast?_eq_some_iff.mp hlast
          rw [hdone] at hzero
          exact absurd hzero (Nat.ne_of_gt (winDiscipline.balance_pos_of_gives front hgives))
      · have ht₀ := hall t (List.mem_of_getElem? ht)
        obtain ⟨k, -, -, hafter⟩ := Thread.perform_eq_some hthread
        have hkind : u.kind = t.kind := by rw [hafter]
        have hdone : u.done = t.done ++ [e] := by rw [hafter]
        refine ⟨fun e₀ hlast => ?_, ?_⟩
        · obtain rfl : e = e₀ := by simpa [hdone] using hlast
          rw [hkind]
          exact leftRight_of_effect heffect
        · rw [hdone]
          refine ht₀.copied.append (List.isChain_singleton e) fun e₀ he₀ e₁ he₁ => ?_
          obtain rfl : e = e₁ := by simpa using he₁
          exact copiedRight_of_effect (ht₀.left e₀ he₀) heffect

/-- What is copied of the blobs is right in every run. -/
theorem blobsRight_of_steps {files : Files FileName} {h : WinHost} {actions : List WinAction}
    (hsteps : takeSteps (WinHost.step extractSpkiHash opens) (WinHost.initial files) actions =
      some h) :
    ∀ t ∈ h.threads, BlobsRight opens h.world t := by
  refine takeSteps_invariant (fun h : WinHost => ∀ t ∈ h.threads, BlobsRight opens h.world t)
    (fun h a h' hall hstep => blobsRight_of_step hall hstep) ?_ hsteps
  simp [WinHost.initial]

/-! ## The keystore file -/

/-- Threads keep what they have done. -/
theorem threads_persist {h h' : WinHost} {a : WinAction}
    (hstep : h.step extractSpkiHash opens a = some h') {t : WinThread} (ht : t ∈ h.threads) :
    ∃ t' ∈ h'.threads, t'.kind = t.kind ∧ ∃ events, t'.done = t.done ++ events := by
  have hold : ∀ u, t ∈ h.threads ++ [u] := fun u => List.mem_append_left _ ht
  cases WinHost.stepped_of_step hstep with
  | boot hprocess => exact ⟨t, hold _, rfl, [], by simp⟩
  | stop => exact ⟨endServerThread t, List.mem_map_of_mem ht, by simp, [], by simp⟩
  | accept hprocess hserver certs peerAddr rounds reads => exact ⟨t, hold _, rfl, [], by simp⟩
  | launch command => exact ⟨t, hold _, rfl, [], by simp⟩
  | @perform i outside filled u u' e w hu hthread heffect hfree =>
      obtain ⟨k, -, -, hafter⟩ := Thread.perform_eq_some hthread
      obtain ⟨j, hj⟩ := List.getElem?_of_mem ht
      by_cases hij : i = j
      · subst hij
        obtain rfl := Option.some.inj (hu.symm.trans hj)
        have hmem := List.mem_set (List.getElem?_eq_some_iff.mp hu).1 u'
        exact ⟨u', hmem, by rw [hafter], [e], by rw [hafter]⟩
      · refine ⟨t, List.mem_of_getElem? (i := j) ?_, rfl, [], by simp⟩
        rwa [List.getElem?_set_ne hij]

/-- Contents whose plaintext was small enough to be encrypted fit in memory. -/
theorem fits_of_encrypted {contents : KeystoreContents}
    (hsize : (u32TryFrom (savePlaintext contents).length).isSome = true) : contents.Fits := by
  have hlength : (savePlaintext contents).length < 2 ^ 32 := by
    simpa [u32TryFrom] using hsize
  have hbyte : ∀ b : UInt8, 0 < (Postcard.u8.encode b).length := fun b => Nat.one_pos
  have hrecord : ∀ p : PairingRecord, 0 < p.serialize.length := by
    intro p
    have hspki : (SpkiHash.format.encode p.clientSpki).length = 32 := p.clientSpki.length_eq
    simp only [PairingRecord.serialize, List.length_append, hspki]
    omega
  have hkey := Postcard.length_le_encodeVec hbyte contents.keyPkcs8Der
  have hcert := Postcard.length_le_encodeVec hbyte contents.certDer
  have hpairings := Postcard.length_le_encodeVec hrecord contents.pairings
  simp only [savePlaintext, KeystoreContents.serialize, List.length_cons, List.length_append]
    at hlength
  refine ⟨?_, ?_, ?_⟩ <;> rw [isizeMax] <;> omega

/-- What was encrypted of some contents is loaded back. -/
theorem loaded_of_encrypted {contents : KeystoreContents}
    (hsize : (u32TryFrom (savePlaintext contents).length).isSome = true) :
    loadPlaintext (savePlaintext contents) = .ok contents.reloaded :=
  loadPlaintext_saved (fits_of_encrypted hsize)

/-- The thread has encrypted the contents and put the result in the keystore file. -/
def Wrote (t : WinThread) (contents : KeystoreContents) (cipher : Bytes) : Prop :=
  ∃ front back blob len pid file,
    t.done = front ++ [⟨.cryptProtectData (savePlaintext contents) 5, some (blob, len)⟩,
      ⟨.copyBlob blob len, cipher⟩, ⟨.localFree blob, ()⟩, ⟨.processId, pid⟩,
      ⟨.file (.create (.tmp pid)), Except.ok file⟩, ⟨.file (.write file cipher), Except.ok ()⟩,
      ⟨.file (.rename (.tmp pid) .keystore), Except.ok ()⟩] ++ back

theorem Wrote.persists {t t' : WinThread} {contents : KeystoreContents} {cipher : Bytes}
    (h : Wrote t contents cipher) {events : List WinEvent} (hdone : t'.done = t.done ++ events) :
    Wrote t' contents cipher := by
  obtain ⟨front, back, blob, len, pid, file, heq⟩ := h
  exact ⟨front, back ++ events, blob, len, pid, file, by rw [hdone, heq, List.append_assoc]⟩

/-- The file is what it was, or some thread wrote it, and it is loaded back as the contents
that the thread saved. -/
def FileWritten (opens : Bytes → Option Bytes) (file : Option Bytes) (h : WinHost) : Prop :=
  h.world.file = file ∨ ∃ t ∈ h.threads, ∃ contents cipher, Wrote t contents cipher ∧
    h.world.file = some cipher ∧ opens cipher = some (savePlaintext contents) ∧
    loadPlaintext (savePlaintext contents) = .ok contents.reloaded

/-- A call that changes the file is the last one of a save of what was just encrypted. -/
theorem wrote_of_rename {t t' : WinThread} {e : WinEvent} {w w' : WinWorld}
    (hfits : t.Keeps (WinFits t.kind.job fun _ => True)) (hnext : t.next = some e.op)
    (hcopied : t.done.IsChain (CopiedRight opens)) (hdone' : t'.done = t.done ++ [e])
    (hfile : FileStep t.done w e w') :
    w'.file = w.file ∨ ∃ contents cipher, Wrote t' contents cipher ∧ w'.file = some cipher ∧
      opens cipher = some (savePlaintext contents) ∧
      loadPlaintext (savePlaintext contents) = .ok contents.reloaded := by
  cases hfile with
  | same hfile hnot => exact .inl hfile
  | @renamed source file cipher front he hdone hfile =>
      subst he
      obtain ⟨contents, cipher', pid, -, rfl, -, file', before, hcalls, front', blob, len, hsize,
        rfl⟩ := hfits.next hnext
      have hlast : (⟨.file (.write file' cipher'), Except.ok ()⟩ : WinEvent) =
          ⟨.file (.write file cipher), Except.ok ()⟩ := by
        simpa using congrArg List.getLast? (hcalls.symm.trans hdone)
      cases hlast
      have hopens : opens cipher = some (savePlaintext contents) := by
        rw [hcalls, List.append_assoc] at hcopied
        exact (List.isChain_append_cons_cons.mp hcopied).2.1 rfl
      refine .inr ⟨contents, cipher, ⟨front', [], blob, len, pid, file, ?_⟩, hfile, hopens,
        loaded_of_encrypted hsize⟩
      rw [hdone', hcalls]
      simp

theorem fileWritten_of_step {file : Option Bytes} {h h' : WinHost} {a : WinAction}
    (horderly : SavesOrderly h) (hblobs : ∀ t ∈ h.threads, BlobsRight opens h.world t)
    (hfile : FileWritten opens file h) (hstep : h.step extractSpkiHash opens a = some h') :
    FileWritten opens file h' := by
  -- while nothing is written, what holds of the file goes on to hold
  have hsame : h'.world.file = h.world.file → FileWritten opens file h' := by
    intro heq
    rcases hfile with hold | ⟨t, ht, contents, cipher, hwrote, hcipher, hloads⟩
    · exact .inl (heq.trans hold)
    · obtain ⟨t', ht', -, events, hdone⟩ := threads_persist hstep ht
      exact .inr ⟨t', ht', contents, cipher, hwrote.persists hdone, heq.trans hcipher, hloads⟩
  cases WinHost.stepped_of_step hstep with
  | @perform i outside filled t t' e w ht hthread heffect hfree =>
      have hmem := List.mem_of_getElem? ht
      have hnext := Thread.next_of_perform hthread
      rcases wrote_of_rename (horderly.fits t hmem) hnext (hblobs t hmem).copied
        (Thread.done_of_perform hthread) (horderly.leaves hmem hnext heffect).file with
        heq | ⟨contents, cipher, hwrote⟩
      · exact hsame heq
      · exact .inr ⟨t', List.mem_set (List.getElem?_eq_some_iff.mp ht).1 t', contents, cipher,
          hwrote⟩
  | _ => exact hsame rfl

/-- In every run in which no save opens the temporary file of its process while another has yet
to rename it, the keystore file is what it was at the start, or what some thread last encrypted
and saved, and it is loaded back as the contents that the thread saved. -/
theorem keystore_loads_back {files : Files FileName} {h : WinHost} {actions : List WinAction}
    (halone : Along (WinHost.step extractSpkiHash opens) WinHost.SavesAlone
      (WinHost.initial files) actions)
    (hsteps : takeSteps (WinHost.step extractSpkiHash opens) (WinHost.initial files) actions =
      some h) : FileWritten opens (files.read .keystore) h := by
  have hall := halone.invariant
    (fun h : WinHost => SavesOrderly h ∧ (∀ t ∈ h.threads, BlobsRight opens h.world t) ∧
      FileWritten opens (files.read .keystore) h)
    (fun h a h' hall halone hstep => ⟨savesOrderly_of_step hall.1 halone hstep,
      blobsRight_of_step hall.2.1 hstep, fileWritten_of_step hall.1 hall.2.1 hall.2.2 hstep⟩)
    ⟨savesOrderly_initial files, by simp [WinHost.initial], .inl rfl⟩ hsteps
  exact hall.2.2

end Runs

/-! ## A server that starts -/

/-- A machine that encrypts nothing. -/
def opensPlain (cipher : Bytes) : Option Bytes :=
  some cipher

/-- Every call into the file system succeeds. -/
def fileSucceeding : (o : FileOp) → FileAns o
  | .create _ => Except.ok 0
  | .write _ _ => Except.ok ()
  | .rename _ _ => Except.ok ()

/-- Every call succeeds; the operations of the daemon are answered by `daemon`. -/
def winSucceeding (daemon : (o : Op) → Ans o) (o : WinOp) : WinAns o :=
  match o with
  | .readyGet => none
  | .readySet _ => ()
  | .openProcessToken _ => some 0
  | .lookupPrivilegeValue _ => some ⟨19, 0⟩
  | .adjustTokenPrivileges _ _ _ => true
  | .closeHandle _ => ()
  | .getLastError => (0 : UInt32)
  | .setSuspendState _ _ _ => true
  | .lockWorkStation => true
  | .exitWindowsEx _ _ => true
  | .wtsGetActiveConsoleSessionId => (1 : UInt32)
  | .wtsQuerySessionInformation _ => (true, some 0)
  | .readBuffer _ => ⟨0, 1⟩
  | .wtsFreeMemory _ => ()
  | .cryptProtectData plain _ => some (0, UInt32.ofNat plain.length)
  | .cryptUnprotectData cipher _ => some (0, UInt32.ofNat cipher.length)
  | .copyBlob _ _ => []
  | .localFree _ => ()
  | .readKeystore => Except.ok []
  | .processId => (0 : UInt32)
  | .file o => fileSucceeding o
  | .serve _ => ()
  | .exit => ()
  | .daemon o => daemon o

/-- A thread makes its next call; a new blob holds the plaintext of the contents. -/
def goOn (contents : KeystoreContents) (thread : ℕ) (daemon : (o : Op) → Ans o) : WinAction :=
  .perform thread (winSucceeding daemon) (savePlaintext contents)

/-- The server starts, and decrypts its keystore. -/
def bootActions : List WinAction :=
  .boot :: List.replicate 3 (goOn pairedContents 0 (succeeding pairedContents))

/-- It copies the blob with the contents. -/
theorem server_copies_blob :
    ∃ h h' e, takeSteps (WinHost.step phoneSpki opensPlain)
        (WinHost.initial savedFiles) bootActions = some h ∧
      h.perform phoneSpki opensPlain 0 (winSucceeding (succeeding pairedContents)) [] =
        some (e, h') ∧
      winDiscipline.needs e.op = some (.blob 0) ∧
      ∃ t, h.threads[0]? = some t ∧
        (∀ r, winDiscipline.needs e.op = some r ∨ winDiscipline.frees e.op = some r →
          winDiscipline.balance r t.done = 1 ∧
          ∀ j u, j ≠ 0 → h.threads[j]? = some u → u.kind.process = t.kind.process →
            winDiscipline.balance r u.done = 0) ∧
        ∀ u ∈ h'.threads, ∀ result, u.rest = .ret result →
          ∀ r, winDiscipline.balance r u.done = 0 := by
  have hview : ((takeSteps (WinHost.step phoneSpki opensPlain)
      (WinHost.initial savedFiles) bootActions).bind fun h =>
        (h.perform phoneSpki opensPlain 0 (winSucceeding (succeeding pairedContents)) []).map
          fun r => winDiscipline.needs r.1.op) = some (some (.blob 0)) := by
    rfl
  obtain ⟨h, hsteps, hcall⟩ := Option.bind_eq_some_iff.mp hview
  obtain ⟨⟨e, h'⟩, hperform, hneeds⟩ := Option.map_eq_some_iff.mp hcall
  exact ⟨h, h', e, hsteps, hperform, hneeds, handles_had_by_one hsteps hperform⟩

/-- All phones are revoked on the PC. -/
def revokeCalls : List WinAction :=
  .launch .uninstallRevokeBroadcast ::
      List.replicate 4 (goOn pairedContents 0 (succeeding pairedContents)) ++
    List.replicate 7 (goOn (Change.revokeAll.apply pairedContents) 0 (succeeding pairedContents))

/-- The file has changed, and is loaded back. -/
theorem revoke_loads_back :
    ∃ h, takeSteps (WinHost.step phoneSpki opensPlain)
        (WinHost.initial savedFiles) revokeCalls = some h ∧
      h.world.file ≠ savedFiles.read .keystore ∧
      FileWritten opensPlain (savedFiles.read .keystore) h := by
  have hview : ((takeSteps (WinHost.step phoneSpki opensPlain)
      (WinHost.initial savedFiles) revokeCalls).map fun h =>
        h.world.file == savedFiles.read .keystore) =
      some false := by
    rfl
  obtain ⟨h, hsteps, hfile⟩ := Option.map_eq_some_iff.mp hview
  exact ⟨h, hsteps, by simpa using hfile, keystore_loads_back (by decide) hsteps⟩

/-- The phone was last seen at another port. -/
def movedContents : KeystoreContents :=
  { pairedContents with pairings := [{ livePairing with lastKnownAddress := some (.v4 0 4243) }] }

/-- The phone connects from two addresses; the second save opens the temporary file before the
first one renames it. -/
def overlappingSaves : List WinAction :=
  .boot :: List.replicate 14 (goOn pairedContents 0 (succeeding pairedContents)) ++
    .accept [[]] phoneAddress 2 2 ::
      List.replicate 12 (goOn lanContents 1 (succeeding pairedContents)) ++
    .accept [[]] (.v4 0 4243) 2 2 ::
      List.replicate 11 (goOn movedContents 2 (succeeding pairedContents)) ++
    [goOn pairedContents 1 (succeeding pairedContents)]

-- the condition is needed: the keystore file is left empty
set_option maxRecDepth 2000 in
example : (takeSteps (WinHost.step phoneSpki opensPlain)
    (WinHost.initial savedFiles) overlappingSaves).map
      (fun h => h.world.file) = some (some []) := by
  rfl

end Daemon
end WakeMyPc
