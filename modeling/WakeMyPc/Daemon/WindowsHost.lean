import WakeMyPc.Daemon.Windows

/-!
# The processes on one Windows PC

The start of the server, its connections and the subcommands run call by call, in any
order.  The threads of one process share its memory, its handles and its temporary file; the
files are shared by all processes.

Main results:

- Definition `WinHost.step`: one call of one thread.
- Theorem `WinHost.threads_of_steps`: what holds of every thread when it starts and is
  preserved by its calls holds of every thread of a run.
-/

namespace WakeMyPc
namespace Daemon

open Foundations
open Protocol (SpkiHash)

/-! ## Threads -/

/-- What a thread runs. -/
inductive WinJob where
  | startServer
  | thread (kind : Kind)
deriving DecidableEq

/-- A job in a process. -/
structure WinKind where
  process : ℕ
  job : WinJob
deriving DecidableEq

/-- The thread belongs to the server. -/
def WinKind.isServer (kind : WinKind) : Bool :=
  match kind.job with
  | .startServer => true
  | .thread k => k.isConnection

/-- The certificates of the peer of a connection. -/
def WinKind.certs (kind : WinKind) : Option (List Bytes) :=
  match kind.job with
  | .startServer => none
  | .thread k => k.certs

/-- A thread of calls into the system. -/
abbrev WinThread := Thread WinOp WinAns WinKind

/-- One call with its answer. -/
abbrev WinEvent := Event WinOp WinAns

/-- What the threads share. -/
structure WinWorld where
  /-- The files in the directory of the keystore. -/
  files : Files FileName
  /-- The contents in the memory of the server, once it serves. -/
  server : Option KeystoreContents
  /-- The process of the server. -/
  process : Option ℕ
  /-- In each process, whether the shutdown privilege is enabled. -/
  ready : ℕ → Option Bool
  /-- In each process, what the blobs hold. -/
  memory : ℕ → ℕ → Bytes

/-- The processes of one PC. -/
structure WinHost where
  world : WinWorld
  threads : List WinThread
  /-- How many processes there have been. -/
  processes : ℕ

/-- What can happen next. -/
inductive WinAction where
  /-- A server process starts. -/
  | boot
  /-- The server process ends. -/
  | stop
  | accept (certs : List Bytes) (peerAddr : SocketAddr) (rounds reads : ℕ)
  | launch (command : Command)
  /-- A thread makes its next call; `outside` answers what is not about shared state, and
  `filled` is what the call leaves in a new blob, or as long as what a failing write has written. -/
  | perform (thread : ℕ) (outside : (o : WinOp) → WinAns o) (filled : Bytes)

/-! ## Answers -/

namespace WinWorld

/-- The bytes of the keystore file. -/
def file (w : WinWorld) : Option Bytes :=
  w.files.read .keystore

/-- Set the cell of a process, unless it was set before. -/
def setReady (w : WinWorld) (process : ℕ) (ready : Bool) : WinWorld :=
  { w with ready := fun p => if p = process then (w.ready p).or (some ready) else w.ready p }

/-- Write a blob. -/
def write (w : WinWorld) (process blob : ℕ) (bytes : Bytes) : WinWorld :=
  { w with
    memory := fun p a => if p = process ∧ a = blob then bytes else w.memory p a }

/-- A call that succeeds leaves a right result in its blob. -/
def fill (w : WinWorld) (process : ℕ) (made : Option (ℕ × UInt32)) (filled : Bytes)
    (right : Bool) : Option (Option (ℕ × UInt32) × WinWorld) :=
  match made with
  | none => some (none, w)
  | some (blob, len) =>
      if right = true ∧ len.toNat = filled.length then
        some (some (blob, len), w.write process blob filled)
      else none

/-- Read the file, or fail. -/
def read (w : WinWorld) (result : Except ReadError Bytes) : Except ReadError Bytes :=
  match result, w.file with
  | .error (.other e), _ => .error (.other e)
  | _, none => .error .notFound
  | _, some cipher => .ok cipher

theorem read_cases (w : WinWorld) (result : Except ReadError Bytes) :
    (∃ e, w.read result = .error (.other e)) ∨
      (w.file = none ∧ w.read result = .error .notFound) ∨
      ∃ cipher, w.file = some cipher ∧ w.read result = .ok cipher := by
  cases result with
  | error e =>
      cases e with
      | notFound => cases hfile : w.file <;> simp [read, hfile]
      | other e => exact .inl ⟨e, rfl⟩
  | ok bytes => cases hfile : w.file <;> simp [read, hfile]

/-- Rename a file, if there is one. -/
def rename (w : WinWorld) (source target : FileName) : Except IoError Unit × WinWorld :=
  match w.files.rename source target with
  | some files => (.ok (), { w with files := files })
  | none => (.error .io, w)

/-- Make a call into the file system, or fail; a write that fails may have written a part. -/
def callFile (w : WinWorld) (filled : Bytes) :
    (o : FileOp) → FileAns o → FileAns o × WinWorld
  | .create _, .error e => (Except.error e, w)
  | .create name, .ok _ =>
      (Except.ok (w.files.create name).1, { w with files := (w.files.create name).2 })
  | .write file bytes, .error e =>
      (Except.error e, { w with files := w.files.write file (bytes.take filled.length) })
  | .write file bytes, .ok () => (Except.ok (), { w with files := w.files.write file bytes })
  | .rename _ _, .error e => (Except.error e, w)
  | .rename source target, .ok () => w.rename source target

end WinWorld

section Host

-- the hash of the public key of a certificate, by the X.509 parser and SHA-256
variable (extractSpkiHash : Bytes → Except Crypto.Error SpkiHash)

-- what the encryption of the operating system makes of a ciphertext of this machine
variable (opens : Bytes → Option Bytes)

/-- The program of a thread. -/
def WinKind.program (kind : WinKind) : WinTask Unit :=
  match kind.job with
  | .startServer => Daemon.startServer
  | .thread k => Prog.interpret onWindows (k.program extractSpkiHash)

/-- The answer to an operation that is not about the platform. -/
def WinKind.answerDaemon (kind : WinKind) (outside : (o : WinOp) → WinAns o) (w : WinWorld)
    (o : Op) : Option (Ans o × WinWorld) :=
  match kind.job with
  | .startServer => some (outside (.daemon o), w)
  | .thread k =>
      (k.answer extractSpkiHash (fun o => outside (.daemon o)) ⟨none, w.server⟩ o).map
        fun result => (result.1, { w with server := result.2.server })

/-- The answer to a call of a thread. -/
def WinKind.answer (kind : WinKind) (outside : (o : WinOp) → WinAns o) (filled : Bytes)
    (w : WinWorld) : (o : WinOp) → Option (WinAns o × WinWorld)
  | .readyGet => some (w.ready kind.process, w)
  | .readySet ready => some ((), w.setReady kind.process ready)
  | .cryptProtectData plain flags =>
      w.fill kind.process (outside (.cryptProtectData plain flags)) filled
        (opens filled == some plain)
  | .cryptUnprotectData cipher flags =>
      w.fill kind.process (outside (.cryptUnprotectData cipher flags)) filled
        (opens cipher == some filled)
  | .copyBlob blob len => some ((w.memory kind.process blob).take len.toNat, w)
  | .readKeystore => some (w.read (outside .readKeystore), w)
  | .processId => some (UInt32.ofNat kind.process, w)
  | .file o => some (w.callFile filled o (outside (.file o)))
  | .serve contents => some ((), { w with server := some contents })
  | .exit => some ((), { w with process := none })
  | .daemon o => kind.answerDaemon extractSpkiHash outside w o
  | o => some (outside o, w)

/-! ## What a call does to what is shared -/

/-- The call is about what is shared. -/
def WinOp.isShared : WinOp → Bool
  | .readyGet => true
  | .readySet _ => true
  | .cryptProtectData _ _ => true
  | .cryptUnprotectData _ _ => true
  | .copyBlob _ _ => true
  | .readKeystore => true
  | .processId => true
  | .file _ => true
  | .serve _ => true
  | .exit => true
  | .daemon _ => true
  | _ => false

/-- What one answered call of a thread does to what the threads share. -/
inductive WinEffect (kind : WinKind) (w : WinWorld) : WinEvent → WinWorld → Prop where
  | readyGet : WinEffect kind w ⟨.readyGet, w.ready kind.process⟩ w
  | readySet (ready : Bool) : WinEffect kind w ⟨.readySet ready, ()⟩ (w.setReady kind.process ready)
  | encrypted {plain bytes : Bytes} {len : UInt32} (flags : UInt32) (blob : ℕ)
      (hopens : opens bytes = some plain) (hlen : len.toNat = bytes.length) :
      WinEffect kind w ⟨.cryptProtectData plain flags, some (blob, len)⟩
        (w.write kind.process blob bytes)
  | notEncrypted (plain : Bytes) (flags : UInt32) :
      WinEffect kind w ⟨.cryptProtectData plain flags, none⟩ w
  | decrypted {cipher bytes : Bytes} {len : UInt32} (flags : UInt32) (blob : ℕ)
      (hopens : opens cipher = some bytes) (hlen : len.toNat = bytes.length) :
      WinEffect kind w ⟨.cryptUnprotectData cipher flags, some (blob, len)⟩
        (w.write kind.process blob bytes)
  | notDecrypted (cipher : Bytes) (flags : UInt32) :
      WinEffect kind w ⟨.cryptUnprotectData cipher flags, none⟩ w
  | copied (blob : ℕ) (len : UInt32) :
      WinEffect kind w ⟨.copyBlob blob len, (w.memory kind.process blob).take len.toNat⟩ w
  | notRead (e : IoError) : WinEffect kind w ⟨.readKeystore, Except.error (.other e)⟩ w
  | notFound (hfile : w.file = none) : WinEffect kind w ⟨.readKeystore, Except.error .notFound⟩ w
  | read {cipher : Bytes} (hfile : w.file = some cipher) :
      WinEffect kind w ⟨.readKeystore, Except.ok cipher⟩ w
  | processId : WinEffect kind w ⟨.processId, UInt32.ofNat kind.process⟩ w
  | created (name : FileName) :
      WinEffect kind w ⟨.file (.create name), Except.ok (w.files.create name).1⟩
        { w with files := (w.files.create name).2 }
  | notCreated (name : FileName) (e : IoError) :
      WinEffect kind w ⟨.file (.create name), Except.error e⟩ w
  | written (file : ℕ) (bytes : Bytes) :
      WinEffect kind w ⟨.file (.write file bytes), Except.ok ()⟩
        { w with files := w.files.write file bytes }
  | partlyWritten (file : ℕ) (bytes : Bytes) (n : ℕ) (e : IoError) :
      WinEffect kind w ⟨.file (.write file bytes), Except.error e⟩
        { w with files := w.files.write file (bytes.take n) }
  | renamed {source target : FileName} {files : Files FileName}
      (hrename : w.files.rename source target = some files) :
      WinEffect kind w ⟨.file (.rename source target), Except.ok ()⟩ { w with files := files }
  | notRenamed (source target : FileName) (e : IoError) :
      WinEffect kind w ⟨.file (.rename source target), Except.error e⟩ w
  | served (contents : KeystoreContents) :
      WinEffect kind w ⟨.serve contents, ()⟩ { w with server := some contents }
  | exited : WinEffect kind w ⟨.exit, ()⟩ { w with process := none }
  | starting (hjob : kind.job = .startServer) (o : Op) (r : Ans o) :
      WinEffect kind w ⟨.daemon o, r⟩ w
  | daemon {k : Kind} (hjob : kind.job = .thread k) {o : Op} {r : Ans o} {after : World}
      (heffect : Effect extractSpkiHash k ⟨none, w.server⟩ ⟨o, r⟩ after) :
      WinEffect kind w ⟨.daemon o, r⟩ { w with server := after.server }
  | other {e : WinEvent} (hother : e.op.isShared = false) : WinEffect kind w e w

variable {extractSpkiHash opens} in
theorem winEffect_of_callFile {kind : WinKind} {w w' : WinWorld} {filled : Bytes} {o : FileOp}
    {result r : FileAns o} (h : w.callFile filled o result = (r, w')) :
    WinEffect extractSpkiHash opens kind w ⟨.file o, r⟩ w' := by
  cases o with
  | create name =>
      cases result with
      | error e =>
          cases h
          exact .notCreated name e
      | ok file =>
          cases h
          exact .created name
  | write file bytes =>
      cases result with
      | error e =>
          cases h
          exact .partlyWritten file bytes filled.length e
      | ok _ =>
          cases h
          exact .written file bytes
  | rename source target =>
      cases result with
      | error e =>
          cases h
          exact .notRenamed source target e
      | ok _ =>
          change w.rename source target = (r, w') at h
          unfold WinWorld.rename at h
          split at h
          · next files hrename =>
              cases h
              exact .renamed hrename
          · cases h
            exact .notRenamed source target .io

variable {extractSpkiHash opens} in
/-- An answered call has one of these effects. -/
theorem winEffect_of_answer {kind : WinKind} {outside : (o : WinOp) → WinAns o} {filled : Bytes}
    {w w' : WinWorld} {e : WinEvent}
    (h : kind.answer extractSpkiHash opens outside filled w e.op = some (e.ans, w')) :
    WinEffect extractSpkiHash opens kind w e w' := by
  obtain ⟨o, r⟩ := e
  cases o with
  | cryptProtectData plain flags =>
      change w.fill kind.process _ filled _ = some _ at h
      unfold WinWorld.fill at h
      split at h
      · cases h
        exact .notEncrypted plain flags
      · split at h
        · next hright =>
            cases h
            exact .encrypted flags _ (by simpa using hright.1) hright.2
        · cases h
  | cryptUnprotectData cipher flags =>
      change w.fill kind.process _ filled _ = some _ at h
      unfold WinWorld.fill at h
      split at h
      · cases h
        exact .notDecrypted cipher flags
      · split at h
        · next hright =>
            cases h
            exact .decrypted flags _ (by simpa using hright.1) hright.2
        · cases h
  | readKeystore =>
      obtain ⟨rfl, rfl⟩ := Prod.mk.inj (Option.some.inj h)
      rcases w.read_cases (outside .readKeystore) with ⟨e, hread⟩ | ⟨hfile, hread⟩ | hfile
      · exact hread ▸ .notRead e
      · exact hread ▸ .notFound hfile
      · obtain ⟨cipher, hfile, hread⟩ := hfile
        exact hread ▸ .read hfile
  | processId =>
      cases h
      exact .processId
  | file o => exact winEffect_of_callFile (Option.some.inj h)
  | daemon o =>
      change kind.answerDaemon extractSpkiHash outside w o = some _ at h
      unfold WinKind.answerDaemon at h
      split at h
      · next hjob =>
          cases h
          exact .starting hjob o _
      · next k hjob =>
          obtain ⟨⟨r', after⟩, hanswer, heq⟩ := Option.map_eq_some_iff.mp h
          cases heq
          exact .daemon hjob (effect_of_answer hanswer)
  | readyGet =>
      cases h
      exact .readyGet
  | readySet ready =>
      cases h
      exact .readySet ready
  | copyBlob blob len =>
      cases h
      exact .copied blob len
  | serve contents =>
      cases h
      exact .served contents
  | exit =>
      cases h
      exact .exited
  | _ =>
      obtain rfl : w = w' := congrArg Prod.snd (Option.some.inj h)
      exact .other rfl

/-! ## The steps of the processes -/

/-- A thread that starts. -/
def WinKind.start (kind : WinKind) : WinThread :=
  ⟨kind, [], kind.program extractSpkiHash⟩

/-- A thread of the server ends with it. -/
def endServerThread (t : WinThread) : WinThread :=
  if t.kind.isServer then { t with rest := .stall } else t

@[simp]
theorem endServerThread_kind (t : WinThread) : (endServerThread t).kind = t.kind := by
  unfold endServerThread
  split <;> rfl

@[simp]
theorem endServerThread_done (t : WinThread) : (endServerThread t).done = t.done := by
  unfold endServerThread
  split <;> rfl

namespace WinHost

/-- No process runs. -/
def initial (files : Files FileName) : WinHost :=
  ⟨⟨files, none, none, fun _ => none, fun _ _ => []⟩, [], 0⟩

/-- What the call hands out, no thread of the process has. -/
def HandsOutFree (h : WinHost) (process : ℕ) (e : WinEvent) : Prop :=
  ∀ r, winGives e = some r → winDiscipline.free WinKind.process h.threads process r = true

instance (h : WinHost) (process : ℕ) (e : WinEvent) : Decidable (h.HandsOutFree process e) :=
  decidable_of_iff ((winGives e).all (winDiscipline.free WinKind.process h.threads process) = true)
    (by cases hgives : winGives e <;> simp [HandsOutFree, hgives])

/-- One thread makes its next call. -/
def perform (h : WinHost) (i : ℕ) (outside : (o : WinOp) → WinAns o) (filled : Bytes) :
    Option (WinEvent × WinHost) :=
  match h.threads[i]? with
  | none => none
  | some t =>
      match t.perform (t.kind.answer extractSpkiHash opens outside filled h.world) with
      | none => none
      | some (e, t', w) =>
          if h.HandsOutFree t.kind.process e then
            some (e, { h with world := w, threads := h.threads.set i t' })
          else none

/-- One more thread starts. -/
def spawn (h : WinHost) (kind : WinKind) : WinHost :=
  { h with threads := h.threads ++ [kind.start extractSpkiHash] }

/-- One step, if it can be taken. -/
def step (h : WinHost) : WinAction → Option WinHost
  | .boot =>
      match h.world.process with
      | none =>
          some { h.spawn extractSpkiHash ⟨h.processes, .startServer⟩ with
            world := { h.world with process := some h.processes }
            processes := h.processes + 1 }
      | some _ => none
  | .stop =>
      some { h with
        world := { h.world with server := none, process := none }
        threads := h.threads.map endServerThread }
  | .accept certs peerAddr rounds reads =>
      match h.world.process, h.world.server with
      | some process, some _ =>
          some (h.spawn extractSpkiHash
            ⟨process, .thread (.connection certs peerAddr rounds reads)⟩)
      | _, _ => none
  | .launch command =>
      some { h.spawn extractSpkiHash ⟨h.processes, .thread (.command command)⟩ with
        processes := h.processes + 1 }
  | .perform i outside filled => (h.perform extractSpkiHash opens i outside filled).map Prod.snd

/-- The cases of a step. -/
inductive Stepped (h : WinHost) : WinAction → WinHost → Prop where
  | boot (hprocess : h.world.process = none) :
      Stepped h .boot
        { h.spawn extractSpkiHash ⟨h.processes, .startServer⟩ with
          world := { h.world with process := some h.processes }
          processes := h.processes + 1 }
  | stop :
      Stepped h .stop
        { h with
          world := { h.world with server := none, process := none }
          threads := h.threads.map endServerThread }
  | accept {process : ℕ} {c : KeystoreContents} (hprocess : h.world.process = some process)
      (hserver : h.world.server = some c) (certs : List Bytes) (peerAddr : SocketAddr)
      (rounds reads : ℕ) :
      Stepped h (.accept certs peerAddr rounds reads)
        (h.spawn extractSpkiHash ⟨process, .thread (.connection certs peerAddr rounds reads)⟩)
  | launch (command : Command) :
      Stepped h (.launch command)
        { h.spawn extractSpkiHash ⟨h.processes, .thread (.command command)⟩ with
          processes := h.processes + 1 }
  | perform {i : ℕ} {outside : (o : WinOp) → WinAns o} {filled : Bytes} {t t' : WinThread}
      {e : WinEvent} {w : WinWorld} (ht : h.threads[i]? = some t)
      (hthread : t.perform (t.kind.answer extractSpkiHash opens outside filled h.world) =
        some (e, t', w))
      (heffect : WinEffect extractSpkiHash opens t.kind h.world e w)
      (hfree : h.HandsOutFree t.kind.process e) :
      Stepped h (.perform i outside filled) { h with world := w, threads := h.threads.set i t' }

variable {extractSpkiHash opens}

/-- What performs is a thread. -/
theorem thread_of_perform {h h' : WinHost} {i : ℕ} {outside : (o : WinOp) → WinAns o}
    {filled : Bytes} {e : WinEvent}
    (hperform : h.perform extractSpkiHash opens i outside filled = some (e, h')) :
    ∃ t t' w, h.threads[i]? = some t ∧
      t.perform (t.kind.answer extractSpkiHash opens outside filled h.world) = some (e, t', w) ∧
      h.HandsOutFree t.kind.process e ∧
      h' = { h with world := w, threads := h.threads.set i t' } := by
  unfold perform at hperform
  split at hperform
  · simp at hperform
  · next t ht =>
      split at hperform
      · simp at hperform
      · next e' t' w hthread =>
          split at hperform
          · next hfree =>
              cases hperform
              exact ⟨t, t', w, ht, hthread, hfree, rfl⟩
          · simp at hperform

/-- A step that is taken is one of these cases. -/
theorem stepped_of_step {h h' : WinHost} {a : WinAction}
    (hstep : h.step extractSpkiHash opens a = some h') : Stepped extractSpkiHash opens h a h' := by
  cases a with
  | boot =>
      simp only [step] at hstep
      split at hstep
      · next hprocess =>
          obtain rfl := Option.some.inj hstep
          exact .boot hprocess
      · simp at hstep
  | stop =>
      obtain rfl := Option.some.inj hstep
      exact .stop
  | accept certs peerAddr rounds reads =>
      simp only [step] at hstep
      split at hstep
      · next process c hprocess hserver =>
          obtain rfl := Option.some.inj hstep
          exact .accept hprocess hserver certs peerAddr rounds reads
      · simp at hstep
  | launch command =>
      obtain rfl := Option.some.inj hstep
      exact .launch command
  | perform i outside filled =>
      obtain ⟨⟨e, h₁⟩, hperform, rfl⟩ := Option.map_eq_some_iff.mp hstep
      obtain ⟨t, t', w, ht, hthread, hfree, rfl⟩ := thread_of_perform hperform
      obtain ⟨k, -, hanswer, -⟩ := Thread.perform_eq_some hthread
      exact .perform ht hthread (winEffect_of_answer hanswer) hfree

/-! ## What holds of every thread -/

/-- What holds of every thread when it starts, is preserved by its calls, and holds of a
thread that is ended, holds of every thread after a step. -/
theorem threads_of_step {T : WinThread → Prop}
    (hstart : ∀ kind : WinKind, T (kind.start extractSpkiHash))
    (hperform : ∀ t t' answer w w' e, T t → t.perform answer = some (e, t', w') →
      WinEffect extractSpkiHash opens t.kind w e w' → T t')
    (hend : ∀ t, T t → T (endServerThread t)) {h h' : WinHost} {a : WinAction}
    (hall : ∀ t ∈ h.threads, T t) (hstep : h.step extractSpkiHash opens a = some h') :
    ∀ t ∈ h'.threads, T t := by
  have hspawn : ∀ kind : WinKind, ∀ t ∈ h.threads ++ [kind.start extractSpkiHash], T t := by
    intro kind t ht
    rcases List.mem_append.mp ht with hold | hnew
    · exact hall t hold
    · obtain rfl := List.mem_singleton.mp hnew
      exact hstart kind
  cases stepped_of_step hstep with
  | boot hprocess => exact hspawn _
  | stop =>
      intro t ht
      obtain ⟨t₀, ht₀, rfl⟩ := List.mem_map.mp ht
      exact hend t₀ (hall t₀ ht₀)
  | accept hprocess hserver certs peerAddr rounds reads => exact hspawn _
  | launch command => exact hspawn _
  | @perform i outside filled t t' e w ht hthread heffect hfree =>
      intro t₁ ht₁
      rcases List.mem_or_eq_of_mem_set ht₁ with hold | rfl
      · exact hall t₁ hold
      · exact hperform t t₁ _ h.world w e (hall t (List.mem_of_getElem? ht)) hthread heffect

/-- The same for every thread of a run. -/
theorem threads_of_steps {T : WinThread → Prop}
    (hstart : ∀ kind : WinKind, T (kind.start extractSpkiHash))
    (hperform : ∀ t t' answer w w' e, T t → t.perform answer = some (e, t', w') →
      WinEffect extractSpkiHash opens t.kind w e w' → T t')
    (hend : ∀ t, T t → T (endServerThread t)) {files : Files FileName} {h : WinHost}
    {actions : List WinAction}
    (hsteps : takeSteps (step extractSpkiHash opens) (initial files) actions = some h) :
    ∀ t ∈ h.threads, T t := by
  apply takeSteps_invariant (fun h : WinHost => ∀ t ∈ h.threads, T t) ?_ ?_ hsteps
  · intro h a h' hall hstep
    exact threads_of_step hstart hperform hend hall hstep
  · simp [initial]

end WinHost
end Host

end Daemon
end WakeMyPc
