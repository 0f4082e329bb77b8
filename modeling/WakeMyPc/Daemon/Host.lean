import WakeMyPc.Daemon.KeystoreFile
import WakeMyPc.Daemon.PairingFlow
import WakeMyPc.Foundations.History
import WakeMyPc.Foundations.Runs

/-!
# The processes on one PC

The running server, its connections, and any number of subcommands share one
keystore file.  The server reads the file once, when it starts, and its connections
share the contents in memory.  Each process performs one operation at a time, in any
order.

The file holds the contents as they are read back: the serialised form of an address has
neither flow information nor a scope, so a save drops them.  A save is one operation, which is
right while no save of a process opens its temporary file before another one has renamed it.

Main results:

- Definition `Host.step`: one step of one process.
- Theorem `effect_of_answer`: what an operation does to what the processes share.
- Theorem `Host.stepped_of_step`: the cases of a step.
- Theorem `Host.threads_of_steps`: what holds of every thread when it starts and is
  preserved by its operations holds of every thread of a run.
-/

namespace WakeMyPc
namespace Daemon

open Foundations
open Protocol (SpkiHash)
open Crypto (verifyClientCert)

/-! ## Threads -/

/-- The subcommands that change the keystore file. -/
inductive Command where
  | revoke (phoneName : RustString)
  | reauthNow
  | uninstallRevokeBroadcast
  | pair (draws rounds reads : ℕ)
deriving DecidableEq

/-- What a thread runs: a connection of a peer with its certificates, or a
subcommand. -/
inductive Kind where
  | connection (certs : List Bytes) (peerAddr : SocketAddr) (rounds reads : ℕ)
  | command (command : Command)
deriving DecidableEq

/-- The thread is a connection of the server. -/
def Kind.isConnection : Kind → Bool
  | .connection _ _ _ _ => true
  | .command _ => false

/-- A task whose result is not looked at. -/
def void {α : Type} (p : Task α) : Task Unit := do
  let _ ← p
  return ()

/-- A thread of the daemon. -/
abbrev DaemonThread := Thread Op Ans Kind

/-- What the threads share: what is read back from the keystore file, and the contents in
the memory of the server while it runs. -/
structure World where
  file : Option KeystoreContents
  server : Option KeystoreContents
deriving DecidableEq

/-- The processes of one PC. -/
structure Host where
  world : World
  threads : List DaemonThread

/-- What can happen next. -/
inductive Action where
  /-- The server starts and loads the keystore. -/
  | start
  /-- The server and its connections end. -/
  | stop
  | accept (certs : List Bytes) (peerAddr : SocketAddr) (rounds reads : ℕ)
  | launch (command : Command)
  /-- A thread performs its next operation; `outside` answers what is not about the
  keystore or the certificates of the peer. -/
  | perform (thread : ℕ) (outside : (o : Op) → Ans o)

section Host

-- the hash of the public key of a certificate, by the X.509 parser and SHA-256
variable (extractSpkiHash : Bytes → Except Crypto.Error SpkiHash)

/-- The program of a thread. -/
def Kind.program : Kind → Task Unit
  | .connection _ peerAddr rounds reads =>
      void (acceptConnection extractSpkiHash rounds reads peerAddr)
  | .command (.revoke phoneName) => void (Daemon.revoke phoneName)
  | .command .reauthNow => void Daemon.reauthNow
  | .command .uninstallRevokeBroadcast => void Daemon.uninstallRevokeBroadcast
  | .command (.pair draws rounds reads) =>
      void (PairingFlow.run extractSpkiHash draws rounds reads)

/-- A TLS handshake completes only if the verifier accepts the leaf that the peer
presents. -/
def verifiedHandshake (mode : Crypto.VerifierMode) (certs : List Bytes)
    (result : Except IoError Unit) : Except IoError Unit :=
  match result, certs with
  | .error e, _ => .error e
  | .ok (), [] => .error .io
  | .ok (), leaf :: _ =>
      match verifyClientCert extractSpkiHash mode leaf with
      | .ok () => .ok ()
      | .error _ => .error .io

/-- The answer to an operation of a thread.  The shared contents are there only while
the server runs; a save leaves in the file what is read back of the contents, and a load or
a save that fails leaves the file as it is. -/
def Kind.answer (kind : Kind) (outside : (o : Op) → Ans o) (w : World) :
    (o : Op) → Option (Ans o × World)
  | .snapshot => w.server.map fun c => (c, w)
  | .write u => w.server.map fun c => ((u.run c).1, { w with server := some (u.apply c) })
  | .load =>
      match (outside .load : Except KeystoreError (Option KeystoreContents)) with
      | .error e => some (Except.error e, w)
      | .ok _ => some (Except.ok w.file, w)
  | .saveFile c =>
      match (outside (.saveFile c) : Except KeystoreError Unit) with
      | .error e => some (Except.error e, w)
      | .ok () => some (Except.ok (), { w with file := some c.reloaded })
  | .handshake mode =>
      match kind with
      | .connection certs _ _ _ =>
          some (verifiedHandshake extractSpkiHash mode certs (outside (.handshake mode)), w)
      | .command _ => some (outside (.handshake mode), w)
  | .peerCertificates =>
      match kind with
      | .connection certs _ _ _ => some (some certs, w)
      | .command _ => some (outside .peerCertificates, w)
  | o => some (outside o, w)

/-! ## What an operation does to what is shared -/

/-- The operation is about the keystore. -/
def Op.isShared : Op → Bool
  | .snapshot => true
  | .write _ => true
  | .load => true
  | .saveFile _ => true
  | _ => false

/-- The certificates of the peer of a connection. -/
def Kind.certs : Kind → Option (List Bytes)
  | .connection certs _ _ _ => some certs
  | .command _ => none

/-- The answer agrees with the certificates that the peer presents. -/
def FromPeer (certs : List Bytes) : TaskEvent → Prop
  | ⟨.handshake mode, result⟩ => (result : Except IoError Unit) = .ok () →
      ∃ leaf chain, certs = leaf :: chain ∧ verifyClientCert extractSpkiHash mode leaf = .ok ()
  | ⟨.peerCertificates, presented⟩ => (presented : Option (List Bytes)) = some certs
  | _ => True

variable {extractSpkiHash} in
theorem fromPeer_of_verifiedHandshake {mode : Crypto.VerifierMode} {certs : List Bytes}
    {result : Except IoError Unit} :
    FromPeer extractSpkiHash certs
      ⟨.handshake mode, verifiedHandshake extractSpkiHash mode certs result⟩ := by
  intro hok
  cases result with
  | error e => simp [verifiedHandshake] at hok
  | ok _ =>
      cases certs with
      | nil => simp [verifiedHandshake] at hok
      | cons leaf chain =>
          refine ⟨leaf, chain, rfl, ?_⟩
          simp only [verifiedHandshake] at hok
          split at hok
          · assumption
          · simp at hok

/-- What one answered operation of a thread does to what the threads share. -/
inductive Effect (kind : Kind) (w : World) : TaskEvent → World → Prop where
  | snapshot {c : KeystoreContents} (hserver : w.server = some c) :
      Effect kind w ⟨.snapshot, c⟩ w
  | write {c : KeystoreContents} (u : Update) (hserver : w.server = some c) :
      Effect kind w ⟨.write u, (u.run c).1⟩ { w with server := some (u.apply c) }
  | loaded : Effect kind w ⟨.load, Except.ok w.file⟩ w
  | loadFailed (e : KeystoreError) : Effect kind w ⟨.load, Except.error e⟩ w
  | saved (c : KeystoreContents) :
      Effect kind w ⟨.saveFile c, Except.ok ()⟩ { w with file := some c.reloaded }
  | saveFailed (c : KeystoreContents) (e : KeystoreError) :
      Effect kind w ⟨.saveFile c, Except.error e⟩ w
  | other {e : TaskEvent} (hother : e.op.isShared = false)
      (hpeer : ∀ certs, kind.certs = some certs → FromPeer extractSpkiHash certs e) :
      Effect kind w e w

variable {extractSpkiHash} in
/-- An answered operation has one of these effects. -/
theorem effect_of_answer {kind : Kind} {outside : (o : Op) → Ans o} {w w' : World} {e : TaskEvent}
    (h : kind.answer extractSpkiHash outside w e.op = some (e.ans, w')) :
    Effect extractSpkiHash kind w e w' := by
  obtain ⟨o, r⟩ := e
  cases o with
  | snapshot =>
      obtain ⟨c, hserver, heq⟩ := Option.map_eq_some_iff.mp h
      cases heq
      exact .snapshot hserver
  | write u =>
      obtain ⟨c, hserver, heq⟩ := Option.map_eq_some_iff.mp h
      cases heq
      exact .write u hserver
  | load =>
      simp only [Kind.answer] at h
      split at h
      · cases h
        exact .loadFailed _
      · cases h
        exact .loaded
  | saveFile c =>
      simp only [Kind.answer] at h
      split at h
      · cases h
        exact .saveFailed c _
      · cases h
        exact .saved c
  | handshake mode =>
      cases kind with
      | command command =>
          cases h
          exact .other rfl (by simp [Kind.certs])
      | connection certs peerAddr rounds reads =>
          cases h
          refine .other rfl fun certs' hcerts => ?_
          obtain rfl := Option.some.inj hcerts
          exact fromPeer_of_verifiedHandshake
  | peerCertificates =>
      cases kind with
      | command command =>
          cases h
          exact .other rfl (by simp [Kind.certs])
      | connection certs peerAddr rounds reads =>
          cases h
          refine .other rfl fun certs' hcerts => ?_
          obtain rfl := Option.some.inj hcerts
          rfl
  | _ =>
      obtain rfl : w = w' := congrArg Prod.snd (Option.some.inj h)
      exact .other rfl fun _ _ => trivial

/-! ## The steps of the processes -/

/-- A thread that starts. -/
def Kind.thread (kind : Kind) : DaemonThread :=
  ⟨kind, [], kind.program extractSpkiHash⟩

/-- A connection that ends with the server. -/
def endConnection (t : DaemonThread) : DaemonThread :=
  if t.kind.isConnection then { t with rest := .stall } else t

namespace Host

/-- No process runs, and the file was written from these contents. -/
def initial (file : Option KeystoreContents) : Host :=
  ⟨⟨file.map KeystoreContents.reloaded, none⟩, []⟩

/-- One thread performs its next operation. -/
def perform (h : Host) (i : ℕ) (outside : (o : Op) → Ans o) : Option (TaskEvent × Host) :=
  match h.threads[i]? with
  | none => none
  | some t =>
      (t.perform (t.kind.answer extractSpkiHash outside h.world)).map fun result =>
        (result.1, ⟨result.2.2, h.threads.set i result.2.1⟩)

/-- One step of one process, if it can be taken. -/
def step (h : Host) : Action → Option Host
  | .start =>
      match h.world.server, h.world.file with
      | none, some c => some { h with world := { h.world with server := some c } }
      | _, _ => none
  | .stop => some ⟨{ h.world with server := none }, h.threads.map endConnection⟩
  | .accept certs peerAddr rounds reads =>
      if h.world.server.isSome then
        some { h with
          threads :=
            h.threads ++ [(Kind.connection certs peerAddr rounds reads).thread extractSpkiHash] }
      else none
  | .launch command =>
      some { h with threads := h.threads ++ [(Kind.command command).thread extractSpkiHash] }
  | .perform i outside => (h.perform extractSpkiHash i outside).map Prod.snd

/-- The cases of a step. -/
inductive Stepped (h : Host) : Action → Host → Prop where
  | start {c : KeystoreContents} (hserver : h.world.server = none) (hfile : h.world.file = some c) :
      Stepped h .start { h with world := { h.world with server := some c } }
  | stop : Stepped h .stop ⟨{ h.world with server := none }, h.threads.map endConnection⟩
  | accept {c : KeystoreContents} (hserver : h.world.server = some c) (certs : List Bytes)
      (peerAddr : SocketAddr) (rounds reads : ℕ) :
      Stepped h (.accept certs peerAddr rounds reads)
        { h with
          threads :=
            h.threads ++ [(Kind.connection certs peerAddr rounds reads).thread extractSpkiHash] }
  | launch (command : Command) :
      Stepped h (.launch command)
        { h with threads := h.threads ++ [(Kind.command command).thread extractSpkiHash] }
  | perform {i : ℕ} {outside : (o : Op) → Ans o} {t t' : DaemonThread} {e : TaskEvent} {w : World}
      (ht : h.threads[i]? = some t)
      (hthread : t.perform (t.kind.answer extractSpkiHash outside h.world) = some (e, t', w))
      (heffect : Effect extractSpkiHash t.kind h.world e w) :
      Stepped h (.perform i outside) ⟨w, h.threads.set i t'⟩

variable {extractSpkiHash}

/-- What performs is a thread. -/
theorem thread_of_perform {h h' : Host} {i : ℕ} {outside : (o : Op) → Ans o} {e : TaskEvent}
    (hperform : h.perform extractSpkiHash i outside = some (e, h')) :
    ∃ t t' w, h.threads[i]? = some t ∧
      t.perform (t.kind.answer extractSpkiHash outside h.world) = some (e, t', w) ∧
      h' = ⟨w, h.threads.set i t'⟩ := by
  unfold perform at hperform
  split at hperform
  · simp at hperform
  · next t ht =>
      obtain ⟨⟨e', t', w⟩, hthread, heq⟩ := Option.map_eq_some_iff.mp hperform
      cases heq
      exact ⟨t, t', w, ht, hthread, rfl⟩

/-- A thread that performs an operation is one of the host that does. -/
theorem perform_of_thread {h : Host} {i : ℕ} {outside : (o : Op) → Ans o} {t t' : DaemonThread}
    {e : TaskEvent} {w : World} (ht : h.threads[i]? = some t)
    (hthread : t.perform (t.kind.answer extractSpkiHash outside h.world) = some (e, t', w)) :
    h.perform extractSpkiHash i outside = some (e, ⟨w, h.threads.set i t'⟩) := by
  simp only [perform, ht, hthread, Option.map_some]

/-- A step that is taken is one of these cases. -/
theorem stepped_of_step {h h' : Host} {a : Action} (hstep : h.step extractSpkiHash a = some h') :
    Stepped extractSpkiHash h a h' := by
  cases a with
  | start =>
      simp only [step] at hstep
      split at hstep
      · next c hserver hfile =>
          obtain rfl := Option.some.inj hstep
          exact .start hserver hfile
      · simp at hstep
  | stop =>
      obtain rfl := Option.some.inj hstep
      exact .stop
  | accept certs peerAddr rounds reads =>
      simp only [step] at hstep
      split at hstep
      · next hsome =>
          obtain ⟨c, hserver⟩ := Option.isSome_iff_exists.mp hsome
          obtain rfl := Option.some.inj hstep
          exact .accept hserver certs peerAddr rounds reads
      · simp at hstep
  | launch command =>
      obtain rfl := Option.some.inj hstep
      exact .launch command
  | perform i outside =>
      obtain ⟨⟨e, h₁⟩, hperform, rfl⟩ := Option.map_eq_some_iff.mp hstep
      obtain ⟨t, t', w, ht, hthread, rfl⟩ := thread_of_perform hperform
      obtain ⟨k, -, hanswer, -⟩ := Thread.perform_eq_some hthread
      exact .perform ht hthread (effect_of_answer hanswer)

/-! ## What holds of every thread -/

/-- What holds of every thread when it starts, is preserved by its operations, and holds
of a connection that is ended, holds of every thread after a step. -/
theorem threads_of_step {T : DaemonThread → Prop}
    (hstart : ∀ kind : Kind, T (kind.thread extractSpkiHash))
    (hperform : ∀ t t' answer w w' e, T t → t.perform answer = some (e, t', w') →
      Effect extractSpkiHash t.kind w e w' → T t')
    (hend : ∀ t, T t → T (endConnection t)) {h h' : Host} {a : Action}
    (hall : ∀ t ∈ h.threads, T t) (hstep : h.step extractSpkiHash a = some h') :
    ∀ t ∈ h'.threads, T t := by
  cases stepped_of_step hstep with
  | start hserver hfile => exact hall
  | stop =>
      intro t ht
      obtain ⟨t₀, ht₀, rfl⟩ := List.mem_map.mp ht
      exact hend t₀ (hall t₀ ht₀)
  | accept hserver certs peerAddr rounds reads =>
      intro t ht
      rcases List.mem_append.mp ht with hold | hnew
      · exact hall t hold
      · obtain rfl := List.mem_singleton.mp hnew
        exact hstart _
  | launch command =>
      intro t ht
      rcases List.mem_append.mp ht with hold | hnew
      · exact hall t hold
      · obtain rfl := List.mem_singleton.mp hnew
        exact hstart _
  | @perform i outside t t' e w ht hthread heffect =>
      intro t₁ ht₁
      rcases List.mem_or_eq_of_mem_set ht₁ with hold | rfl
      · exact hall t₁ hold
      · exact hperform t t₁ _ h.world w e (hall t (List.mem_of_getElem? ht)) hthread heffect

/-- The same for every thread of a run. -/
theorem threads_of_steps {T : DaemonThread → Prop}
    (hstart : ∀ kind : Kind, T (kind.thread extractSpkiHash))
    (hperform : ∀ t t' answer w w' e, T t → t.perform answer = some (e, t', w') →
      Effect extractSpkiHash t.kind w e w' → T t')
    (hend : ∀ t, T t → T (endConnection t)) {file : Option KeystoreContents} {h : Host}
    {actions : List Action}
    (hsteps : takeSteps (Host.step extractSpkiHash) (initial file) actions = some h) :
    ∀ t ∈ h.threads, T t := by
  apply takeSteps_invariant (fun h : Host => ∀ t ∈ h.threads, T t) ?_ ?_ hsteps
  · intro h a h' hall hstep
    exact threads_of_step hstart hperform hend hall hstep
  · simp [initial]

/-! ## What the file holds -/

/-- In every run the file holds nothing that would be lost by another save. -/
theorem file_unscoped_of_steps {file : Option KeystoreContents} {h : Host} {actions : List Action}
    (hsteps : takeSteps (Host.step extractSpkiHash) (initial file) actions = some h) :
    ∀ c, h.world.file = some c → c.Unscoped := by
  apply takeSteps_invariant (fun h : Host => ∀ c, h.world.file = some c → c.Unscoped) ?_ ?_ hsteps
  · intro h a h' hfile hstep
    cases stepped_of_step hstep with
    | perform ht hthread heffect =>
        cases heffect with
        | saved c =>
            intro c' hc'
            obtain rfl := Option.some.inj hc'
            exact c.unscoped_reloaded
        | _ => exact hfile
    | _ => exact hfile
  · intro c hc
    obtain ⟨c₀, -, rfl⟩ := Option.map_eq_some_iff.mp hc
    exact c₀.unscoped_reloaded

end Host
end Host

end Daemon
end WakeMyPc
