import WakeMyPc.Daemon.CommandHistory
import WakeMyPc.Daemon.ConnectionHistory
import WakeMyPc.Daemon.Session

/-!
# Who may command the PC

Any number of connections and subcommands run at the same time.  A handler is called
only for a peer that was paired both when its TLS handshake was set up and when its
session began, only for the message of that name, and only while the re-auth window is
open.

Main results:

- Theorem `threadKeeps_of_steps`: every thread of a run keeps to its operations.
- Theorem `handler_calls_authorized`: all handler calls of all runs are authorized.
-/

namespace WakeMyPc
namespace Daemon

open Foundations
open Protocol

section Authorization

-- the hash of the public key of a certificate, by the X.509 parser and SHA-256
variable (extractSpkiHash : Bytes → Except Crypto.Error SpkiHash)

/-! ## What threads keep to -/

/-- The operation calls a handler or changes stored contents. -/
def Op.isGuarded (o : Op) : Bool :=
  o.isHandler || o.changesContents

/-- What a connection keeps to: its operations fit its history, the answers about its
peer are true of the certificates, and nothing guarded comes before both checks. -/
structure ConnectionKeeps (certs : List Bytes) (t : DaemonThread) : Prop where
  keeps : t.Keeps (ConnectionOp extractSpkiHash)
  fromPeer : ∀ e ∈ t.done, FromPeer extractSpkiHash certs e
  guarded : ∀ e ∈ t.done, e.op.isGuarded = true → Admitted extractSpkiHash t.done

/-- What a thread keeps to. -/
def ThreadKeeps (t : DaemonThread) : Prop :=
  match t.kind with
  | .connection certs _ _ _ => ConnectionKeeps extractSpkiHash certs t
  | .command command => t.Keeps (CommandOp command)

variable {extractSpkiHash}

/-- A guarded operation of a connection comes after both checks. -/
theorem admitted_of_guarded {h : List TaskEvent} {o : Op} (hop : ConnectionOp extractSpkiHash h o)
    (hguarded : o.isGuarded = true) : Admitted extractSpkiHash h := by
  cases o with
  | write u => exact hop
  | saveFile contents => exact hop.1
  | sleep => exact hop.1
  | lock => exact hop.1
  | powerOff => exact hop.1
  | currentSessionState => exact hop.1
  | _ => simp [Op.isGuarded, Op.isHandler, Op.changesContents] at hguarded

/-- A handler call of a connection is one for the message that is served. -/
theorem commanded_of_command {h : List TaskEvent} {o : Op}
    (hop : ConnectionOp extractSpkiHash h o) (hcommand : o.isCommand = true) :
    Admitted extractSpkiHash h ∧ Commanded h o := by
  cases o with
  | sleep => exact hop
  | lock => exact hop
  | powerOff => exact hop
  | _ => simp [Op.isCommand] at hcommand

/-- A subcommand calls no handler. -/
theorem not_command {command : Command} {h : List TaskEvent} {o : Op}
    (hop : CommandOp command h o) : o.isCommand = false := by
  cases o <;> first | rfl | exact hop.elim

/-- A thread keeps to its operations from its start. -/
theorem threadKeeps_start (kind : Kind) :
    ThreadKeeps extractSpkiHash (kind.thread extractSpkiHash) := by
  cases kind with
  | command command => exact command_safe extractSpkiHash command
  | connection certs peerAddr rounds reads =>
      refine ⟨?_, by simp [Kind.thread], by simp [Kind.thread]⟩
      exact (Prog.safe_bind _ _ _ _).mpr
        ((acceptConnection_safe rounds reads peerAddr).mono fun _ _ _ => trivial)

/-- A thread that keeps to its operations goes on so. -/
theorem threadKeeps_perform {t t' : DaemonThread} {answer : (o : Op) → Option (Ans o × World)}
    {w w' : World} {e : TaskEvent} (ht : ThreadKeeps extractSpkiHash t)
    (hperform : t.perform answer = some (e, t', w'))
    (heffect : Effect extractSpkiHash t.kind w e w') : ThreadKeeps extractSpkiHash t' := by
  obtain ⟨k, hrest, -, hafter⟩ := Thread.perform_eq_some hperform
  have hkind : t'.kind = t.kind := by rw [hafter]
  have hdone : t'.done = t.done ++ [e] := by rw [hafter]
  unfold ThreadKeeps at ht ⊢
  rw [hkind]
  split
  · next certs peerAddr rounds reads hconnection =>
      rw [hconnection] at ht heffect
      refine ⟨ht.keeps.perform hperform, fun e' he' => ?_, fun e' he' hguarded => ?_⟩
      · rw [hdone] at he'
        rcases List.mem_append.mp he' with hold | hnew
        · exact ht.fromPeer e' hold
        · obtain rfl := List.mem_singleton.mp hnew
          cases heffect with
          | other hother hpeer => exact hpeer certs rfl
          | _ => trivial
      · rw [hdone] at he' ⊢
        rcases List.mem_append.mp he' with hold | hnew
        · exact (ht.guarded e' hold hguarded).append _
        · obtain rfl := List.mem_singleton.mp hnew
          have hop := ht.keeps.next (Thread.next_of_perform hperform)
          exact (admitted_of_guarded hop hguarded).append _
  · next command hcommand =>
      rw [hcommand] at ht
      exact ht.perform hperform

/-- A connection that is ended does nothing more. -/
theorem threadKeeps_end {t : DaemonThread} (ht : ThreadKeeps extractSpkiHash t) :
    ThreadKeeps extractSpkiHash (endConnection t) := by
  unfold endConnection
  split
  · next hconnection =>
      unfold ThreadKeeps at ht ⊢
      cases hkind : t.kind with
      | command command => simp [hkind, Kind.isConnection] at hconnection
      | connection certs peerAddr rounds reads =>
          simp only [hkind] at ht ⊢
          exact ⟨trivial, ht.fromPeer, ht.guarded⟩
  · exact ht

/-- Every thread of a run keeps to its operations. -/
theorem threadKeeps_of_steps {file : Option KeystoreContents} {h : Host} {actions : List Action}
    (hsteps : takeSteps (Host.step extractSpkiHash) (Host.initial file) actions = some h) :
    ∀ t ∈ h.threads, ThreadKeeps extractSpkiHash t :=
  Host.threads_of_steps threadKeeps_start
    (fun _ _ _ _ _ _ ht hperform heffect => threadKeeps_perform ht hperform heffect)
    (fun _ ht => threadKeeps_end ht) hsteps

/-! ## Admission -/

/-- Both checks passed for the key of the leaf that the peer presents, which was live
in the contents of either check. -/
def AdmittedPeer (extractSpkiHash : Bytes → Except Crypto.Error SpkiHash) (certs : List Bytes)
    (h : List TaskEvent) : Prop :=
  ∃ peerSpki pinned checked, AdmittedBy extractSpkiHash peerSpki pinned checked h ∧
    leafSpki extractSpkiHash (some certs) = .ok peerSpki ∧ pinned.HasActive peerSpki

/-- A peer that passed both checks was live in the contents of the first one as well. -/
theorem admittedPeer_of_admitted {certs : List Bytes} {h : List TaskEvent}
    (hpeer : ∀ e ∈ h, FromPeer extractSpkiHash certs e) (hadmitted : Admitted extractSpkiHash h) :
    AdmittedPeer extractSpkiHash certs h := by
  obtain ⟨peerSpki, pinned, checked, presented, rest, rfl, hleaf, hactive⟩ := hadmitted
  have hcerts : presented = some certs := hpeer ⟨.peerCertificates, presented⟩ (by simp)
  subst hcerts
  refine ⟨peerSpki, pinned, checked, ⟨_, rest, rfl, hleaf, hactive⟩, hleaf, ?_⟩
  obtain ⟨leaf, chain, rfl, hverified⟩ :=
    hpeer ⟨.handshake (.pinned (activePins pinned)), Except.ok ()⟩ (by simp) rfl
  obtain ⟨pin, hpin, hextract⟩ :=
    (Crypto.verifyClientCert_pinned_iff extractSpkiHash _ leaf).mp hverified
  have hspki : peerSpki = pin := by
    simpa [leafSpki, hextract] using hleaf.symm
  exact hspki ▸ (mem_activePins pinned pin).mp hpin

/-- The peer of the connection had no live pairing when its pins were collected. -/
def UnpairedAtAccept (extractSpkiHash : Bytes → Except Crypto.Error SpkiHash)
    (t : DaemonThread) : Prop :=
  ∃ certs pinned rest, t.kind.certs = some certs ∧ t.done = ⟨.snapshot, pinned⟩ :: rest ∧
    ∀ spki, leafSpki extractSpkiHash (some certs) = .ok spki → ¬ pinned.HasActive spki

/-- Such a peer does not pass both checks. -/
theorem not_admittedPeer_of_unpaired {t : DaemonThread} {certs : List Bytes}
    (hcerts : t.kind.certs = some certs) (hunpaired : UnpairedAtAccept extractSpkiHash t) :
    ¬ AdmittedPeer extractSpkiHash certs t.done := by
  rintro ⟨peerSpki, pinned, checked, ⟨presented, rest, hdone, -⟩, hleaf, hactive⟩
  obtain ⟨certs', pinned', rest', hcerts', hdone', hnone⟩ := hunpaired
  obtain rfl := Option.some.inj (hcerts.symm.trans hcerts')
  rw [hdone] at hdone'
  obtain ⟨hfirst, -⟩ := List.cons.inj hdone'
  cases hfirst
  exact hnone peerSpki hleaf hactive

/-! ## All runs -/

/-- In every run, the PC is commanded only by a connection whose peer was paired at both
checks, for the message of that name, in the open re-auth window; a peer that was not
paired when it was accepted calls no handler and makes nothing change; and only
connections change the shared contents. -/
theorem handler_calls_authorized {file : Option KeystoreContents} {h h' : Host}
    {actions : List Action}
    (hsteps : takeSteps (Host.step extractSpkiHash) (Host.initial file) actions = some h)
    {i : ℕ} {outside : (o : Op) → Ans o} {e : TaskEvent}
    (hperform : h.perform extractSpkiHash i outside = some (e, h')) :
    ∃ t, h.threads[i]? = some t ∧
      (e.op.isCommand = true → ∃ certs, t.kind.certs = some certs ∧
        AdmittedPeer extractSpkiHash certs t.done ∧ Commanded t.done e.op) ∧
      (UnpairedAtAccept extractSpkiHash t → e.op.isGuarded = false) ∧
      (∀ u, e.op = .write u → t.kind.isConnection = true) := by
  obtain ⟨t, t', w, ht, hthread, -⟩ := Host.thread_of_perform hperform
  have hkeeps := threadKeeps_of_steps hsteps t (List.mem_of_getElem? ht)
  have hnext := Thread.next_of_perform hthread
  refine ⟨t, ht, ?_⟩
  unfold ThreadKeeps at hkeeps
  cases hkind : t.kind with
  | connection certs peerAddr rounds reads =>
      simp only [hkind] at hkeeps
      have hop := hkeeps.keeps.next hnext
      refine ⟨fun hcommand => ⟨certs, rfl, ?_⟩, ?_, fun _ _ => rfl⟩
      · obtain ⟨hadmitted, hcommanded⟩ := commanded_of_command hop hcommand
        exact ⟨admittedPeer_of_admitted hkeeps.fromPeer hadmitted, hcommanded⟩
      · intro hunpaired
        by_contra hguarded
        exact not_admittedPeer_of_unpaired (by rw [hkind]; rfl) hunpaired
          (admittedPeer_of_admitted hkeeps.fromPeer
            (admitted_of_guarded hop (by simpa using hguarded)))
  | command command =>
      simp only [hkind] at hkeeps
      have hop := hkeeps.next hnext
      refine ⟨fun hcommand => ?_, ?_, fun u hwrite => ?_⟩
      · simp [not_command hop] at hcommand
      · rintro ⟨certs, pinned, rest, hcerts, -⟩
        simp [hkind, Kind.certs] at hcerts
      · rw [hwrite] at hop
        exact hop.elim

end Authorization

/-! ## A phone that locks the PC -/

/-- Every certificate has the key of the phone. -/
def phoneSpki (_cert : Bytes) : Except Crypto.Error SpkiHash :=
  .ok phoneKey

/-- Answers to a phone that asks to lock the PC. -/
def lockOutside (o : Op) : Ans o :=
  match o with
  | .recv => Except.ok (wireBytes lockRequest)
  | o => succeeding pairedContents o

/-- The server accepts the phone and serves it up to the handler call. -/
def lockActions : List Action :=
  .start :: .accept [[]] phoneAddress 2 2 :: List.replicate 10 (.perform 0 lockOutside)

/-- A paired phone locks the PC. -/
theorem paired_phone_locks :
    ∃ h h' e, takeSteps (Host.step phoneSpki) (Host.initial (some pairedContents)) lockActions =
        some h ∧ h.perform phoneSpki 0 lockOutside = some (e, h') ∧ e.op = .lock ∧
      ∃ t, h.threads[0]? = some t ∧
        (e.op.isCommand = true → ∃ certs, t.kind.certs = some certs ∧
          AdmittedPeer phoneSpki certs t.done ∧ Commanded t.done e.op) ∧
        (UnpairedAtAccept phoneSpki t → e.op.isGuarded = false) ∧
        (∀ u, e.op = .write u → t.kind.isConnection = true) := by
  have hsteps : (takeSteps (Host.step phoneSpki) (Host.initial (some pairedContents))
      lockActions).isSome := rfl
  obtain ⟨h, hh⟩ := Option.isSome_iff_exists.mp hsteps
  have hperform : ((takeSteps (Host.step phoneSpki) (Host.initial (some pairedContents))
      lockActions).bind fun h => (h.perform phoneSpki 0 lockOutside).map fun r => r.1.op) =
        some .lock := rfl
  rw [hh] at hperform
  obtain ⟨⟨e, h'⟩, he, hop⟩ := Option.map_eq_some_iff.mp hperform
  exact ⟨h, h', e, hh, he, hop, handler_calls_authorized hh he⟩

end Daemon
end WakeMyPc
