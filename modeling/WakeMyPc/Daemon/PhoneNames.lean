import WakeMyPc.Daemon.KeystoreInvariant
import WakeMyPc.Daemon.RevokeByName
import Mathlib.Data.List.Infix

/-!
# The names of phones

A phone chooses its name, and the keystore keeps it.  Nothing on the way from the message to
the file looks at its length, so the names in the file are as long as those of the phones
that were paired.

Main results:

- Theorem `Edit.namesFit_apply`: only a new pairing brings a name.
- Theorem `name_of_save`: what a pairing window saves has the name of its message.
- Theorem `stored_names_fit_iff`: when all keystores that are written have short names.
-/

namespace WakeMyPc
namespace Daemon

open Foundations
open Protocol (SpkiHash)
open PairingFlow (PairOp seen messageOf)

/-! ## Names -/

/-- All names have at most 64 bytes. -/
def NamesFit (c : KeystoreContents) : Prop :=
  ∀ p ∈ c.pairings, p.phoneName.len ≤ 64

theorem namesFit_fromIdentity (identity : DeviceIdentityBytes) :
    NamesFit (.fromIdentity identity) :=
  fun p hp => by cases hp

/-- Names come back as they are. -/
theorem namesFit_reloaded {c : KeystoreContents} : NamesFit c.reloaded ↔ NamesFit c :=
  List.forall_mem_map

theorem namesFit_update {c : KeystoreContents} (hc : NamesFit c) (u : Update) :
    NamesFit (u.apply c) := by
  cases u with
  | lastKnownAddress peerSpki peerAddr =>
      intro q hq
      obtain ⟨p, hp, rfl | rfl⟩ := setLastKnownAddress_mem hq
      · exact hc q hp
      · exact hc p hp
  | reauthInterval newDays => exact hc
  | removeRevoked peerSpki => exact fun p hp => hc p (List.mem_filter.mp hp).1

/-- Only a new pairing brings a name. -/
theorem Edit.namesFit_apply {c : KeystoreContents} (hc : NamesFit c) {e : Edit}
    (hpair : ∀ new, e = .change (.pair new) → new.phoneName.len ≤ 64) : NamesFit (e.apply c) := by
  cases e with
  | update u => exact namesFit_update hc u
  | change made =>
      cases made with
      | revoke phoneName =>
          intro q hq
          obtain ⟨p, hp, rfl⟩ := List.mem_map.mp hq
          split
          · exact hc p hp
          · exact hc p hp
      | reauthNow nowMs => exact hc
      | revokeAll =>
          intro q hq
          obtain ⟨p, hp, rfl⟩ := List.mem_map.mp hq
          exact hc p hp
      | pair new =>
          intro q hq
          rcases List.mem_append.mp hq with hold | hnew
          · exact hc q (List.mem_filter.mp hold).1
          · rw [List.mem_singleton.mp hnew]
            exact hpair new rfl

theorem namesFit_applyEdits {c : KeystoreContents} (hc : NamesFit c) {edits : List Edit}
    (hpair : ∀ new, Edit.change (.pair new) ∈ edits → new.phoneName.len ≤ 64) :
    NamesFit (applyEdits c edits) := by
  induction edits generalizing c with
  | nil => exact hc
  | cons e edits ih =>
      refine ih (Edit.namesFit_apply hc fun new he => hpair new ?_) fun new he =>
        hpair new (List.mem_cons_of_mem e he)
      exact he ▸ List.mem_cons_self

/-! ## What a pairing window saves -/

section Runs

-- the hash of the public key of a certificate, by the X.509 parser and SHA-256
variable (extractSpkiHash : Bytes → Except Crypto.Error SpkiHash)

/-- A pairing window keeps to its operations. -/
def PairThread (t : DaemonThread) : Prop :=
  ∀ draws rounds reads, t.kind = .command (.pair draws rounds reads) →
    t.Keeps (PairOp extractSpkiHash)

variable {extractSpkiHash}

theorem pairThread_start (kind : Kind) :
    PairThread extractSpkiHash (kind.thread extractSpkiHash) := by
  rintro draws rounds reads hkind
  obtain rfl : kind = .command (.pair draws rounds reads) := hkind
  exact (Prog.safe_bind _ _ _ _).mpr
    ((PairingFlow.run_pairs draws rounds reads).mono fun _ _ _ => trivial)

theorem pairThread_perform {t t' : DaemonThread} {answer : (o : Op) → Option (Ans o × World)}
    {w : World} {e : TaskEvent} (ht : PairThread extractSpkiHash t)
    (hperform : t.perform answer = some (e, t', w)) : PairThread extractSpkiHash t' := by
  intro draws rounds reads hkind
  obtain ⟨k, -, -, hafter⟩ := Thread.perform_eq_some hperform
  rw [hafter] at hkind
  exact (ht draws rounds reads hkind).perform hperform

theorem pairThread_end {t : DaemonThread} (ht : PairThread extractSpkiHash t) :
    PairThread extractSpkiHash (endConnection t) := by
  unfold endConnection
  split
  · next hconnection =>
      intro draws rounds reads hkind
      rw [show t.kind = .command (.pair draws rounds reads) from hkind] at hconnection
      cases hconnection
  · exact ht

/-- What a pairing window saves has the name of the message of its connection, and names of
its copy. -/
theorem name_of_save {t : DaemonThread} (ht : t.Keeps (PairOp extractSpkiHash))
    {contents : KeystoreContents} (hnext : t.next = some (.saveFile contents)) :
    ∃ copy new pairingCode, copyOf t.done = some copy ∧
      contents = (Change.pair new).apply copy ∧
      messageOf (seen extractSpkiHash t.done).connection =
        some (.pair new.phoneName pairingCode) := by
  obtain ⟨front, now, offer, copy, w, since, hdone, -, hoffer, -, -, -, -, hcopy, hcontents⟩ :=
    ht.next hnext
  refine ⟨copy, offer.record now, offer.pairingCode, ?_, hcontents, ?_⟩
  · rw [hdone, copyOf_concat front rfl]
    exact hcopy
  · have hmessage : messageOf (seen extractSpkiHash front).connection =
        some (.pair (offer.record now).phoneName offer.pairingCode) :=
      (PairingFlow.peer_of_offer hoffer).2
    rw [hdone, PairingFlow.connection_concat front rfl]
    simpa [messageOf, received, receivedBytes] using hmessage

/-! ## Runs -/

variable (extractSpkiHash)

/-- When a pairing window stores a pairing, the `Pair` message that it accepted has a name of at
most 64 bytes. -/
def OfferFits (h : Host) : Action → Prop
  | .perform i outside =>
      ∀ t draws rounds reads contents phoneName pairingCode, h.threads[i]? = some t →
        t.kind = .command (.pair draws rounds reads) → t.next = some (.saveFile contents) →
        (outside (.saveFile contents) : Except KeystoreError Unit) = .ok () →
        messageOf (seen extractSpkiHash t.done).connection = some (.pair phoneName pairingCode) →
        phoneName.len ≤ 64
  | _ => True

/-- The file has short names, so have all copies of it, and every pairing window keeps to its
operations. -/
def NamesKept (h : Host) : Prop :=
  AllHold extractSpkiHash NamesFit h ∧ ∀ t ∈ h.threads, PairThread extractSpkiHash t

variable {extractSpkiHash}

/-- A save in which the system call succeeds has succeeded. -/
theorem outside_of_answer {kind : Kind} {outside : (o : Op) → Ans o} {w w' : World}
    {contents : KeystoreContents} {result : Except KeystoreError Unit}
    (h : kind.answer extractSpkiHash outside w (.saveFile contents) = some (result, w')) :
    (outside (.saveFile contents) : Except KeystoreError Unit) = result := by
  simp only [Kind.answer] at h
  split at h
  · next e hout =>
      obtain ⟨rfl, -⟩ := Prod.mk.inj (Option.some.inj h)
      exact hout
  · next hout =>
      obtain ⟨rfl, -⟩ := Prod.mk.inj (Option.some.inj h)
      exact hout

/-- A step that stores only short names keeps the names short. -/
theorem namesKept_step {h h' : Host} {a : Action} (hkept : NamesKept extractSpkiHash h)
    (hfits : OfferFits extractSpkiHash h a) (hstep : h.step extractSpkiHash a = some h') :
    NamesKept extractSpkiHash h' := by
  obtain ⟨hall, hpairs⟩ := hkept
  refine ⟨hall.step (fun _ _ u _ _ hc => namesFit_update hc u) ?_ hstep,
    Host.threads_of_step pairThread_start
      (fun _ _ _ _ _ _ ht hperform _ => pairThread_perform ht hperform)
      (fun _ ht => pairThread_end ht) hpairs hstep⟩
  rintro i outside t t' w contents rfl ht hthread
  obtain ⟨hkeeps, hshows⟩ := hall.threads t (List.mem_of_getElem? ht)
  have hnext := Thread.next_of_perform hthread
  obtain ⟨k, -, hanswer, -⟩ := Thread.perform_eq_some hthread
  have hcopyFits : ∀ {copy}, copyOf t.done = some copy → NamesFit copy :=
    fun hcopy => copyOf_shown namesFit_fromIdentity hshows hcopy
  rw [namesFit_reloaded]
  rcases saved_cases hkeeps hnext with hshown | ⟨command, copy, hkind, hcopy, hedits⟩
  · exact hshows _ hshown
  · cases command with
    | pair draws rounds reads =>
        obtain ⟨copy, new, pairingCode, hcopy, rfl, hmessage⟩ :=
          name_of_save (hpairs t (List.mem_of_getElem? ht) draws rounds reads hkind) hnext
        refine Edit.namesFit_apply (e := .change (.pair new)) (hcopyFits hcopy) ?_
        intro _ heq
        cases heq
        exact hfits t draws rounds reads _ _ pairingCode ht hkind hnext (outside_of_answer hanswer)
          hmessage
    | _ =>
        rw [← hedits]
        exact namesFit_applyEdits (hcopyFits hcopy) (by simp [Command.edits])

/-- A save that can be done is done. -/
theorem file_after_save {h : Host} {i : ℕ} {outside : (o : Op) → Ans o} {t : DaemonThread}
    {contents : KeystoreContents} (ht : h.threads[i]? = some t)
    (hnext : t.next = some (.saveFile contents))
    (hsaved : (outside (.saveFile contents) : Except KeystoreError Unit) = .ok ()) :
    ∃ h', h.step extractSpkiHash (.perform i outside) = some h' ∧
      h'.world.file = some contents.reloaded := by
  have hanswer : t.kind.answer extractSpkiHash outside h.world (.saveFile contents) =
      some (Except.ok (), { h.world with file := some contents.reloaded }) := by
    simp only [Kind.answer, hsaved]
    rfl
  unfold Thread.next at hnext
  split at hnext
  · next o k hrest =>
      obtain rfl := Option.some.inj hnext
      have hperform : t.perform (t.kind.answer extractSpkiHash outside h.world) =
          some (⟨.saveFile contents, Except.ok ()⟩,
            { t with
              done := t.done ++ [⟨.saveFile contents, Except.ok ()⟩], rest := k (Except.ok ()) },
            { h.world with file := some contents.reloaded }) := by
        simp only [Thread.perform, hrest, hanswer]
        rfl
      exact ⟨_, by rw [Host.step, Host.perform_of_thread ht hperform]; rfl, rfl⟩
  · cases hnext

/-- A step after which the file has short names stores only short names. -/
theorem offerFits_of_file {h : Host} {a : Action} (hkept : NamesKept extractSpkiHash h)
    (hfile : ∀ h', h.step extractSpkiHash a = some h' →
      ∀ c, h'.world.file = some c → NamesFit c) : OfferFits extractSpkiHash h a := by
  cases a with
  | perform i outside =>
      intro t draws rounds reads contents phoneName pairingCode ht hkind hnext hsaved hmessage
      obtain ⟨h', hstep, hstored⟩ := file_after_save ht hnext hsaved
      obtain ⟨copy, new, code, -, rfl, hmessage'⟩ :=
        name_of_save (hkept.2 t (List.mem_of_getElem? ht) draws rounds reads hkind) hnext
      rw [hmessage] at hmessage'
      obtain ⟨rfl, -⟩ := Protocol.ClientFrame.pair.inj (Option.some.inj hmessage')
      have hnames := namesFit_reloaded.mp (hfile h' hstep _ hstored)
      exact hnames new (List.mem_append_right _ (List.mem_singleton.mpr rfl))
  | _ => trivial

/-- In every run of the processes, with any number of pairing windows and any messages, on a
file with short names: every keystore that is ever in the file has names of at most 64 bytes
exactly when the `Pair` messages that are accepted and stored have such names. -/
theorem stored_names_fit_iff {file : Option KeystoreContents}
    (hfile : ∀ c, file = some c → NamesFit c) (actions : List Action) :
    (∀ front back h, actions = front ++ back →
      takeSteps (Host.step extractSpkiHash) (Host.initial file) front = some h →
        ∀ c, h.world.file = some c → NamesFit c) ↔
      Along (Host.step extractSpkiHash) (OfferFits extractSpkiHash) (Host.initial file)
        actions := by
  have hinitial : NamesKept extractSpkiHash (Host.initial file) :=
    ⟨allHold_initial fun c hc => namesFit_reloaded.mpr (hfile c hc), nofun⟩
  exact along_iff_prefixes (NamesKept extractSpkiHash)
    (fun h => ∀ c, h.world.file = some c → NamesFit c) (fun _ hkept => hkept.1.file)
    (fun _ _ _ => namesKept_step) (fun _ _ => offerFits_of_file) hinitial

end Runs

/-! ## A short name and a long one -/

instance (c : KeystoreContents) : Decidable (NamesFit c) :=
  inferInstanceAs (Decidable (∀ p ∈ c.pairings, p.phoneName.len ≤ 64))

/-- The first phone has a short name. -/
theorem first_phone_fits :
    Along (Host.step twoPhones) (OfferFits twoPhones) (Host.initial none) pairFirst := by
  refine (stored_names_fit_iff (fun c hc => by cases hc) pairFirst).mp ?_
  intro front back h hsplit hrun c hc
  have hall : pairFirst.inits.all (fun front =>
      ((takeSteps (Host.step twoPhones) (Host.initial none) front).bind (·.world.file)).all
        fun c => decide (NamesFit c)) = true := by rfl
  have hfront := List.all_eq_true.mp hall front ((List.mem_inits _ _).mpr ⟨back, hsplit.symm⟩)
  simpa [hrun, hc] using hfront

/-- A name of 65 bytes. -/
def longName : RustString :=
  ⟨String.ofList (List.replicate 65 'a'), by decide⟩

/-- What a pairing window meets when a phone of that name offers its code. -/
def offeringLong (o : Op) : Ans o :=
  match o with
  | .recv =>
      let payload := Protocol.ClientFrame.format.encode (.pair longName 0)
      Except.ok ((Protocol.encodeEnvelope ⟨Protocol.protocolVersion, 1, payload⟩).toOption.getD [])
  | o => succeeding pairedContents o

/-- A phone with a name of 65 bytes is paired with a PC that has no keystore. -/
def pairLong : List Action :=
  .launch (.pair 1 2 2) :: List.replicate 16 (.perform 0 offeringLong)

/-- Its name is stored. -/
theorem long_name_stored :
    ∃ h c, takeSteps (Host.step twoPhones) (Host.initial none) pairLong = some h ∧
      h.world.file = some c ∧ ¬ NamesFit c := by
  have hrun : (takeSteps (Host.step twoPhones) (Host.initial none) pairLong).map (fun h =>
      h.world.file.map fun c => decide (NamesFit c)) = some (some false) := by rfl
  obtain ⟨h, hsteps, hfile⟩ := Option.map_eq_some_iff.mp hrun
  obtain ⟨c, hc, hnames⟩ := Option.map_eq_some_iff.mp hfile
  exact ⟨h, c, hsteps, hc, of_decide_eq_false hnames⟩

end Daemon
end WakeMyPc
