import WakeMyPc.Daemon.ActivePhones
import WakeMyPc.Daemon.Authorization
import WakeMyPc.Foundations.Lockstep

/-!
# What a phone can tell about the others

A connection works on the shared contents of all phones.  What it sends to its phone and what it
asks of the PC depends only on the records of its own key and on the re-auth settings: whatever
the other phones are and do, it does the same.

Main results:

- Theorem `acceptConnection_lockstep`: connections of one key are in lockstep.
- Theorem `independent_of_others`: connections of one key in any two runs of the daemon perform
  the same for as long as they are told the same about their own phone.
-/

namespace WakeMyPc
namespace Daemon

open Foundations
open Foundations.Prog (Lockstep lockstep_bind lockstep_loop lockstep_self safe_loop)
open Protocol
open Crypto (NonceCounter)

/-! ## What is about one phone -/

/-- What the contents say about one key: its records, and the re-auth settings. -/
structure OwnView where
  records : List PairingRecord
  reauthIntervalDays : UInt8
  lastAuthenticatedAtUnixMs : UInt64

def KeystoreContents.ownView (c : KeystoreContents) (spki : SpkiHash) : OwnView where
  records := c.pairings.filter fun p => p.clientSpki == spki
  reauthIntervalDays := c.reauthIntervalDays
  lastAuthenticatedAtUnixMs := c.lastAuthenticatedAtUnixMs

/-- What an answer tells about one key. -/
inductive Learned where
  | tls (result : Except IoError Unit)
  | contents (view : OwnView)
  /-- Whether a save or a handler succeeded. -/
  | finished (ok : Bool)
  | session (state : Option PcState)
  /-- Exactly this answer. -/
  | exactly (o : Op) (r : Ans o)

/-- What an operation shows of what it depends on. -/
inductive Shown where
  /-- A handshake that the key passes or does not. -/
  | handshake (pinned : Bool)
  | saved (view : OwnView)
  /-- Exactly this operation. -/
  | op (o : Op)

section Views

variable (spki : SpkiHash)

/-- What an event tells about a key. -/
def told : TaskEvent → Learned
  | ⟨.handshake _, result⟩ => .tls result
  | ⟨.snapshot, c⟩ => .contents ((c : KeystoreContents).ownView spki)
  | ⟨.saveFile _, result⟩ => .finished (result : Except KeystoreError Unit).isOk
  | ⟨.sleep, result⟩ => .finished (result : Except OsHandlerError Unit).isOk
  | ⟨.lock, result⟩ => .finished (result : Except OsHandlerError Unit).isOk
  | ⟨.powerOff, result⟩ => .finished (result : Except OsHandlerError Unit).isOk
  | ⟨.currentSessionState, result⟩ =>
      .session (result : Except OsHandlerError PcState).toOption
  | ⟨o, r⟩ => .exactly o r

/-- What an operation shows about a key. -/
def shown : Op → Shown
  | .handshake (.pinned pinset) => .handshake (pinset.contains spki)
  | .saveFile c => .saved (c.ownView spki)
  | o => .op o

end Views

theorem hasActive_of_ownView {c c' : KeystoreContents} {spki : SpkiHash}
    (hview : c.ownView spki = c'.ownView spki) (hactive : c.HasActive spki) :
    c'.HasActive spki := by
  obtain ⟨p, hp, hrevoked, hspki⟩ := hactive
  have hrecords : p ∈ c'.pairings.filter fun p => p.clientSpki == spki := by
    have hin : p ∈ (c.ownView spki).records :=
      List.mem_filter.mpr ⟨hp, beq_iff_eq.mpr hspki⟩
    rwa [hview] at hin
  exact ⟨p, (List.mem_filter.mp hrecords).1, hrevoked, hspki⟩

theorem hasActive_iff_of_ownView {c c' : KeystoreContents} {spki : SpkiHash}
    (hview : c.ownView spki = c'.ownView spki) : c.HasActive spki ↔ c'.HasActive spki :=
  ⟨hasActive_of_ownView hview, hasActive_of_ownView hview.symm⟩

/-! ## Connections in lockstep -/

section Connections

variable (extractSpkiHash : Bytes → Except Crypto.Error SpkiHash) (certs : List Bytes)
  (spki : SpkiHash)

/-- The operations show the same about the key. -/
def ShownAlike (o o' : Op) : Prop :=
  shown spki o = shown spki o'

/-- The events of a peer with these certificates tell the same about the key. -/
def ToldAlike (e e' : TaskEvent) : Prop :=
  FromPeer extractSpkiHash certs e ∧ told spki e = told spki e'

/-- The operation shows all that it is about. -/
def Op.isPlain : Op → Bool
  | .peerCertificates => true
  | .recv => true
  | .send _ => true
  | .shutdown => true
  | .clock => true
  | .write _ => true
  | _ => false

variable {extractSpkiHash certs spki}

theorem told_plain {o : Op} (ho : o.isPlain = true) (r : Ans o) :
    told spki ⟨o, r⟩ = .exactly o r := by
  cases o <;> first | rfl | cases ho

/-- A program of plain operations is in lockstep with itself. -/
theorem lockstep_plain {α : Type} {p : Task α} {h : List TaskEvent}
    {Q : List TaskEvent → α → Prop} (hp : p.Safe (fun _ o => o.isPlain = true) h Q) :
    Lockstep (ShownAlike spki) (ToldAlike extractSpkiHash certs spki) Eq p p := by
  refine lockstep_self hp fun _ o ho => ⟨rfl, fun r r' hr => ?_⟩
  have htold := hr.2
  rw [told_plain ho, told_plain ho] at htold
  exact eq_of_heq (Learned.exactly.inj htold).2

theorem readEnvelope_plain (reads : ℕ) (buf : Bytes) :
    (readEnvelope reads buf).Safe (fun _ o => o.isPlain = true) [] fun _ _ => True := by
  have hround : ∀ h buf, (readEnvelopeRound buf).Safe (fun _ o => o.isPlain = true) h
      fun _ _ => True := by
    intro h buf
    unfold readEnvelopeRound
    split
    · trivial
    · trivial
    · refine ⟨rfl, fun (received : Except IoError Bytes) => ?_⟩
      cases received with
      | error e => trivial
      | ok chunk =>
          change (if _ then _ else _ : Task _).Safe _ _ _
          split_ifs <;> trivial
  refine safe_loop (fun _ _ => True) (fun h buf _ => ?_) reads trivial
  refine (hround h buf).mono fun h' result _ => ?_
  cases result <;> trivial

theorem writeFrame_plain (nonces : NonceCounter) (frame : DaemonFrame) :
    (writeFrame nonces frame).Safe (fun _ o => o.isPlain = true) [] fun _ _ => True := by
  unfold writeFrame
  split
  · trivial
  · split
    · trivial
    · split
      · trivial
      · refine ⟨rfl, fun (sent : Except IoError Unit) => ?_⟩
        cases sent with
        | error e => trivial
        | ok _ => trivial

theorem sendErrorAndClose_plain (requestNonce : UInt64) (code : ProtocolError) :
    (sendErrorAndClose requestNonce code).Safe (fun _ o => o.isPlain = true) []
      fun _ _ => True := by
  unfold sendErrorAndClose
  split
  · trivial
  · split
    · trivial
    · exact ⟨rfl, fun _ => ⟨rfl, fun _ => trivial⟩⟩

/-- The answer to a handler call says only whether it succeeded. -/
theorem handlerToResponse_eq {result result' : Except OsHandlerError Unit}
    (hok : result.isOk = result'.isOk) (requestNonce : UInt64) :
    handlerToResponse result requestNonce = handlerToResponse result' requestNonce := by
  cases result <;> cases result' <;> first | rfl | cases hok

/-- Saves of contents that say the same about the key. -/
theorem save_lockstep :
    Lockstep (ShownAlike spki) (ToldAlike extractSpkiHash certs spki)
      (fun result result' => result.isOk = result'.isOk) save save := by
  refine ⟨rfl, fun (c c' : KeystoreContents) hc => ⟨congrArg Shown.saved ?_, fun r r' hr => ?_⟩⟩
  · exact Learned.contents.inj hc.2
  · exact Learned.finished.inj hr.2

theorem stateChange_lockstep (reauthState : ReauthState) (requestNonce : UInt64)
    (handler : Task (Except OsHandlerError Unit))
    (hhandler : Lockstep (ShownAlike spki) (ToldAlike extractSpkiHash certs spki)
      (fun result result' => result.isOk = result'.isOk) handler handler) :
    Lockstep (ShownAlike spki) (ToldAlike extractSpkiHash certs spki) Eq
      (stateChange reauthState requestNonce handler)
      (stateChange reauthState requestNonce handler) := by
  unfold stateChange
  split
  · rfl
  · exact lockstep_bind hhandler fun result result' hok => handlerToResponse_eq hok requestNonce

/-- The answers to a message are in lockstep. -/
theorem dispatch_lockstep (frame : ClientFrame) (requestNonce : UInt64) :
    Lockstep (ShownAlike spki) (ToldAlike extractSpkiHash certs spki) Eq
      (dispatch spki frame requestNonce) (dispatch spki frame requestNonce) := by
  refine ⟨rfl, fun (now now' : UInt64) hnow => ⟨rfl, fun (c c' : KeystoreContents) hc => ?_⟩⟩
  obtain rfl : now = now' := eq_of_heq (Learned.exactly.inj hnow.2).2
  have hview := Learned.contents.inj hc.2
  have hlast : c.lastAuthenticatedAtUnixMs = c'.lastAuthenticatedAtUnixMs :=
    congrArg OwnView.lastAuthenticatedAtUnixMs hview
  have hdays : c.reauthIntervalDays = c'.reauthIntervalDays :=
    congrArg OwnView.reauthIntervalDays hview
  have hchange : ∀ handler : Task (Except OsHandlerError Unit),
      Lockstep (ShownAlike spki) (ToldAlike extractSpkiHash certs spki)
        (fun result result' => result.isOk = result'.isOk) handler handler →
      Lockstep (ShownAlike spki) (ToldAlike extractSpkiHash certs spki) Eq
        (stateChange (evaluate now c.lastAuthenticatedAtUnixMs c.reauthIntervalDays) requestNonce
          handler)
        (stateChange (evaluate now c'.lastAuthenticatedAtUnixMs c'.reauthIntervalDays) requestNonce
          handler) := by
    intro handler hhandler
    rw [hlast, hdays]
    exact stateChange_lockstep _ requestNonce handler hhandler
  cases frame with
  | pair code phoneName => rfl
  | sleep => exact hchange _ ⟨rfl, fun r r' hr => Learned.finished.inj hr.2⟩
  | lock => exact hchange _ ⟨rfl, fun r r' hr => Learned.finished.inj hr.2⟩
  | powerOff => exact hchange _ ⟨rfl, fun r r' hr => Learned.finished.inj hr.2⟩
  | stateProbe =>
      refine ⟨rfl, fun (r r' : Except OsHandlerError PcState) hr => ?_⟩
      have hsession : r.toOption = r'.toOption := Learned.session.inj hr.2
      cases r <;> cases r' <;> first | rfl | cases hsession
      rfl
  | reauthStatus =>
      change DaemonFrame.reauthInfo _ _ (expiresAtUnixMs _ _) = .reauthInfo _ _ _
      rw [hlast, hdays]
  | reauthConfig interval =>
      refine ⟨rfl, fun _ _ _ => ?_⟩
      change Lockstep _ _ _ (save >>= _) (save >>= _)
      refine lockstep_bind save_lockstep fun result result' hok => ?_
      cases result <;> cases result' <;> first | rfl | cases hok
  | revokeAck =>
      refine ⟨rfl, fun (removed removed' : ℕ) hremoved => ?_⟩
      obtain rfl : removed = removed' := eq_of_heq (Learned.exactly.inj hremoved.2).2
      change Lockstep _ _ _ (if _ then _ else _ : Task _) (if _ then _ else _ : Task _)
      split_ifs
      · exact lockstep_bind save_lockstep fun _ _ _ => rfl
      · rfl

/-- The tasks that serve one envelope are in lockstep. -/
theorem serveEnvelope_lockstep (s : LoopState) (envelope : Envelope) :
    Lockstep (ShownAlike spki) (ToldAlike extractSpkiHash certs spki) Eq
      (serveEnvelope spki s envelope) (serveEnvelope spki s envelope) := by
  have hclose : ∀ code, Lockstep (ShownAlike spki) (ToldAlike extractSpkiHash certs spki) Eq
      (sendErrorAndClose envelope.nonce code >>= fun result => return Sum.inr result :
        Task (LoopState ⊕ Except RunError Unit))
      (sendErrorAndClose envelope.nonce code >>= fun result => return .inr result) := by
    intro code
    refine lockstep_bind (lockstep_plain (sendErrorAndClose_plain envelope.nonce code)) ?_
    rintro result _ rfl
    rfl
  unfold serveEnvelope
  split
  · exact hclose _
  · next recv _ =>
      split
      · exact hclose _
      · next frame _ =>
          refine lockstep_bind (dispatch_lockstep frame envelope.nonce) ?_
          rintro response _ rfl
          refine lockstep_bind (lockstep_plain (writeFrame_plain _ response)) ?_
          rintro ⟨written, nonces⟩ _ rfl
          cases written with
          | error e => rfl
          | ok written =>
              change Lockstep _ _ _ (if _ then _ else _ : Task _) (if _ then _ else _ : Task _)
              split_ifs
              · rfl
              · refine ⟨rfl, fun _ _ _ => rfl⟩
              · rfl

/-- The protocol loops are in lockstep. -/
theorem protocolLoop_lockstep (rounds reads : ℕ) :
    Lockstep (ShownAlike spki) (ToldAlike extractSpkiHash certs spki) Eq
      (protocolLoop rounds reads spki) (protocolLoop rounds reads spki) := by
  refine lockstep_loop Eq ?_ rounds rfl
  rintro s _ rfl
  have hround : Lockstep (ShownAlike spki) (ToldAlike extractSpkiHash certs spki) Eq
      (protocolRound reads spki s) (protocolRound reads spki s) := by
    refine lockstep_bind (lockstep_plain (readEnvelope_plain reads s.buf)) ?_
    rintro result _ rfl
    cases result with
    | error e => rfl
    | ok received =>
        obtain ⟨envelope, buf⟩ := received
        cases envelope with
        | none => rfl
        | some envelope => exact serveEnvelope_lockstep _ envelope
  exact hround.mono fun result result' heq => by
    subst heq
    cases result
    · exact .inl rfl
    · exact .inr rfl

/-- The tasks of two connections of one key are in lockstep. -/
theorem run_lockstep (hleaf : leafSpki extractSpkiHash (some certs) = .ok spki)
    (rounds reads : ℕ) (peerAddr : SocketAddr) :
    Lockstep (ShownAlike spki) (ToldAlike extractSpkiHash certs spki) Eq
      (run extractSpkiHash rounds reads peerAddr) (run extractSpkiHash rounds reads peerAddr) := by
  have hpeer : Lockstep (ShownAlike spki) (ToldAlike extractSpkiHash certs spki)
      (fun result result' => result = .ok spki ∧ result' = .ok spki)
      (peerSpkiFromTls extractSpkiHash) (peerSpkiFromTls extractSpkiHash) := by
    refine ⟨rfl, fun (presented presented' : Option (List Bytes)) hpresented => ?_⟩
    obtain rfl : presented = some certs := hpresented.1
    obtain rfl : some certs = presented' := eq_of_heq (Learned.exactly.inj hpresented.2).2
    exact ⟨hleaf, hleaf⟩
  refine lockstep_bind hpeer ?_
  rintro _ _ ⟨rfl, rfl⟩
  refine ⟨rfl, fun (c c' : KeystoreContents) hc => ?_⟩
  have hactive : (c.activePairing spki).isSome = (c'.activePairing spki).isSome := by
    rw [Bool.eq_iff_iff, c.activePairing_isSome_iff, c'.activePairing_isSome_iff]
    exact hasActive_iff_of_ownView (Learned.contents.inj hc.2)
  change Lockstep _ _ _ (if (c.activePairing spki).isSome then _ else _ : Task _)
    (if (c'.activePairing spki).isSome then _ else _ : Task _)
  rw [hactive]
  split_ifs
  · refine lockstep_bind (Q := Eq) ?_ fun _ _ _ => protocolLoop_lockstep rounds reads
    refine ⟨rfl, fun (changed changed' : Bool) hchanged => ?_⟩
    obtain rfl : changed = changed' := eq_of_heq (Learned.exactly.inj hchanged.2).2
    change Lockstep _ _ _ (if _ then _ else _ : Task _) (if _ then _ else _ : Task _)
    split_ifs
    · exact lockstep_bind save_lockstep fun _ _ _ => rfl
    · rfl
  · exact lockstep_plain (sendErrorAndClose_plain 0 .revoked)

/-- What the server does for two connections of one key is in lockstep. -/
theorem acceptConnection_lockstep (hleaf : leafSpki extractSpkiHash (some certs) = .ok spki)
    (rounds reads : ℕ) (peerAddr : SocketAddr) :
    Lockstep (ShownAlike spki) (ToldAlike extractSpkiHash certs spki) Eq
      (acceptConnection extractSpkiHash rounds reads peerAddr)
      (acceptConnection extractSpkiHash rounds reads peerAddr) := by
  refine ⟨rfl, fun (c c' : KeystoreContents) hc => ?_⟩
  have hview := Learned.contents.inj hc.2
  have hpins : (activePins c).contains spki = (activePins c').contains spki := by
    rw [Crypto.PinSet.contains, Crypto.PinSet.contains]
    exact decide_eq_decide.mpr ((mem_activePins c spki).trans
      ((hasActive_iff_of_ownView hview).trans (mem_activePins c' spki).symm))
  refine ⟨congrArg Shown.handshake hpins, fun (r r' : Except IoError Unit) hr => ?_⟩
  obtain rfl : r = r' := Learned.tls.inj hr.2
  cases r with
  | error e => rfl
  | ok _ => exact run_lockstep hleaf rounds reads peerAddr

/-! ## Connections in two runs -/

theorem forall₂_toldAlike {es es' : List TaskEvent}
    (hpeer : ∀ e ∈ es, FromPeer extractSpkiHash certs e)
    (htold : List.Forall₂ (fun e e' => told spki e = told spki e') es es') :
    List.Forall₂ (ToldAlike extractSpkiHash certs spki) es es' := by
  induction htold with
  | nil => exact .nil
  | cons he _ ih =>
      obtain ⟨hfirst, hrest⟩ := List.forall_mem_cons.mp hpeer
      exact .cons ⟨hfirst, he⟩ (ih hrest)

/-- Take two connections with the same certificates and the same peer address in any two runs of
the daemon, with any other phones, connections and subcommands.  For as long as they are told the
same about their own key, they show the same: they send the same bytes, call the same handlers,
change the contents in the same way, and save contents that say the same about the key. -/
theorem independent_of_others {file file' : Option KeystoreContents} {h h' : Host}
    {actions actions' : List Action}
    (hsteps : takeSteps (Host.step extractSpkiHash) (Host.initial file) actions = some h)
    (hsteps' : takeSteps (Host.step extractSpkiHash) (Host.initial file') actions' = some h')
    {t t' : DaemonThread} (ht : t ∈ h.threads) (ht' : t' ∈ h'.threads) {peerAddr : SocketAddr}
    {rounds reads : ℕ} (hkind : t.kind = .connection certs peerAddr rounds reads)
    (hkind' : t'.kind = .connection certs peerAddr rounds reads)
    (hleaf : leafSpki extractSpkiHash (some certs) = .ok spki)
    {front front' back back' : List TaskEvent} {e e' : TaskEvent}
    (hdone : t.done = front ++ e :: back) (hdone' : t'.done = front' ++ e' :: back')
    (htold : List.Forall₂ (fun x y => told spki x = told spki y) front front') :
    shown spki e.op = shown spki e'.op := by
  have hperforms := (follows_of_steps hsteps t ht).1
  have hperforms' := (follows_of_steps hsteps' t' ht').1
  rw [hkind, hdone] at hperforms
  rw [hkind', hdone'] at hperforms'
  have hkeeps := threadKeeps_of_steps hsteps t ht
  rw [ThreadKeeps, hkind] at hkeeps
  have hpeer : ∀ x ∈ front, FromPeer extractSpkiHash certs x := fun x hx =>
    hkeeps.fromPeer x (hdone ▸ List.mem_append_left _ hx)
  have hlockstep : Lockstep (ShownAlike spki) (ToldAlike extractSpkiHash certs spki) Eq
      (void (acceptConnection extractSpkiHash rounds reads peerAddr))
      (void (acceptConnection extractSpkiHash rounds reads peerAddr)) :=
    lockstep_bind (acceptConnection_lockstep hleaf rounds reads peerAddr) fun _ _ _ => rfl
  exact hlockstep.next (forall₂_toldAlike hpeer htold) (Prog.awaits_of_performs hperforms)
    (Prog.awaits_of_performs hperforms')

end Connections

/-! ## A phone with a neighbour -/

theorem length_neighbourKey : (List.replicate 32 (2 : UInt8)).length = 32 := rfl

/-- The key of another phone. -/
def neighbourKey : SpkiHash :=
  ⟨List.replicate 32 2, length_neighbourKey⟩

/-- The contents with a second phone, which is revoked. -/
def neighbourContents : KeystoreContents :=
  { pairedContents with
    keyPkcs8Der := [1]
    pairings := [{ livePairing with clientSpki := neighbourKey, revoked := true }, livePairing] }

/-- The connection in a run in which the phone locks the PC. -/
def lockedThread (file : KeystoreContents) : Option DaemonThread :=
  (takeSteps (Host.step phoneSpki) (Host.initial (some file))
    (lockActions ++ [.perform 0 lockOutside])).bind fun h => h.threads[0]?

/-- What the connection is told before it locks the PC. -/
def lockTold : List Learned :=
  [.contents ⟨[livePairing], 0, 0⟩, .tls (.ok ()), .exactly .peerCertificates (some [[]]),
    .contents ⟨[livePairing], 0, 0⟩,
    .exactly (.write (.lastKnownAddress phoneKey phoneAddress)) true,
    .contents ⟨[{ livePairing with lastKnownAddress := some phoneAddress }], 0, 0⟩, .finished true,
    .exactly .recv (Except.ok (wireBytes lockRequest)), .exactly .clock (0 : UInt64),
    .contents ⟨[{ livePairing with lastKnownAddress := some phoneAddress }], 0, 0⟩]

/-- The phone locks the PC, whether it has a neighbour or not. -/
theorem neighbour_makes_no_difference :
    ∃ t t' e e', lockedThread pairedContents = some t ∧ lockedThread neighbourContents = some t' ∧
      t.done.getLast? = some e ∧ t'.done.getLast? = some e' ∧ e.op = .lock ∧
      shown phoneKey e.op = shown phoneKey e'.op := by
  have hlast : (lockedThread pairedContents).map (fun t => (t.kind, t.done.getLast?.map (·.op))) =
      some (.connection [[]] phoneAddress 2 2, some .lock) := rfl
  have hlast' : (lockedThread neighbourContents).map
      (fun t => (t.kind, t.done.getLast?.map (·.op))) =
        some (.connection [[]] phoneAddress 2 2, some .lock) := rfl
  have hviews : (lockedThread pairedContents).map
      (fun t => t.done.dropLast.map (told phoneKey)) = some lockTold := rfl
  have hviews' : (lockedThread neighbourContents).map
      (fun t => t.done.dropLast.map (told phoneKey)) = some lockTold := rfl
  obtain ⟨t, ht, hlast⟩ := Option.map_eq_some_iff.mp hlast
  obtain ⟨t', ht', hlast'⟩ := Option.map_eq_some_iff.mp hlast'
  obtain ⟨hkind, hlast⟩ := Prod.mk.inj hlast
  obtain ⟨hkind', hlast'⟩ := Prod.mk.inj hlast'
  obtain ⟨e, he, hop⟩ := Option.map_eq_some_iff.mp hlast
  obtain ⟨e', he', -⟩ := Option.map_eq_some_iff.mp hlast'
  obtain ⟨h, hsteps, hthread⟩ := Option.bind_eq_some_iff.mp ht
  obtain ⟨h', hsteps', hthread'⟩ := Option.bind_eq_some_iff.mp ht'
  rw [ht] at hviews
  rw [ht'] at hviews'
  have htold : List.Forall₂ (fun x y => told phoneKey x = told phoneKey y) t.done.dropLast
      t'.done.dropLast := by
    have hsame : t.done.dropLast.map (told phoneKey) = t'.done.dropLast.map (told phoneKey) :=
      Option.some.inj (hviews.trans hviews'.symm)
    rw [← List.forall₂_eq_eq_eq] at hsame
    exact List.forall₂_map_right_iff.mp (List.forall₂_map_left_iff.mp hsame)
  refine ⟨t, t', e, e', ht, ht', he, he', hop, ?_⟩
  exact independent_of_others hsteps hsteps' (List.mem_of_getElem? hthread)
    (List.mem_of_getElem? hthread') hkind hkind' rfl
    (List.dropLast_append_getLast? e he).symm (List.dropLast_append_getLast? e' he').symm htold

end Daemon
end WakeMyPc
