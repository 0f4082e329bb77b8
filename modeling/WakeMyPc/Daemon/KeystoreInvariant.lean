import WakeMyPc.Daemon.Edits
import WakeMyPc.Daemon.KeystoreFile
import WakeMyPc.Daemon.Ledger
import WakeMyPc.Foundations.Keyed
import Mathlib.Data.List.Induction

/-!
# One record for each phone

Lookups and the pins of the server take it that a key has one record.  No type says so: the
operations on the keystore keep it, each in its own way, and leave the records of other
phones alone.

Main results:

- Definition `Operation`: the operations on the keystore.
- Theorem `keystore_invariant`: what all of them keep.
- Theorem `reached_of_steps`: in every run of the processes, the contents are those of some
  operations.
- Theorem `distinct_of_steps`: every run of the processes keeps one record for each key.
-/

namespace WakeMyPc
namespace Daemon

open Foundations
open Foundations.Keyed (Distinct others)
open Protocol

/-! ## Edits -/

namespace Edit

/-- The edit is about the phone of a key: it pairs it, records its address, removes its revoked
record, or sets what is kept for all phones. -/
def About (clientSpki : SpkiHash) : Edit → Prop
  | update (.lastKnownAddress peerSpki _) => peerSpki = clientSpki
  | update (.reauthInterval _) => True
  | update (.removeRevoked peerSpki) => peerSpki = clientSpki
  | change (.pair new) => new.clientSpki = clientSpki
  | change (.reauthNow _) => True
  | change (.revoke _) => False
  | change .revokeAll => False

end Edit

/-- No two records have one key. -/
def KeystoreContents.Distinct (c : KeystoreContents) : Prop :=
  Keyed.Distinct PairingRecord.clientSpki c.pairings

/-- The records of the other phones, in their order. -/
def KeystoreContents.others (clientSpki : SpkiHash) (c : KeystoreContents) : List PairingRecord :=
  Keyed.others PairingRecord.clientSpki clientSpki c.pairings

theorem setLastKnownAddress_keys (peerSpki : SpkiHash) (peerAddr : SocketAddr)
    (ps : List PairingRecord) :
    (setLastKnownAddress peerSpki peerAddr ps).2.map (·.clientSpki) = ps.map (·.clientSpki) := by
  induction ps with
  | nil => rfl
  | cons p ps ih =>
      simp only [setLastKnownAddress]
      split
      · rfl
      · exact congrArg (p.clientSpki :: ·) ih

theorem setLastKnownAddress_others (peerSpki : SpkiHash) (peerAddr : SocketAddr)
    (ps : List PairingRecord) :
    Keyed.others PairingRecord.clientSpki peerSpki (setLastKnownAddress peerSpki peerAddr ps).2 =
      Keyed.others PairingRecord.clientSpki peerSpki ps := by
  induction ps with
  | nil => rfl
  | cons p ps ih =>
      simp only [setLastKnownAddress]
      split
      · next hcond => simp [Keyed.others, hcond.1]
      · unfold Keyed.others at ih ⊢
        rw [List.filter_cons, List.filter_cons, ih]

/-- Every edit keeps one record for each key. -/
theorem Edit.distinct_apply {c : KeystoreContents} (h : c.Distinct) (e : Edit) :
    (e.apply c).Distinct := by
  cases e with
  | update u =>
      cases u with
      | lastKnownAddress peerSpki peerAddr => exact h.of_keys (setLastKnownAddress_keys _ _ _)
      | reauthInterval newDays => exact h
      | removeRevoked peerSpki => exact h.filter _
  | change made =>
      cases made with
      | revoke phoneName =>
          refine h.of_keys ((List.map_map).trans (List.map_congr_left fun p _ => ?_))
          dsimp only [Function.comp]
          split <;> rfl
      | reauthNow nowMs => exact h
      | revokeAll =>
          exact h.of_keys ((List.map_map).trans (List.map_congr_left fun _ _ => rfl))
      | pair new => exact h.put new

/-- No edit changes the key and the certificate of the device. -/
theorem Edit.deviceIdentityBytes_apply (c : KeystoreContents) (e : Edit) :
    (e.apply c).deviceIdentityBytes = c.deviceIdentityBytes := by
  cases e with
  | update u => cases u <;> rfl
  | change made => cases made <;> rfl

/-- An edit that is about a phone leaves the records of the others. -/
theorem Edit.others_apply {clientSpki : SpkiHash} {e : Edit} (h : e.About clientSpki)
    (c : KeystoreContents) : (e.apply c).others clientSpki = c.others clientSpki := by
  cases e with
  | update u =>
      cases u with
      | lastKnownAddress peerSpki peerAddr =>
          obtain rfl : peerSpki = clientSpki := h
          exact setLastKnownAddress_others peerSpki peerAddr c.pairings
      | reauthInterval newDays => rfl
      | removeRevoked peerSpki =>
          obtain rfl : peerSpki = clientSpki := h
          refine Keyed.others_filter (fun p hp => ?_) c.pairings
          simp [hp]
  | change made =>
      cases made with
      | revoke phoneName => exact h.elim
      | reauthNow nowMs => rfl
      | revokeAll => exact h.elim
      | pair new => exact Keyed.others_put h c.pairings

/-! ## Operations -/

instance (c : KeystoreContents) : Decidable c.Fits :=
  decidable_of_iff (c.keyPkcs8Der.length ≤ isizeMax ∧ c.certDer.length ≤ isizeMax ∧
    c.pairings.length ≤ isizeMax)
    ⟨fun h => ⟨h.1, h.2.1, h.2.2⟩, fun h => ⟨h.key_le, h.cert_le, h.pairings_le⟩⟩

/-- An operation on the keystore: an edit, or a save that is loaded again. -/
inductive Operation where
  | edit (e : Edit)
  | saveLoad

/-- The contents after an operation.  The vectors of the source always fit in memory, and a save
or a load that fails gives no contents. -/
def Operation.step (platform : Platform) (c : KeystoreContents) :
    Operation → Option KeystoreContents
  | edit e => some (e.apply c)
  | saveLoad =>
      if c.Fits then
        match saveImage platform c with
        | .error _ => none
        | .ok cipher => (loadImage platform cipher).toOption
      else none

section Platform

variable {platform : Platform}

/-- What is saved and loaded again has lost the scopes of its addresses at most. -/
theorem Operation.step_saveLoad (hplatform : platform.Undoes) {c c' : KeystoreContents}
    (h : Operation.step platform c .saveLoad = some c') : c' = c.reloaded := by
  simp only [step] at h
  split at h
  · next hfits =>
      split at h
      · cases h
      · next cipher hsave =>
          rw [loadImage_of_saveImage hplatform hfits hsave] at h
          exact (Option.some.inj h).symm
  · cases h

/-- Saving and loading keeps one record for each key. -/
theorem KeystoreContents.distinct_reloaded {c : KeystoreContents} (h : c.Distinct) :
    c.reloaded.Distinct :=
  h.of_keys ((List.map_map).trans (List.map_congr_left fun _ _ => rfl))

/-- One operation keeps one record for each key, and the identity of the device. -/
theorem Operation.kept_of_step (hplatform : platform.Undoes) {c c' : KeystoreContents}
    {o : Operation} (hc : c.Distinct) (hstep : Operation.step platform c o = some c') :
    c'.Distinct ∧ c'.deviceIdentityBytes = c.deviceIdentityBytes := by
  cases o with
  | edit e =>
      obtain rfl := Option.some.inj hstep
      exact ⟨e.distinct_apply hc, e.deviceIdentityBytes_apply c⟩
  | saveLoad =>
      obtain rfl := step_saveLoad hplatform hstep
      exact ⟨KeystoreContents.distinct_reloaded hc, rfl⟩

/-- A keystore that operations lead to from the one of a fresh identity. -/
def Reached (platform : Platform) (identity : DeviceIdentityBytes) (c : KeystoreContents) : Prop :=
  ∃ operations, takeSteps (Operation.step platform) (.fromIdentity identity) operations = some c

/-- In every keystore that operations lead to, no two records have one key and the key and the
certificate of the device are those that it was bootstrapped with; and an edit that is about a
phone leaves the records of every other phone, in their order. -/
theorem keystore_invariant (hplatform : platform.Undoes) {identity : DeviceIdentityBytes}
    {c : KeystoreContents} (hreached : Reached platform identity c) :
    c.Distinct ∧ c.deviceIdentityBytes = identity ∧
      ∀ (e : Edit) (clientSpki : SpkiHash), e.About clientSpki →
        (e.apply c).others clientSpki = c.others clientSpki := by
  obtain ⟨operations, hrun⟩ := hreached
  have hkept : c.Distinct ∧ c.deviceIdentityBytes = identity := by
    apply takeSteps_invariant (fun c : KeystoreContents => c.Distinct ∧
      c.deviceIdentityBytes = identity) ?_ ?_ hrun
    · rintro c o c' ⟨hc, hidentity⟩ hstep
      obtain ⟨hdistinct, hsame⟩ := Operation.kept_of_step hplatform hc hstep
      exact ⟨hdistinct, hsame.trans hidentity⟩
    · exact ⟨List.nodup_nil, rfl⟩
  exact ⟨hkept.1, hkept.2, fun e clientSpki habout => e.others_apply habout c⟩

theorem Reached.edit {identity : DeviceIdentityBytes} {c : KeystoreContents}
    (h : Reached platform identity c) (e : Edit) : Reached platform identity (e.apply c) := by
  obtain ⟨operations, hrun⟩ := h
  refine ⟨operations ++ [.edit e], ?_⟩
  rw [takeSteps_append, hrun]
  rfl

/-- What is read back of contents that fit is what saving and loading them leads to. -/
theorem Reached.saveLoad (hplatform : platform.Undoes) {identity : DeviceIdentityBytes}
    {c : KeystoreContents} (hencrypts : ∃ cipher, platform.encrypt (savePlaintext c) = .ok cipher)
    (hfits : c.Fits) (h : Reached platform identity c) : Reached platform identity c.reloaded := by
  obtain ⟨operations, hrun⟩ := h
  obtain ⟨cipher, hcipher⟩ := hencrypts
  have hsave : saveImage platform c = .ok cipher := by rw [saveImage, hcipher]
  have hstep : Operation.step platform c .saveLoad = some c.reloaded := by
    simp only [Operation.step, if_pos hfits, hsave, loadImage_of_saveImage hplatform hfits hsave]
    rfl
  refine ⟨operations ++ [.saveLoad], ?_⟩
  rw [takeSteps_append, hrun, Option.bind_some, takeSteps, hstep]
  rfl

end Platform

/-- A new record for the phone, whatever was known of it. -/
def phoneRecord (nowMs : UInt64) : PairingRecord :=
  .fromCore ⟨livePairing.phoneName, phoneKey, nowMs⟩

/-- A phone is paired, connects from an address, is revoked, and is paired anew. -/
def pairedTwice : List Operation :=
  [.edit (.change (.pair (phoneRecord 1))),
    .edit (.update (.lastKnownAddress phoneKey phoneAddress)),
    .edit (.change (.revoke livePairing.phoneName)), .saveLoad,
    .edit (.change (.pair (phoneRecord 2))), .edit (.update (.reauthInterval 30))]

/-- It has one record. -/
theorem paired_twice_distinct :
    ∃ c, takeSteps (Operation.step plainPlatform)
        (.fromIdentity pairedContents.deviceIdentityBytes) pairedTwice = some c ∧
      c.pairings = [phoneRecord 2] ∧ c.Distinct := by
  obtain ⟨c, hrun, hrecords⟩ : ∃ c, takeSteps (Operation.step plainPlatform)
      (.fromIdentity pairedContents.deviceIdentityBytes) pairedTwice = some c ∧
        c.pairings = [phoneRecord 2] := ⟨_, rfl, rfl⟩
  exact ⟨c, hrun, hrecords, (keystore_invariant plainPlatform_undoes ⟨pairedTwice, hrun⟩).1⟩

/-! ## Runs of the processes -/

section Runs

variable {extractSpkiHash : Bytes → Except Crypto.Error SpkiHash} {D : KeystoreContents → Prop}

/-- The contents that an event shows have a property. -/
def Shows (D : KeystoreContents → Prop) : TaskEvent → Prop
  | ⟨.snapshot, c⟩ => D c
  | ⟨.load, result⟩ =>
      ∀ c, (result : Except KeystoreError (Option KeystoreContents)) = .ok (some c) → D c
  | _ => True

/-- The copy of a history that shows only such contents is one of them. -/
theorem copyOf_shown (hfresh : ∀ identity, D (.fromIdentity identity)) {h : List TaskEvent}
    (hshows : ∀ e ∈ h, Shows D e) {copy : KeystoreContents} (hcopy : copyOf h = some copy) :
    D copy := by
  induction h using List.reverseRecOn generalizing copy with
  | nil => cases hcopy
  | append_singleton h e ih =>
      have hbefore : ∀ x ∈ h, Shows D x := fun x hx => hshows x (List.mem_append_left _ hx)
      have hshown := hshows e (List.mem_append_right _ List.mem_cons_self)
      rw [copyOf, List.foldl_append, ← copyOf] at hcopy
      obtain ⟨o, r⟩ := e
      cases o with
      | load =>
          rcases r with _ | loaded
          · cases hcopy
          · exact hshown copy (congrArg Except.ok hcopy)
      | generateIdentity =>
          rcases r with _ | identity
          · cases hcopy
          · obtain rfl := Option.some.inj hcopy
            exact hfresh identity
      | _ => exact ih hbefore hcopy

theorem applyEdits_holds (hedit : ∀ c e, D c → D (Edit.apply c e)) {c : KeystoreContents}
    (hc : D c) (edits : List Edit) : D (applyEdits c edits) := by
  induction edits generalizing c with
  | nil => exact hc
  | cons e edits ih => exact ih (hedit c e hc)

/-- The contents of the processes have a property. -/
structure AllHold (extractSpkiHash : Bytes → Except Crypto.Error SpkiHash)
    (D : KeystoreContents → Prop) (h : Host) : Prop where
  file : ∀ c, h.world.file = some c → D c
  server : ∀ c, h.world.server = some c → D c
  threads : ∀ t ∈ h.threads, ThreadKeeps extractSpkiHash t ∧ ∀ e ∈ t.done, Shows D e

/-- The thread that takes its step saves the contents. -/
def Host.Saves (h : Host) : Action → KeystoreContents → Prop
  | .perform i _, contents => ∃ t, h.threads[i]? = some t ∧ t.next = some (.saveFile contents)
  | _, _ => False

/-- The contents have a property when the file has it and no process runs. -/
theorem allHold_initial {file : Option KeystoreContents}
    (hfile : ∀ c, file = some c → D c.reloaded) :
    AllHold extractSpkiHash D (Host.initial file) := by
  refine ⟨fun c hc => ?_, nofun, nofun⟩
  obtain ⟨c₀, hc₀, rfl⟩ := Option.map_eq_some_iff.mp hc
  exact hfile c₀ hc₀

/-- What a thread saves is what it was last shown, or what its edits make of its copy. -/
theorem saved_cases {t : DaemonThread} (ht : ThreadKeeps extractSpkiHash t)
    {contents : KeystoreContents} (hnext : t.next = some (.saveFile contents)) :
    (⟨.snapshot, contents⟩ : TaskEvent) ∈ t.done ∨
      ∃ command copy, t.kind = .command command ∧ copyOf t.done = some copy ∧
        applyEdits copy (command.edits contents) = contents := by
  unfold ThreadKeeps at ht
  split at ht
  · obtain ⟨-, front, hdone⟩ := ht.keeps.next hnext
    exact .inl (by rw [hdone]; simp)
  · next command hkind =>
      obtain ⟨copy, hcopy, hedits⟩ := ht.next hnext
      exact .inr ⟨command, copy, hkind, hcopy, hedits⟩

/-- What a thread saves has the property. -/
theorem saved_holds (hfresh : ∀ identity, D (.fromIdentity identity))
    (hedit : ∀ c e, D c → D (Edit.apply c e)) {t : DaemonThread}
    (ht : ThreadKeeps extractSpkiHash t) (hshows : ∀ e ∈ t.done, Shows D e)
    {contents : KeystoreContents} (hnext : t.next = some (.saveFile contents)) : D contents := by
  rcases saved_cases ht hnext with hshown | ⟨command, copy, -, hcopy, hedits⟩
  · exact hshows _ hshown
  · rw [← hedits]
    exact applyEdits_holds hedit (copyOf_shown hfresh hshows hcopy) _

/-- What an operation shows and shares has the property. -/
theorem holds_of_effect {kind : Kind} {w w' : World} {e : TaskEvent}
    (hupdate : ∀ u r, e = ⟨.write u, r⟩ → ∀ c, D c → D (u.apply c))
    (hfile : ∀ c, w.file = some c → D c)
    (hserver : ∀ c, w.server = some c → D c)
    (hsaved : ∀ contents, e = ⟨.saveFile contents, Except.ok ()⟩ → D contents.reloaded)
    (heffect : Effect extractSpkiHash kind w e w') :
    (∀ c, w'.file = some c → D c) ∧ (∀ c, w'.server = some c → D c) ∧ Shows D e := by
  cases heffect with
  | snapshot hheld => exact ⟨hfile, hserver, hserver _ hheld⟩
  | write u hheld =>
      refine ⟨hfile, fun c hc => ?_, trivial⟩
      obtain rfl := Option.some.inj hc
      exact hupdate u _ rfl _ (hserver _ hheld)
  | loaded => exact ⟨hfile, hserver, fun c hc => hfile c (Except.ok.inj hc)⟩
  | loadFailed e => exact ⟨hfile, hserver, fun c hc => by cases hc⟩
  | saved c =>
      refine ⟨fun c' hc' => ?_, hserver, trivial⟩
      obtain rfl := Option.some.inj hc'
      exact hsaved _ rfl
  | saveFailed c e => exact ⟨hfile, hserver, trivial⟩
  | other hother hpeer =>
      refine ⟨hfile, hserver, ?_⟩
      obtain ⟨o, r⟩ := e
      cases o with
      | snapshot => cases hother
      | load => cases hother
      | _ => trivial

/-- A step keeps the property when an update or a save in it does. -/
theorem AllHold.step {h h' : Host} {a : Action} (hall : AllHold extractSpkiHash D h)
    (hupdate : ∀ t ∈ h.threads, ∀ u, t.next = some (.write u) → ∀ c, D c → D (u.apply c))
    (hsaved : ∀ i outside t t' w contents, a = .perform i outside → h.threads[i]? = some t →
      t.perform (t.kind.answer extractSpkiHash outside h.world) =
        some (⟨.saveFile contents, Except.ok ()⟩, t', w) → D contents.reloaded)
    (hstep : h.step extractSpkiHash a = some h') : AllHold extractSpkiHash D h' := by
  have hstart : ∀ (kind : Kind), ∀ t ∈ h.threads ++ [kind.thread extractSpkiHash],
      ThreadKeeps extractSpkiHash t ∧ ∀ e ∈ t.done, Shows D e := by
    intro kind t ht
    rcases List.mem_append.mp ht with hold | hnew
    · exact hall.threads t hold
    · obtain rfl := List.mem_singleton.mp hnew
      exact ⟨threadKeeps_start kind, fun e he => by cases he⟩
  cases Host.stepped_of_step hstep with
  | start hserver hfile =>
      refine ⟨hall.file, fun c hc => ?_, hall.threads⟩
      obtain rfl := Option.some.inj hc
      exact hall.file _ hfile
  | stop =>
      refine ⟨hall.file, fun c hc => (by cases hc), fun t ht => ?_⟩
      obtain ⟨t₀, ht₀, rfl⟩ := List.mem_map.mp ht
      obtain ⟨hkeeps, hshows⟩ := hall.threads t₀ ht₀
      refine ⟨threadKeeps_end hkeeps, ?_⟩
      unfold endConnection
      split <;> exact hshows
  | accept hserver certs peerAddr rounds reads => exact ⟨hall.file, hall.server, hstart _⟩
  | launch command => exact ⟨hall.file, hall.server, hstart _⟩
  | @perform i outside t t' e w ht hthread heffect =>
      obtain ⟨hkeeps, hshows⟩ := hall.threads t (List.mem_of_getElem? ht)
      have hnext := Thread.next_of_perform hthread
      obtain ⟨hfile, hserver, hshown⟩ := holds_of_effect
        (fun u r he => hupdate t (List.mem_of_getElem? ht) u (by rw [hnext, he]))
        hall.file hall.server
        (fun contents he => hsaved i outside t t' w contents rfl ht (he ▸ hthread)) heffect
      refine ⟨hfile, hserver, fun t₁ ht₁ => ?_⟩
      rcases List.mem_or_eq_of_mem_set ht₁ with hother | rfl
      · exact hall.threads t₁ hother
      · refine ⟨threadKeeps_perform hkeeps hthread heffect, fun x hx => ?_⟩
        obtain ⟨k, -, -, hafter⟩ := Thread.perform_eq_some hthread
        rw [hafter] at hx
        rcases List.mem_append.mp hx with hold | hnew
        · exact hshows x hold
        · rwa [List.mem_singleton.mp hnew]

/-- A step keeps a property that all edits keep, and that what it saves keeps when it is read
back. -/
theorem allHold_step (hfresh : ∀ identity, D (.fromIdentity identity))
    (hedit : ∀ c e, D c → D (Edit.apply c e)) {h h' : Host} {a : Action}
    (hreloaded : ∀ contents, h.Saves a contents → D contents → D contents.reloaded)
    (hall : AllHold extractSpkiHash D h) (hstep : h.step extractSpkiHash a = some h') :
    AllHold extractSpkiHash D h' := by
  refine hall.step (fun _ _ u _ c => hedit c (.update u)) ?_ hstep
  rintro i outside t t' w contents rfl ht hthread
  obtain ⟨hkeeps, hshows⟩ := hall.threads t (List.mem_of_getElem? ht)
  have hnext := Thread.next_of_perform hthread
  exact hreloaded contents ⟨t, ht, hnext⟩ (saved_holds hfresh hedit hkeeps hshows hnext)

/-- A property of the contents that a fresh identity has and that edits and reading back keep
holds of the file and of the memory of the server in every run. -/
theorem contents_of_steps (hfresh : ∀ identity, D (.fromIdentity identity))
    (hedit : ∀ c e, D c → D (Edit.apply c e))
    (hreloaded : ∀ c : KeystoreContents, D c → D c.reloaded) {file : Option KeystoreContents}
    (hfile : ∀ c, file = some c → D c) {h : Host} {actions : List Action}
    (hsteps : takeSteps (Host.step extractSpkiHash) (Host.initial file) actions = some h) :
    AllHold extractSpkiHash D h := by
  apply takeSteps_invariant (AllHold extractSpkiHash D) ?_ ?_ hsteps
  · exact fun h a h' hall hstep => allHold_step hfresh hedit (fun c _ => hreloaded c) hall hstep
  · exact allHold_initial fun c hc => hreloaded c (hfile c hc)

/-- On a PC that starts without a keystore, the file and the memory of the server always hold
contents that operations lead to, on a platform that encrypts all that is saved, as long as
this fits in memory. -/
theorem reached_of_steps {platform : Platform} (hplatform : platform.Undoes)
    (hencrypts : ∀ plain, ∃ cipher, platform.encrypt plain = .ok cipher) {h : Host}
    {actions : List Action}
    (hsteps : takeSteps (Host.step extractSpkiHash) (Host.initial none) actions = some h)
    (hfits : Along (Host.step extractSpkiHash) (fun h a => ∀ contents, h.Saves a contents →
      contents.Fits) (Host.initial none) actions)
    {c : KeystoreContents} (hc : h.world.file = some c ∨ h.world.server = some c) :
    ∃ identity, Reached platform identity c := by
  have hall : AllHold extractSpkiHash (fun c => ∃ identity, Reached platform identity c) h := by
    refine hfits.invariant (AllHold extractSpkiHash _) ?_ (allHold_initial nofun) hsteps
    intro h a h' hall hfits hstep
    refine allHold_step (fun identity => ⟨identity, [], rfl⟩) ?_ ?_ hall hstep
    · rintro c e ⟨identity, hreached⟩
      exact ⟨identity, hreached.edit e⟩
    · rintro contents hsaves ⟨identity, hreached⟩
      exact ⟨identity, hreached.saveLoad hplatform (hencrypts _) (hfits contents hsaves)⟩
  rcases hc with hfile | hserver
  · exact hall.file c hfile
  · exact hall.server c hserver

/-- In every run, with any order of the steps of all processes, the file and the memory of the
server have one record for each key if the file had at first. -/
theorem distinct_of_steps {file : Option KeystoreContents} (hfile : ∀ c, file = some c → c.Distinct)
    {h : Host} {actions : List Action}
    (hsteps : takeSteps (Host.step extractSpkiHash) (Host.initial file) actions = some h) :
    (∀ c, h.world.file = some c → c.Distinct) ∧ ∀ c, h.world.server = some c → c.Distinct := by
  have hall := contents_of_steps (D := KeystoreContents.Distinct) (fun identity => List.nodup_nil)
    (fun c e hc => Edit.distinct_apply hc e) (fun c => KeystoreContents.distinct_reloaded) hfile
    hsteps
  exact ⟨hall.file, hall.server⟩

end Runs

end Daemon
end WakeMyPc
