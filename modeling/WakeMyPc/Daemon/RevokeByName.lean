import WakeMyPc.Daemon.KeystoreInvariant
import WakeMyPc.Daemon.PairingSoundness

/-!
# Revoking one of several devices

The subcommand `revoke` takes the name of a device, and devices choose their names
themselves.  It revokes one device exactly when no other device has its name.

Main results:

- Definition `KeystoreContents.revokeDevice`: the revocation of one device.
- Theorem `exec_revokeOn`: what the subcommand stores.
- Theorem `revoke_per_device_iff`: when it revokes one device only.
-/

namespace WakeMyPc
namespace Daemon

open Foundations
open Protocol (SpkiHash)

/-! ## The revocation of one device -/

/-- Mark the record of a key as revoked, and leave all else. -/
def KeystoreContents.revokeDevice (c : KeystoreContents) (clientSpki : SpkiHash) :
    KeystoreContents :=
  { c with
    pairings := Keyed.change PairingRecord.clientSpki clientSpki PairingRecord.markRevoked
      c.pairings }

/-- Reading and writing the keystore file succeed. -/
structure StorageWorks (outside : (o : Op) → Ans o) : Prop where
  load : ∃ r, (outside .load : Except KeystoreError (Option KeystoreContents)) = .ok r
  save : ∀ c, (outside (.saveFile c) : Except KeystoreError Unit) = .ok ()

section Revoke

-- the hash of the public key of a certificate, by the X.509 parser and SHA-256
variable (extractSpkiHash : Bytes → Except Crypto.Error SpkiHash)

/-- The subcommand `revoke` on what the processes share, with no step of another process
before its end. -/
def revokeOn (outside : (o : Op) → Ans o) (phoneName : RustString) (w : World) :
    Outcome Op Ans World (Except AdminError Unit) :=
  (revoke phoneName).exec
    (fun w => (Kind.command (.revoke phoneName)).answer extractSpkiHash outside w) w

variable {extractSpkiHash}

/-- Revoking puts no address into the contents. -/
theorem unscoped_revoke {c : KeystoreContents} (hc : c.Unscoped) (phoneName : RustString) :
    ((Change.revoke phoneName).apply c).Unscoped := by
  intro p hp addr haddr
  obtain ⟨q, hq, rfl⟩ := List.mem_map.mp hp
  split at haddr <;> exact hc q hq addr haddr

/-- The subcommand marks the records of a name that is there. -/
theorem exec_revokeOn {outside : (o : Op) → Ans o} (hworks : StorageWorks outside) {w : World}
    {c : KeystoreContents} (hfile : w.file = some c) (hc : c.Unscoped) {d : PairingRecord}
    (hd : d ∈ c.pairings) :
    (revokeOn extractSpkiHash outside d.phoneName w).value = some (.ok ()) ∧
      (revokeOn extractSpkiHash outside d.phoneName w).world.file =
        some ((Change.revoke d.phoneName).apply c) := by
  obtain ⟨r, hload⟩ := hworks.load
  let env : Env Op Ans World :=
    fun w => (Kind.command (.revoke d.phoneName)).answer extractSpkiHash outside w
  have hanswer : env w .load = some (Except.ok (some c), w) := by
    simp only [env, Kind.answer, hload, hfile]
    rfl
  have hstored := (KeystoreContents.reloaded_eq_iff _).mpr (unscoped_revoke hc d.phoneName)
  have hsaved : env w (.saveFile ((Change.revoke d.phoneName).apply c)) =
      some (Except.ok (), { w with file := some ((Change.revoke d.phoneName).apply c) }) := by
    simp only [env, Kind.answer, hworks.save, hstored]
    rfl
  have hloaded : requireKeystore.exec env w =
      ⟨[⟨.load, Except.ok (some c)⟩], some (.ok c), w⟩ := by
    rw [requireKeystore, perform_bind, Prog.exec_call_some _ hanswer]
    rfl
  have hfound : c.pairings.any (fun p => decide (p.phoneName = d.phoneName)) = true :=
    List.any_eq_true.mpr ⟨d, hd, decide_eq_true rfl⟩
  change ((revoke d.phoneName).exec env w).value = _ ∧
    ((revoke d.phoneName).exec env w).world.file = _
  rw [revoke, Prog.exec_bind, hloaded]
  simp only [Prog.andThen, hfound, Bool.not_true, Bool.false_eq_true, if_false]
  rw [saveContents, perform_bind, Prog.exec_call_some _ hsaved]
  exact ⟨rfl, rfl⟩

/-- In every keystore that the processes lead to, with any number of phones paired under any
names and any revocations, the subcommand called with the name of a device revokes that device
and leaves the records of all others exactly when every other device of that name is already
marked as revoked. -/
theorem revoke_per_device_iff {h : Host} {actions : List Action}
    (hsteps : takeSteps (Host.step extractSpkiHash) (Host.initial none) actions = some h)
    {c : KeystoreContents} (hfile : h.world.file = some c) {d : PairingRecord}
    (hd : d ∈ c.pairings) {outside : (o : Op) → Ans o} (hworks : StorageWorks outside) :
    (revokeOn extractSpkiHash outside d.phoneName h.world).world.file =
        some (c.revokeDevice d.clientSpki) ↔
      ∀ p ∈ c.pairings, p.phoneName = d.phoneName →
        p.clientSpki = d.clientSpki ∨ p.markRevoked = p := by
  have hdistinct : c.Distinct := (distinct_of_steps (fun c hc => by cases hc) hsteps).1 c hfile
  have hunscoped := Host.file_unscoped_of_steps hsteps c hfile
  rw [(exec_revokeOn hworks hfile hunscoped hd).2,
    ← Keyed.Distinct.change_labelled_iff hdistinct PairingRecord.phoneName
      PairingRecord.markRevoked hd]
  constructor
  · intro hsame
    exact congrArg KeystoreContents.pairings (Option.some.inj hsame)
  · intro hpairings
    rw [KeystoreContents.revokeDevice, ← hpairings]
    rfl

end Revoke

/-! ## Two devices of one name -/

/-- The key of a second phone. -/
def secondKey : SpkiHash :=
  ⟨List.replicate 32 2, rfl⟩

/-- The keys of two phones, by their certificates. -/
def twoPhones (cert : Bytes) : Except Crypto.Error SpkiHash :=
  .ok (if cert = [] then phoneKey else secondKey)

/-- What a pairing window meets when the phone with a certificate offers its code. -/
def offeringWith (cert : Bytes) (o : Op) : Ans o :=
  match o with
  | .peerCertificates => some [cert]
  | .recv => Except.ok PairingFlow.offerBytes
  | o => succeeding pairedContents o

/-- A phone is paired with a PC that has no keystore. -/
def pairFirst : List Action :=
  .launch (.pair 1 2 2) :: List.replicate 16 (.perform 0 (offeringWith []))

/-- And then a second phone that has chosen the same name. -/
def pairSecond : List Action :=
  .launch (.pair 1 2 2) :: List.replicate 15 (.perform 1 (offeringWith [2]))

/-- The contents with one of the phones, and with both. -/
def withPhones (keys : List SpkiHash) : KeystoreContents :=
  { KeystoreContents.fromIdentity pairedContents.deviceIdentityBytes with
    pairings := keys.map fun key => { livePairing with clientSpki := key } }

theorem run_pairFirst :
    ∃ h, takeSteps (Host.step twoPhones) (Host.initial none) pairFirst = some h ∧
      h.world.file = some (withPhones [phoneKey]) :=
  Option.map_eq_some_iff.mp (show (takeSteps (Host.step twoPhones) (Host.initial none)
    pairFirst).map (·.world.file) = some (some (withPhones [phoneKey])) from rfl)

theorem run_pairBoth :
    ∃ h, takeSteps (Host.step twoPhones) (Host.initial none) (pairFirst ++ pairSecond) = some h ∧
      h.world.file = some (withPhones [phoneKey, secondKey]) :=
  Option.map_eq_some_iff.mp (show (takeSteps (Host.step twoPhones) (Host.initial none)
    (pairFirst ++ pairSecond)).map (·.world.file) =
      some (some (withPhones [phoneKey, secondKey])) from rfl)

/-- The record of a tablet, which has chosen another name. -/
def tabletPairing : PairingRecord :=
  { livePairing with phoneName := ⟨"tablet", by decide⟩, clientSpki := secondKey }

/-- What a pairing window meets when the tablet offers its code. -/
def offeringTablet (o : Op) : Ans o :=
  match o with
  | .recv =>
      let payload := Protocol.ClientFrame.format.encode (.pair tabletPairing.phoneName 0)
      Except.ok ((Protocol.encodeEnvelope ⟨Protocol.protocolVersion, 1, payload⟩).toOption.getD [])
  | o => offeringWith [2] o

/-- And then the tablet. -/
def pairTablet : List Action :=
  .launch (.pair 1 2 2) :: List.replicate 15 (.perform 1 offeringTablet)

/-- The contents with the phone and the tablet. -/
def withTablet : KeystoreContents :=
  { withPhones [] with pairings := [livePairing, tabletPairing] }

theorem run_pairTablet :
    ∃ h, takeSteps (Host.step twoPhones) (Host.initial none) (pairFirst ++ pairTablet) = some h ∧
      h.world.file = some withTablet :=
  Option.map_eq_some_iff.mp (show (takeSteps (Host.step twoPhones) (Host.initial none)
    (pairFirst ++ pairTablet)).map (·.world.file) = some (some withTablet) from rfl)

theorem storageWorks_succeeding (c : KeystoreContents) : StorageWorks (succeeding c) :=
  ⟨⟨_, rfl⟩, fun _ => rfl⟩

/-- The phone is revoked, and the tablet is left as it was. -/
theorem only_phone_revoked :
    ∃ h, takeSteps (Host.step twoPhones) (Host.initial none) (pairFirst ++ pairTablet) = some h ∧
      h.world.file = some withTablet ∧ livePairing ∈ withTablet.pairings ∧
      tabletPairing ∈ withTablet.pairings ∧
      (revokeOn twoPhones (succeeding pairedContents) livePairing.phoneName h.world).world.file =
        some (withTablet.revokeDevice phoneKey) ∧
      tabletPairing ∈ (withTablet.revokeDevice phoneKey).pairings := by
  obtain ⟨h, hsteps, hfile⟩ := run_pairTablet
  have hmem : livePairing ∈ withTablet.pairings := List.mem_cons_self
  refine ⟨h, hsteps, hfile, hmem, by decide, ?_, by decide⟩
  refine (revoke_per_device_iff hsteps hfile hmem
    (storageWorks_succeeding pairedContents)).mpr ?_
  intro p hp hname
  rcases List.mem_pair.mp hp with rfl | rfl
  · exact .inl rfl
  · exact absurd hname (by decide)

/-- Both phones of one name are revoked, whichever is meant. -/
theorem same_name_both_revoked :
    ∃ h d, takeSteps (Host.step twoPhones) (Host.initial none) (pairFirst ++ pairSecond) = some h ∧
      h.world.file = some (withPhones [phoneKey, secondKey]) ∧
      d ∈ (withPhones [phoneKey, secondKey]).pairings ∧
      (revokeOn twoPhones (succeeding pairedContents) d.phoneName h.world).value =
        some (.ok ()) ∧
      (revokeOn twoPhones (succeeding pairedContents) d.phoneName h.world).world.file ≠
        some ((withPhones [phoneKey, secondKey]).revokeDevice d.clientSpki) := by
  obtain ⟨h, hsteps, hfile⟩ := run_pairBoth
  have hmem : livePairing ∈ (withPhones [phoneKey, secondKey]).pairings := List.mem_cons_self
  have hexec := @exec_revokeOn twoPhones _ (storageWorks_succeeding pairedContents) h.world _ hfile
    (Host.file_unscoped_of_steps hsteps _ hfile) livePairing hmem
  refine ⟨h, livePairing, hsteps, hfile, hmem, hexec.1, ?_⟩
  rw [hexec.2]
  decide

end Daemon
end WakeMyPc
