import WakeMyPc.Daemon.Ledger

/-!
# Lost updates of the keystore file

Every process saves whole contents that it made from a copy.  When the file has changed
since the copy was taken, a save can put old values of other fields back.

Main results:

- Theorem `kept_of_current`: what the file keeps from one save to another.
- Theorem `no_lost_update`: in a run whose saves are all current, a change stays in the
  file until a later save is meant to change the same field.
-/

namespace WakeMyPc
namespace Daemon

open Foundations
open Protocol

/-! ## Saves that are current -/

instance Edit.Forward.decidable (c : KeystoreContents) (e : Edit) : Decidable (e.Forward c) :=
  match e with
  | .update _ => isTrue trivial
  | .change (.reauthNow _) => inferInstanceAs (Decidable (_ ≤ _))
  | .change (.revoke _) => isTrue trivial
  | .change .revokeAll => isTrue trivial
  | .change (.pair _) => isTrue trivial

instance Forward.decidable (c : KeystoreContents) (edits : List Edit) :
    Decidable (Forward c edits) :=
  match edits with
  | [] => isTrue trivial
  | e :: edits =>
      have := Forward.decidable (e.apply c) edits
      inferInstanceAs (Decidable (_ ∧ _))

/-- The edits of the save make the same of the file as of the copy, but for what no save
keeps of an address, and set no time back: nothing but what they set has changed in the
file since the copy was taken. -/
def Commit.Current (x : Commit) : Prop :=
  ∀ found ∈ x.world.file,
    (applyEdits found x.edits).reloaded = (applyEdits x.copy x.edits).reloaded ∧
      Forward found x.edits

instance (x : Commit) : Decidable x.Current :=
  inferInstanceAs (Decidable (∀ found ∈ x.world.file, _))

/-- The edits of some saves, the newest save first, in the order in which they were
made. -/
def editsOf : List Commit → List Edit
  | [] => []
  | x :: xs => editsOf xs ++ x.edits

/-- Between two saves the file keeps what the saves between them are not meant to
change, when these are current. -/
theorem kept_of_current {file : Option KeystoreContents} {later earlier : List Commit}
    (hmade : ∀ x ∈ later, x.Made)
    (hlinked : Linked file (later ++ earlier)) (hcurrent : ∀ x ∈ later, x.Current)
    {c : KeystoreContents} (hc : fileAfter file earlier = some c) :
    ∃ c', fileAfter file (later ++ earlier) = some c' ∧ Kept (editsOf later) c c' := by
  induction later with
  | nil => exact ⟨c, hc, Kept.refl [] c⟩
  | cons x later ih =>
      obtain ⟨hx, hlater⟩ := List.forall_mem_cons.mp hcurrent
      obtain ⟨hxmade, hlatermade⟩ := List.forall_mem_cons.mp hmade
      obtain ⟨found, hfound, hkept⟩ := ih hlatermade hlinked.2 hlater
      obtain ⟨hsame, hforward⟩ := hx found (hlinked.1.trans hfound)
      refine ⟨x.contents.reloaded, rfl, hkept.trans ?_⟩
      have hkept' := (Kept.of_edits hforward).reloaded
      rwa [hsame, ← hxmade.contents_eq, reloaded_of_fileAfter hfound] at hkept'

/-! ## All runs -/

/-- In every run whose saves are all current, what the file held after any of them is
kept: a field stays until a later save is meant to change it, a revoked record stays
revoked until its key is paired anew, a key stays until its phone acknowledges its
revocation, and the time of the last credential prompt does not go back. -/
theorem no_lost_update {extractSpkiHash : Bytes → Except Crypto.Error SpkiHash}
    {file : Option KeystoreContents} {actions : List Action} {r : Recorded}
    (hsteps : takeSteps (Recorded.step extractSpkiHash) (Recorded.initial file) actions = some r)
    (hcurrent : ∀ x ∈ r.ledger.commits, x.Current) :
    ∀ later earlier, r.ledger.commits = later ++ earlier →
      ∀ c, fileAfter file earlier = some c →
        ∃ c', r.host.world.file = some c' ∧ Kept (editsOf later) c c' := by
  intro later earlier hsplit c hc
  have hr := balanced_of_steps hsteps
  have hmem : ∀ x ∈ later, x ∈ r.ledger.commits := by
    intro x hx
    rw [hsplit]
    exact List.mem_append_left _ hx
  obtain ⟨c', hc', hkept⟩ := kept_of_current (fun x hx => hr.commits x (hmem x hx))
    (hsplit ▸ hr.linked) (fun x hx => hcurrent x (hmem x hx)) hc
  exact ⟨c', hr.file_eq.trans (hsplit ▸ hc'), hkept⟩

/-! ## Two runs -/

/-- A thread performs some operations in turn, with calls that succeed. -/
def performs (i n : ℕ) : List Action :=
  List.replicate n (.perform i (succeeding pairedContents))

/-- A credential prompt, then a server that stores the address of the phone, and after
it the revocation of the phone. -/
def oneAfterTheOther : List Action :=
  [.launch .reauthNow] ++ performs 0 3 ++ [.start, .accept [[]] phoneAddress 1 1] ++
    performs 1 7 ++ [.stop, .launch (.revoke livePairing.phoneName)] ++ performs 2 2

/-- Processes that run one after the other lose nothing. -/
theorem nothing_lost_in_turn :
    ∃ r, takeSteps (Recorded.step phoneSpki) (Recorded.initial (some pairedContents))
        oneAfterTheOther = some r ∧ r.ledger.commits.length = 3 ∧
      ∀ later earlier, r.ledger.commits = later ++ earlier →
        ∀ c, fileAfter (some pairedContents) earlier = some c →
          ∃ c', r.host.world.file = some c' ∧ Kept (editsOf later) c c' := by
  have hrun : ((takeSteps (Recorded.step phoneSpki) (Recorded.initial (some pairedContents))
      oneAfterTheOther).map fun r => decide (r.ledger.commits.length = 3 ∧
        ∀ x ∈ r.ledger.commits, x.Current)) = some true := rfl
  obtain ⟨r, hr, hcommits⟩ := Option.map_eq_some_iff.mp hrun
  obtain ⟨hlength, hcurrent⟩ := of_decide_eq_true hcommits
  exact ⟨r, hr, hlength, no_lost_update hr hcurrent⟩

/-- A phone that is revoked while the server runs, and then connects. -/
def revokedWhileServing : List Action :=
  [.start, .launch (.revoke livePairing.phoneName)] ++ performs 0 2 ++
    [.accept [[]] phoneAddress 1 1] ++ performs 1 7

/-- The server stores the address of the phone together with its old copy, and the record
of the phone is live again, although no pairing takes place. -/
theorem revocation_lost :
    ∃ r later earlier c c', takeSteps (Recorded.step phoneSpki)
        (Recorded.initial (some pairedContents)) revokedWhileServing = some r ∧
      r.ledger.commits = later ++ earlier ∧ fileAfter (some pairedContents) earlier = some c ∧
      r.host.world.file = some c' ∧ ¬ Kept (editsOf later) c c' := by
  let c := (Change.revoke livePairing.phoneName).apply pairedContents
  let p := { livePairing with lastKnownAddress := some phoneAddress }
  let c' := { pairedContents with pairings := [p] }
  have hrun : ((takeSteps (Recorded.step phoneSpki) (Recorded.initial (some pairedContents))
      revokedWhileServing).map fun r => (r.host.world.file,
        fileAfter (some pairedContents) (r.ledger.commits.drop 1),
        editsOf (r.ledger.commits.take 1))) =
      some (some c', some c, [.update (.lastKnownAddress phoneKey phoneAddress)]) := rfl
  obtain ⟨r, hr, hview⟩ := Option.map_eq_some_iff.mp hrun
  obtain ⟨hfile, hview⟩ := Prod.mk.inj hview
  obtain ⟨hearlier, hlater⟩ := Prod.mk.inj hview
  refine ⟨r, _, _, c, c', hr, (List.take_append_drop 1 r.ledger.commits).symm, hearlier, hfile, ?_⟩
  intro hkept
  rw [hlater] at hkept
  rcases hkept.revoked p (List.mem_singleton.mpr rfl) rfl with ⟨q, hq, hlive, -⟩ | ⟨new, hnew, -⟩
  · obtain rfl := List.mem_singleton.mp hq
    simp [livePairing, PairingRecord.markRevoked] at hlive
  · simp at hnew

end Daemon
end WakeMyPc
