import WakeMyPc.Daemon.LostUpdate

/-!
# Local changes and the running server

The server reads the keystore file once, when it starts, and decides from then on by the
contents in its memory.  A change that a subcommand saves later is in the file but not
in that memory.

Main results:

- Theorem `pickedUp_step`: what every step keeps when all saves are noticed.
- Theorem `changes_picked_up`: in a run whose saves are all noticed, a connection reads
  only contents that include every change saved before it was accepted.
-/

namespace WakeMyPc
namespace Daemon

open Foundations
open Protocol

/-! ## What a change is about -/

/-- No record of the key has another name. -/
def KnownAs (phoneName : RustString) (clientSpki : SpkiHash) (c : KeystoreContents) : Prop :=
  ∀ p ∈ c.pairings, p.clientSpki = clientSpki → p.phoneName = phoneName

namespace Commit

/-- The save pairs the key. -/
def Pairs (x : Commit) (clientSpki : SpkiHash) : Prop :=
  ∃ e ∈ x.edits, ∃ new : PairingRecord, e = .change (.pair new) ∧ new.clientSpki = clientSpki

/-- The save revokes the key, and no later one pairs it anew. -/
def Revokes (x : Commit) (later : List Commit) (clientSpki : SpkiHash) : Prop :=
  (∀ y ∈ later, ¬ y.Pairs clientSpki) ∧
    match x.saver with
    | .command (.revoke phoneName) => KnownAs phoneName clientSpki x.contents
    | .command .uninstallRevokeBroadcast => True
    | _ => False

/-- The contents include the change of the save, as far as no later one has taken it
back: the revoked keys are not live, and the time of the credential prompt is no
earlier. -/
structure IncludedIn (x : Commit) (later : List Commit) (c : KeystoreContents) : Prop where
  revoked : ∀ clientSpki, x.Revokes later clientSpki → ¬ c.HasActive clientSpki
  authenticated : x.saver = .command .reauthNow →
    x.contents.lastAuthenticatedAtUnixMs ≤ c.lastAuthenticatedAtUnixMs

/-- The save is noticed: the contents in the memory of a running server include the
change already, and in place of the file come contents in which no key is live that was
not, unless it is the one that is paired, and no earlier time. -/
structure Noticed (x : Commit) : Prop where
  inMemory : ∀ held, x.world.server = some held → x.IncludedIn [] held
  live : ∀ found, x.world.file = some found → ∀ clientSpki, x.contents.HasActive clientSpki →
    found.HasActive clientSpki ∨ x.Pairs clientSpki
  authenticated : ∀ found, x.world.file = some found →
    found.lastAuthenticatedAtUnixMs ≤ x.contents.lastAuthenticatedAtUnixMs

end Commit

/-- What a later save takes back is not included any more. -/
theorem Commit.IncludedIn.later {x y : Commit} {later : List Commit} {c : KeystoreContents}
    (h : x.IncludedIn later c) : x.IncludedIn (y :: later) c where
  revoked clientSpki hrevokes :=
    h.revoked clientSpki ⟨fun z hz => hrevokes.1 z (List.mem_cons_of_mem y hz), hrevokes.2⟩
  authenticated := h.authenticated

/-- An update of the shared contents takes nothing back. -/
theorem Commit.IncludedIn.update {x : Commit} {later : List Commit} {c : KeystoreContents}
    (h : x.IncludedIn later c) (u : Update) : x.IncludedIn later (u.apply c) where
  revoked clientSpki hrevokes hactive := h.revoked clientSpki hrevokes (hasActive_of_update hactive)
  authenticated hsaver := by cases u <;> exact h.authenticated hsaver

/-- A noticed save takes nothing back but what it pairs anew. -/
theorem Commit.IncludedIn.saved {x y : Commit} {later : List Commit} {found : KeystoreContents}
    (h : x.IncludedIn later found) (hy : y.Noticed) (hfound : y.world.file = some found) :
    x.IncludedIn (y :: later) y.contents where
  revoked clientSpki hrevokes hactive := by
    rcases hy.live found hfound clientSpki hactive with hlive | hpairs
    · exact h.later.revoked clientSpki hrevokes hlive
    · exact hrevokes.1 y List.mem_cons_self hpairs
  authenticated hsaver := UInt64.le_trans (h.authenticated hsaver) (hy.authenticated found hfound)

/-- What is read back includes what the contents include. -/
theorem Commit.IncludedIn.reloaded {x : Commit} {later : List Commit} {c : KeystoreContents}
    (h : x.IncludedIn later c) : x.IncludedIn later c.reloaded where
  revoked clientSpki hrevokes hactive :=
    h.revoked clientSpki hrevokes (KeystoreContents.hasActive_reloaded.mp hactive)
  authenticated := h.authenticated

/-- A save includes its own change. -/
theorem Commit.included_self {x : Commit} (hmade : x.Made) : x.IncludedIn [] x.contents where
  revoked clientSpki hrevokes hactive := by
    obtain ⟨p, hp, hlive, hspki⟩ := hactive
    obtain ⟨-, hsaver⟩ := hrevokes
    split at hsaver
    · next phoneName heq =>
        have hname := hsaver p hp hspki
        rw [hmade.contents_eq, hmade.edits_eq _ heq] at hp
        obtain ⟨q, hq, rfl⟩ := List.mem_map.mp hp
        by_cases hq' : q.phoneName = phoneName
        · simp [hq', PairingRecord.markRevoked] at hlive
        · rw [if_neg hq'] at hname
          exact hq' hname
    · next heq =>
        rw [hmade.contents_eq, hmade.edits_eq _ heq] at hp
        obtain ⟨q, hq, rfl⟩ := List.mem_map.mp hp
        simp [PairingRecord.markRevoked] at hlive
    · exact hsaver
  authenticated _ := UInt64.le_refl _

/-! ## What every step keeps -/

/-- Where the changes of all saves are included: in the file, in the memory of the
server, and in what connections have read that were accepted after the save. -/
structure PickedUp (r : Recorded) : Prop where
  file : ∀ later x earlier, r.ledger.commits = later ++ x :: earlier →
    ∀ c, r.host.world.file = some c → x.IncludedIn later c
  memory : ∀ later x earlier, r.ledger.commits = later ++ x :: earlier →
    ∀ c, r.host.world.server = some c → x.IncludedIn later c
  started : ∀ i, r.ledger.startedAt i ≤ r.ledger.commits.length
  read : ∀ i t, r.host.threads[i]? = some t → t.kind.isConnection = true →
    ∀ later x earlier, r.ledger.commits = later ++ x :: earlier →
      earlier.length < r.ledger.startedAt i →
        ∀ c : KeystoreContents, ⟨.snapshot, c⟩ ∈ t.done → x.IncludedIn later c

section PickedUp

variable {extractSpkiHash : Bytes → Except Crypto.Error SpkiHash}
  {file : Option KeystoreContents} {r : Recorded}

theorem pickedUp_initial : PickedUp (Recorded.initial file) where
  file := by simp [Recorded.initial, Ledger.empty]
  memory := by simp [Recorded.initial, Ledger.empty]
  started := by simp [Recorded.initial, Ledger.empty]
  read := by simp [Recorded.initial, Ledger.empty]

/-- An operation that saves nothing: what is left to show is about the memory of the
server and about what was read. -/
private theorem pickedUp_perform (hr : PickedUp r) {i : ℕ} {t t' : DaemonThread}
    {answer : (o : Op) → Option (Ans o × World)} {e : TaskEvent} {w : World}
    (ht : r.host.threads[i]? = some t) (hthread : t.perform answer = some (e, t', w))
    {l : Ledger} (hcommits : l.commits = r.ledger.commits)
    (hstarted : l.startedAt = r.ledger.startedAt) (hfile : w.file = r.host.world.file)
    (hmemory : ∀ later x earlier, r.ledger.commits = later ++ x :: earlier →
      ∀ c, w.server = some c → x.IncludedIn later c)
    (hread : ∀ c : KeystoreContents, e = ⟨.snapshot, c⟩ → r.host.world.server = some c) :
    PickedUp ⟨⟨w, r.host.threads.set i t'⟩, l⟩ := by
  obtain ⟨k, -, -, hafter⟩ := Thread.perform_eq_some hthread
  refine ⟨?_, ?_, ?_, ?_⟩
  · intro later x earlier hsplit c hc
    exact hr.file later x earlier (hcommits ▸ hsplit) c (hfile ▸ hc)
  · intro later x earlier hsplit c hc
    exact hmemory later x earlier (hcommits ▸ hsplit) c hc
  · intro j
    simp only [hcommits, hstarted]
    exact hr.started j
  · intro j t₁ ht₁ hconnection later x earlier hsplit hstart c hc
    simp only [hcommits, hstarted] at hsplit hstart
    rcases getElem?_set_cases ht₁ with ⟨rfl, rfl⟩ | ⟨-, hold⟩
    · rw [hafter] at hc hconnection
      rcases List.mem_append.mp hc with hdone | hnew
      · exact hr.read j t ht hconnection later x earlier hsplit hstart c hdone
      · exact hr.memory later x earlier hsplit c (hread c (List.mem_singleton.mp hnew).symm)
    · exact hr.read j t₁ hold hconnection later x earlier hsplit hstart c hc

/-- The contents are saved, and the save is noticed. -/
private theorem pickedUp_save (hr : PickedUp r) (hbalanced : Balanced extractSpkiHash file r)
    {i : ℕ} {t t' : DaemonThread} {answer : (o : Op) → Option (Ans o × World)}
    {c : KeystoreContents} (hthread : t.perform answer =
      some (⟨.saveFile c, Except.ok ()⟩, t', { r.host.world with file := some c.reloaded }))
    (ht : r.host.threads[i]? = some t)
    (hmade : (r.ledger.commit i t r.host.world c).Made)
    (hnoticed : (r.ledger.commit i t r.host.world c).Noticed) :
    PickedUp ⟨⟨{ r.host.world with file := some c.reloaded }, r.host.threads.set i t'⟩,
      r.ledger.afterEvent i t r.host.world ⟨.saveFile c, Except.ok ()⟩⟩ := by
  obtain ⟨k, -, -, hafter⟩ := Thread.perform_eq_some hthread
  let y := r.ledger.commit i t r.host.world c
  -- the new save, or an older one
  have hcases : ∀ {later x earlier}, y :: r.ledger.commits = later ++ x :: earlier →
      (later = [] ∧ x = y ∧ earlier = r.ledger.commits) ∨
        ∃ later', later = y :: later' ∧ r.ledger.commits = later' ++ x :: earlier := by
    intro later x earlier hsplit
    cases later with
    | nil =>
        obtain ⟨rfl, rfl⟩ := List.cons.inj hsplit
        exact .inl ⟨rfl, rfl, rfl⟩
    | cons z later' =>
        obtain ⟨rfl, hrest⟩ := List.cons.inj hsplit
        exact .inr ⟨later', rfl, hrest⟩
  refine ⟨?_, ?_, ?_, ?_⟩
  · intro later x earlier hsplit c' hc'
    rw [Ledger.afterEvent_saved] at hsplit
    obtain rfl := Option.some.inj hc'
    rcases hcases hsplit with ⟨rfl, rfl, rfl⟩ | ⟨later', rfl, hold⟩
    · simpa [y] using (Commit.included_self hmade).reloaded
    · obtain ⟨found, hfound⟩ : ∃ found, r.host.world.file = some found := by
        rw [hbalanced.file_eq, hold]
        cases later' <;> exact ⟨_, rfl⟩
      have hsaved := (hr.file later' x earlier hold found hfound).saved hnoticed
        (by simpa using hfound)
      simpa [y] using hsaved.reloaded
  · intro later x earlier hsplit held hheld
    rw [Ledger.afterEvent_saved] at hsplit
    rcases hcases hsplit with ⟨rfl, rfl, rfl⟩ | ⟨later', rfl, hold⟩
    · exact hnoticed.inMemory held (by simpa using hheld)
    · exact (hr.memory later' x earlier hold held hheld).later
  · intro j
    rw [Ledger.afterEvent_saved, Ledger.afterEvent_startedAt]
    exact Nat.le_succ_of_le (hr.started j)
  · intro j t₁ ht₁ hconnection later x earlier hsplit hstart c' hc'
    rw [Ledger.afterEvent_saved] at hsplit
    rw [Ledger.afterEvent_startedAt] at hstart
    rcases hcases hsplit with ⟨rfl, rfl, rfl⟩ | ⟨later', rfl, hold⟩
    · exact absurd hstart (Nat.not_lt.mpr (hr.started j))
    · rcases getElem?_set_cases ht₁ with ⟨rfl, rfl⟩ | ⟨-, hother⟩
      · rw [hafter] at hc' hconnection
        rcases List.mem_append.mp hc' with hdone | hnew
        · exact (hr.read j t ht hconnection later' x earlier hold hstart c' hdone).later
        · cases List.mem_singleton.mp hnew
      · exact (hr.read j t₁ hother hconnection later' x earlier hold hstart c' hc').later

/-- The changes stay included after a step, when the saves are noticed. -/
theorem pickedUp_step {r' : Recorded} {a : Action} (hr : PickedUp r)
    (hbalanced : Balanced extractSpkiHash file r)
    (hnoticed : ∀ x ∈ r'.ledger.commits, x.Noticed)
    (hstep : r.step extractSpkiHash a = some r') : PickedUp r' := by
  have hbalanced' := balanced_step hbalanced hstep
  cases Recorded.stepped_of_step hstep with
  | start hserver hfile =>
      refine ⟨hr.file, ?_, hr.started, hr.read⟩
      intro later x earlier hsplit c hc
      obtain rfl := Option.some.inj hc
      exact hr.file later x earlier hsplit _ hfile
  | stop =>
      refine ⟨hr.file, by simp, hr.started, ?_⟩
      intro i t ht hconnection later x earlier hsplit hstart c hc
      rw [List.getElem?_map] at ht
      obtain ⟨t₀, ht₀, rfl⟩ := Option.map_eq_some_iff.mp ht
      have hsame : (endConnection t₀).done = t₀.done ∧ (endConnection t₀).kind = t₀.kind := by
        unfold endConnection
        split <;> exact ⟨rfl, rfl⟩
      rw [hsame.1] at hc
      rw [hsame.2] at hconnection
      exact hr.read i t₀ ht₀ hconnection later x earlier hsplit hstart c hc
  | thread kind halive =>
      refine ⟨hr.file, hr.memory, fun i => ?_, ?_⟩
      · simp only [Ledger.afterStart]
        split
        · exact Nat.le_refl _
        · exact hr.started i
      · intro i t ht hconnection later x earlier hsplit hstart c hc
        rcases getElem?_concat_cases ht with hold | ⟨-, rfl⟩
        · have hne : i ≠ r.host.threads.length := by
            have := (List.getElem?_eq_some_iff.mp hold).1
            omega
          simp only [Ledger.afterStart, if_neg hne] at hstart
          exact hr.read i t hold hconnection later x earlier hsplit hstart c hc
        · simp [Kind.thread] at hc
  | @perform i t t' answer e w ht hthread heffect =>
      cases heffect with
      | snapshot hserver =>
          refine pickedUp_perform hr ht hthread rfl (Ledger.afterEvent_startedAt _ _ _ _ _) rfl
            hr.memory fun c heq => ?_
          cases heq
          exact hserver
      | @write c u hserver =>
          refine pickedUp_perform hr ht hthread ?_ (Ledger.afterEvent_startedAt _ _ _ _ _) rfl
            ?_ fun c heq => by cases heq
          · simp only [Ledger.afterEvent]
            split <;> rfl
          · intro later x earlier hsplit c' hc'
            obtain rfl := Option.some.inj hc'
            exact (hr.memory later x earlier hsplit c hserver).update u
      | saved c =>
          have hmem : r.ledger.commit i t r.host.world c ∈
              (r.ledger.afterEvent i t r.host.world ⟨.saveFile c, Except.ok ()⟩).commits := by
            rw [Ledger.afterEvent_saved]
            exact List.mem_cons_self
          exact pickedUp_save hr hbalanced hthread ht (hbalanced'.commits _ hmem) (hnoticed _ hmem)
      | loaded =>
          exact pickedUp_perform hr ht hthread rfl rfl rfl hr.memory fun c heq => by cases heq
      | loadFailed e =>
          exact pickedUp_perform hr ht hthread rfl rfl rfl hr.memory fun c heq => by cases heq
      | saveFailed c e =>
          exact pickedUp_perform hr ht hthread rfl rfl rfl hr.memory fun c heq => by cases heq
      | other hother hpeer =>
          have hsame : r.ledger.afterEvent i t r.host.world e = r.ledger := by
            obtain ⟨o, ans⟩ := e
            cases o <;> first | rfl | simp [Op.isShared] at hother
          rw [hsame]
          refine pickedUp_perform hr ht hthread rfl rfl rfl hr.memory fun c heq => ?_
          rw [heq] at hother
          simp [Op.isShared] at hother

/-- The changes of all saves are included in every run whose saves are noticed. -/
theorem pickedUp_of_steps {actions : List Action}
    (hsteps : takeSteps (Recorded.step extractSpkiHash) (Recorded.initial file) actions = some r)
    (hnoticed : ∀ x ∈ r.ledger.commits, x.Noticed) : PickedUp r := by
  have hrun := takeSteps_invariant
    (fun r => Balanced extractSpkiHash file r ∧
      ((∀ x ∈ r.ledger.commits, x.Noticed) → PickedUp r))
    (fun r a r' hr hstep => ⟨balanced_step hr.1 hstep, fun hall =>
      pickedUp_step (hr.2 fun x hx => hall x (Recorded.commits_subset hstep hx)) hr.1 hall hstep⟩)
    ⟨balanced_initial, fun _ => pickedUp_initial⟩ hsteps
  exact hrun.2 hnoticed

/-! ## All runs -/

/-- In every run whose saves are all noticed, whatever a connection has read of the
contents includes the changes that were saved before it was accepted; a phone that such
a save has revoked does not pass both checks. -/
theorem changes_picked_up {actions : List Action}
    (hsteps : takeSteps (Recorded.step extractSpkiHash) (Recorded.initial file) actions = some r)
    (hnoticed : ∀ x ∈ r.ledger.commits, x.Noticed) {i : ℕ} {t : DaemonThread}
    (ht : r.host.threads[i]? = some t) (hconnection : t.kind.isConnection = true)
    {later earlier : List Commit} {x : Commit} (hsplit : r.ledger.commits = later ++ x :: earlier)
    (haccepted : earlier.length < r.ledger.startedAt i) :
    (∀ c : KeystoreContents, ⟨.snapshot, c⟩ ∈ t.done → x.IncludedIn later c) ∧
      ∀ peerSpki pinned checked, AdmittedBy extractSpkiHash peerSpki pinned checked t.done →
        ¬ x.Revokes later peerSpki := by
  have hread := (pickedUp_of_steps hsteps hnoticed).read i t ht hconnection later x earlier hsplit
    haccepted
  refine ⟨hread, ?_⟩
  rintro peerSpki pinned checked ⟨certs, rest, hdone, -, hactive⟩ hrevokes
  have hchecked : (⟨.snapshot, checked⟩ : TaskEvent) ∈ t.done := by
    rw [hdone]
    simp
  exact (hread checked hchecked).revoked peerSpki hrevokes hactive

end PickedUp

/-! ## Two runs -/

/-- A phone is revoked before the server starts, and connects. -/
def revokedBeforeServing : List Action :=
  [.launch (.revoke livePairing.phoneName)] ++ performs 0 2 ++
    [.start, .accept [[]] phoneAddress 1 1] ++ performs 1 2

/-- A server that starts after the revocation knows of it. -/
theorem revocation_picked_up :
    ∃ r t x, takeSteps (Recorded.step phoneSpki) (Recorded.initial (some pairedContents))
        revokedBeforeServing = some r ∧ r.host.threads[1]? = some t ∧ t.done.length = 2 ∧
      r.ledger.commits = [x] ∧
      (∀ c : KeystoreContents, ⟨.snapshot, c⟩ ∈ t.done → x.IncludedIn [] c) ∧
        ∀ peerSpki pinned checked, AdmittedBy phoneSpki peerSpki pinned checked t.done →
          ¬ x.Revokes [] peerSpki := by
  let revoke := Change.revoke livePairing.phoneName
  let x : Commit := ⟨.command (.revoke livePairing.phoneName), ⟨some pairedContents, none⟩,
    pairedContents, [.change revoke], revoke.apply pairedContents⟩
  have hrun : ((takeSteps (Recorded.step phoneSpki) (Recorded.initial (some pairedContents))
      revokedBeforeServing).map fun r => (r.ledger.commits, r.ledger.startedAt 1,
        (r.host.threads[1]?).map fun t => (t.kind.isConnection, t.done.length))) =
      some ([x], 1, some (true, 2)) := rfl
  obtain ⟨r, hr, hview⟩ := Option.map_eq_some_iff.mp hrun
  obtain ⟨hcommits, hview⟩ := Prod.mk.inj hview
  obtain ⟨hstarted, hthread⟩ := Prod.mk.inj hview
  obtain ⟨t, ht, hkind⟩ := Option.map_eq_some_iff.mp hthread
  obtain ⟨hconnection, hlength⟩ := Prod.mk.inj hkind
  have hnoticed : ∀ y ∈ r.ledger.commits, y.Noticed := by
    intro y hy
    rw [hcommits] at hy
    obtain rfl := List.mem_singleton.mp hy
    refine ⟨fun held hheld => ?_, fun found hfound clientSpki hactive => ?_, fun found hfound => ?_⟩
    · simp [x] at hheld
    · obtain ⟨p, hp, hlive, -⟩ := hactive
      obtain rfl := List.mem_singleton.mp hp
      simp [livePairing, PairingRecord.markRevoked] at hlive
    · obtain rfl := Option.some.inj hfound
      exact UInt64.le_refl _
  have hsplit : r.ledger.commits = [] ++ x :: [] := hcommits
  have haccepted : ([] : List Commit).length < r.ledger.startedAt 1 := by
    rw [hstarted]
    exact Nat.one_pos
  exact ⟨r, t, x, hr, ht, hlength, hcommits,
    changes_picked_up hr hnoticed ht hconnection hsplit haccepted⟩

/-- A phone that is revoked while the server runs, and then connects, passes both
checks. -/
theorem revocation_not_picked_up :
    ∃ r t x later, takeSteps (Recorded.step phoneSpki)
        (Recorded.initial (some pairedContents)) revokedWhileServing = some r ∧
      r.host.threads[1]? = some t ∧ t.kind.isConnection = true ∧
      r.ledger.commits = later ++ [x] ∧ r.ledger.startedAt 1 = 1 ∧ x.Revokes later phoneKey ∧
      ∃ pinned checked, AdmittedBy phoneSpki phoneKey pinned checked t.done := by
  let revoke := Change.revoke livePairing.phoneName
  let revocation : Commit := ⟨.command (.revoke livePairing.phoneName),
    ⟨some pairedContents, some pairedContents⟩, pairedContents, [.change revoke],
    revoke.apply pairedContents⟩
  let address := Update.lastKnownAddress phoneKey phoneAddress
  let stored : Commit := ⟨.connection [[]] phoneAddress 1 1,
    ⟨some (revoke.apply pairedContents), some (address.apply pairedContents)⟩, pairedContents,
    [.update address], address.apply pairedContents⟩
  have hrun : ((takeSteps (Recorded.step phoneSpki) (Recorded.initial (some pairedContents))
      revokedWhileServing).map fun r => (r.ledger.commits, r.ledger.startedAt 1,
        (r.host.threads[1]?).map fun t => (t.kind.isConnection, t.done))) =
      some ([stored, revocation], 1, some (true,
        [⟨.snapshot, pairedContents⟩,
          ⟨.handshake (.pinned (activePins pairedContents)), Except.ok ()⟩,
          ⟨.peerCertificates, some [[]]⟩, ⟨.snapshot, pairedContents⟩,
          ⟨.write address, true⟩, ⟨.snapshot, address.apply pairedContents⟩,
          ⟨.saveFile (address.apply pairedContents), Except.ok ()⟩])) := rfl
  obtain ⟨r, hr, hview⟩ := Option.map_eq_some_iff.mp hrun
  obtain ⟨hcommits, hview⟩ := Prod.mk.inj hview
  obtain ⟨hstarted, hthread⟩ := Prod.mk.inj hview
  obtain ⟨t, ht, hkind⟩ := Option.map_eq_some_iff.mp hthread
  obtain ⟨hconnection, hdone⟩ := Prod.mk.inj hkind
  refine ⟨r, t, revocation, [stored], hr, ht, hconnection, hcommits, hstarted, ⟨?_, ?_⟩,
    pairedContents, pairedContents, some [[]], _, hdone, rfl, by decide⟩
  · intro y hy
    obtain rfl := List.mem_singleton.mp hy
    rintro ⟨e, he, new, rfl, -⟩
    simp [stored] at he
  · intro p hp _
    obtain rfl := List.mem_singleton.mp hp
    rfl

end Daemon
end WakeMyPc
