import WakeMyPc.Daemon.Authorization
import WakeMyPc.Foundations.Interpretation

/-!
# The phones that a running server serves

A connection checks its peer twice: in the TLS handshake against the pins of the phones
that are active when it is accepted, and afterwards against the contents at that time.
What the server itself writes leaves the active phones as they are.

Main results:

- Theorem `phones_fixed_while_serving`: while a server runs, its active phones are those
  that it started with.
- Theorem `never_refused`: a peer that passes the first check passes the second one.
-/

namespace WakeMyPc
namespace Daemon

open Foundations
open Protocol (SpkiHash)

/-! ## Active phones -/

/-- The same keys are active. -/
def SamePhones (c c' : KeystoreContents) : Prop :=
  ∀ spki, c.HasActive spki ↔ c'.HasActive spki

theorem SamePhones.refl (c : KeystoreContents) : SamePhones c c :=
  fun _ => Iff.rfl

theorem SamePhones.symm {c c' : KeystoreContents} (h : SamePhones c c') : SamePhones c' c :=
  fun spki => (h spki).symm

theorem SamePhones.trans {c c' c'' : KeystoreContents} (h : SamePhones c c')
    (h' : SamePhones c' c'') : SamePhones c c'' :=
  fun spki => (h spki).trans (h' spki)

theorem mem_setLastKnownAddress {peerSpki : SpkiHash} {peerAddr : SocketAddr}
    {ps : List PairingRecord} {p : PairingRecord} (hp : p ∈ ps) :
    ∃ q ∈ (setLastKnownAddress peerSpki peerAddr ps).2,
      q.revoked = p.revoked ∧ q.clientSpki = p.clientSpki := by
  induction ps with
  | nil => cases hp
  | cons p' ps ih =>
      simp only [setLastKnownAddress]
      split
      · rcases List.mem_cons.mp hp with rfl | hp
        · exact ⟨_, List.mem_cons_self, rfl, rfl⟩
        · exact ⟨p, List.mem_cons_of_mem _ hp, rfl, rfl⟩
      · rcases List.mem_cons.mp hp with rfl | hp
        · exact ⟨p, List.mem_cons_self, rfl, rfl⟩
        · obtain ⟨q, hq, hsame⟩ := ih hp
          exact ⟨q, List.mem_cons_of_mem _ hq, hsame⟩

/-- An update of the shared contents makes no key active, and takes no active key out. -/
theorem samePhones_update (u : Update) (c : KeystoreContents) : SamePhones c (u.apply c) := by
  refine fun spki => ⟨?_, hasActive_of_update⟩
  rintro ⟨p, hp, hrevoked, hspki⟩
  cases u with
  | lastKnownAddress peerSpki peerAddr =>
      obtain ⟨q, hq, hqrevoked, hqspki⟩ := mem_setLastKnownAddress hp
      exact ⟨q, hq, hqrevoked.trans hrevoked, hqspki.trans hspki⟩
  | reauthInterval newDays => exact ⟨p, hp, hrevoked, hspki⟩
  | removeRevoked peerSpki =>
      exact ⟨p, List.mem_filter.mpr ⟨hp, by simp [hrevoked]⟩, hrevoked, hspki⟩

section Phones

variable {extractSpkiHash : Bytes → Except Crypto.Error SpkiHash}

/-- No effect of an operation changes the active phones of the server. -/
theorem samePhones_of_effect {kind : Kind} {w w' : World} {e : TaskEvent}
    (heffect : Effect extractSpkiHash kind w e w') {c : KeystoreContents}
    (hserver : w.server = some c) : ∃ c', w'.server = some c' ∧ SamePhones c c' := by
  cases heffect with
  | write u hserver' =>
      obtain rfl := Option.some.inj (hserver.symm.trans hserver')
      exact ⟨_, rfl, samePhones_update u c⟩
  | _ => exact ⟨c, hserver, .refl c⟩

/-- Nor does any step, unless the server ends. -/
theorem samePhones_of_step {h h' : Host} {a : Action}
    (hstep : h.step extractSpkiHash a = some h') (hstop : a ≠ .stop) {c : KeystoreContents}
    (hserver : h.world.server = some c) : ∃ c', h'.world.server = some c' ∧ SamePhones c c' := by
  cases Host.stepped_of_step hstep with
  | start hnone _ =>
      rw [hnone] at hserver
      cases hserver
  | stop => exact absurd rfl hstop
  | accept _ _ _ _ _ => exact ⟨c, hserver, .refl c⟩
  | launch _ => exact ⟨c, hserver, .refl c⟩
  | perform _ _ heffect => exact samePhones_of_effect heffect hserver

/-- While a server runs, its active phones are those that it started with, whatever its
connections and the subcommands do. -/
theorem phones_fixed_while_serving {h h' : Host} {actions : List Action} {c : KeystoreContents}
    (hserver : h.world.server = some c) (hstop : Action.stop ∉ actions)
    (hsteps : takeSteps (Host.step extractSpkiHash) h actions = some h') :
    ∃ c', h'.world.server = some c' ∧ SamePhones c c' := by
  induction actions generalizing h c with
  | nil => exact ⟨c, Option.some.inj hsteps ▸ hserver, .refl c⟩
  | cons a actions ih =>
      obtain ⟨hfirst, hlater⟩ := not_or.mp (mt List.mem_cons.mpr hstop)
      obtain ⟨h₁, hstep, hrest⟩ := takeSteps_cons hsteps
      obtain ⟨c₁, hserver₁, hsame⟩ := samePhones_of_step hstep (Ne.symm hfirst) hserver
      obtain ⟨c', hserver', hsame'⟩ := ih hserver₁ hlater hrest
      exact ⟨c', hserver', hsame.trans hsame'⟩

end Phones

/-- A phone that locks the PC leaves the active phones as they are. -/
theorem phones_fixed_while_locking :
    ∃ h c, takeSteps (Host.step phoneSpki)
      ⟨⟨some pairedContents, some pairedContents⟩, []⟩ lockActions.tail = some h ∧
      h.world.server = some c ∧ SamePhones pairedContents c := by
  have hsome : (takeSteps (Host.step phoneSpki)
      ⟨⟨some pairedContents, some pairedContents⟩, []⟩ lockActions.tail).isSome := rfl
  obtain ⟨h, hsteps⟩ := Option.isSome_iff_exists.mp hsome
  have hstop : Action.stop ∉ lockActions.tail := by simp [lockActions]
  obtain ⟨c, hserver, hsame⟩ := phones_fixed_while_serving rfl hstop hsteps
  exact ⟨h, c, hsteps, hserver, hsame⟩

/-! ## What connections see of the phones -/

section Phones

variable {extractSpkiHash : Bytes → Except Crypto.Error SpkiHash}

/-- All that a connection has read has the same active phones, and so have the contents
now, unless the connection has ended. -/
structure SeesPhones (w : World) (t : DaemonThread) : Prop where
  same : ∀ {c c'}, ⟨.snapshot, c⟩ ∈ t.done → ⟨.snapshot, c'⟩ ∈ t.done → SamePhones c c'
  now : t.rest = .stall ∨ ∀ {c}, ⟨.snapshot, c⟩ ∈ t.done →
    ∃ s, w.server = some s ∧ SamePhones c s

theorem SeesPhones.world {w w' : World} {t : DaemonThread} (h : SeesPhones w t)
    (hworld : ∀ {s}, w.server = some s → ∃ s', w'.server = some s' ∧ SamePhones s s') :
    SeesPhones w' t where
  same := h.same
  now := by
    refine h.now.imp_right fun hnow c hc => ?_
    obtain ⟨s, hs, hsame⟩ := hnow hc
    obtain ⟨s', hs', hsame'⟩ := hworld hs
    exact ⟨s', hs', hsame.trans hsame'⟩

/-- An operation of a connection shows it the same phones again. -/
theorem SeesPhones.perform {w w' : World} {t t' : DaemonThread} {e : TaskEvent}
    (h : SeesPhones w t) {answer : (o : Op) → Option (Ans o × World)}
    (hperform : t.perform answer = some (e, t', w'))
    (heffect : Effect extractSpkiHash t.kind w e w') : SeesPhones w' t' := by
  obtain ⟨k, hrest, -, rfl⟩ := Thread.perform_eq_some hperform
  have hold : ∀ {c}, ⟨.snapshot, c⟩ ∈ t.done → ∃ s, w.server = some s ∧ SamePhones c s :=
    h.now.resolve_left (by rw [hrest]; simp)
  have hnew : ∀ {c}, ⟨.snapshot, c⟩ ∈ t.done ++ [e] → ⟨.snapshot, c⟩ ∈ t.done ∨
      w.server = some c := by
    intro c hc
    rcases List.mem_append.mp hc with hc | hc
    · exact .inl hc
    · obtain rfl := List.mem_singleton.mp hc
      cases heffect with
      | snapshot hserver => exact .inr hserver
      | other hother _ => cases hother
  refine ⟨fun {c c'} hc hc' => ?_, .inr fun {c} hc => ?_⟩
  · rcases hnew hc with hc | hc <;> rcases hnew hc' with hc' | hc'
    · exact h.same hc hc'
    · obtain ⟨s, hs, hsame⟩ := hold hc
      obtain rfl := Option.some.inj (hs.symm.trans hc')
      exact hsame
    · obtain ⟨s, hs, hsame⟩ := hold hc'
      obtain rfl := Option.some.inj (hs.symm.trans hc)
      exact hsame.symm
    · obtain rfl := Option.some.inj (hc.symm.trans hc')
      exact .refl c
  · rcases hnew hc with hc | hc
    · obtain ⟨s, hs, hsame⟩ := hold hc
      obtain ⟨s', hs', hsame'⟩ := samePhones_of_effect heffect hs
      exact ⟨s', hs', hsame.trans hsame'⟩
    · exact samePhones_of_effect heffect hc

/-- What connections see of the phones stays so with every step. -/
theorem seesPhones_of_step {h h' : Host} {a : Action}
    (hall : ∀ t ∈ h.threads, t.kind.isConnection = true → SeesPhones h.world t)
    (hstep : h.step extractSpkiHash a = some h') :
    ∀ t ∈ h'.threads, t.kind.isConnection = true → SeesPhones h'.world t := by
  cases Host.stepped_of_step hstep with
  | start hnone _ =>
      intro t ht hconnection
      refine (hall t ht hconnection).world fun hs => ?_
      rw [hnone] at hs
      cases hs
  | stop =>
      intro t ht hconnection
      obtain ⟨t₀, ht₀, rfl⟩ := List.mem_map.mp ht
      by_cases hended : t₀.kind.isConnection = true
      · rw [endConnection, if_pos hended]
        exact ⟨(hall t₀ ht₀ hended).same, .inl rfl⟩
      · rw [endConnection, if_neg hended] at hconnection
        exact absurd hconnection hended
  | accept _ certs peerAddr rounds reads =>
      intro t ht hconnection
      rcases List.mem_append.mp ht with hold | hnew
      · exact hall t hold hconnection
      · obtain rfl := List.mem_singleton.mp hnew
        exact ⟨fun hc => (List.not_mem_nil hc).elim, .inr fun hc => (List.not_mem_nil hc).elim⟩
  | launch command =>
      intro t ht hconnection
      rcases List.mem_append.mp ht with hold | hnew
      · exact hall t hold hconnection
      · obtain rfl := List.mem_singleton.mp hnew
        cases hconnection
  | @perform i outside t t' e w ht hthread heffect =>
      intro t₁ ht₁ hconnection
      rcases List.mem_or_eq_of_mem_set ht₁ with hold | rfl
      · exact (hall t₁ hold hconnection).world fun hs => samePhones_of_effect heffect hs
      · have hkind : t₁.kind = t.kind := by
          obtain ⟨k, -, -, hafter⟩ := Thread.perform_eq_some hthread
          rw [hafter]
        rw [hkind] at hconnection
        exact (hall t (List.mem_of_getElem? ht) hconnection).perform hthread heffect

theorem seesPhones_of_steps {file : Option KeystoreContents} {h : Host} {actions : List Action}
    (hsteps : takeSteps (Host.step extractSpkiHash) (Host.initial file) actions = some h) :
    ∀ t ∈ h.threads, t.kind.isConnection = true → SeesPhones h.world t := by
  refine takeSteps_invariant
    (fun h : Host => ∀ t ∈ h.threads, t.kind.isConnection = true → SeesPhones h.world t)
    (fun h a h' hall hstep => seesPhones_of_step hall hstep) ?_ hsteps
  simp [Host.initial]

/-! ## The second check -/

/-- Every thread of a run has performed part of its program. -/
theorem follows_of_steps {file : Option KeystoreContents} {h : Host} {actions : List Action}
    (hsteps : takeSteps (Host.step extractSpkiHash) (Host.initial file) actions = some h) :
    ∀ t ∈ h.threads, t.Follows (t.kind.program extractSpkiHash) := by
  refine Host.threads_of_steps (T := fun t => t.Follows (t.kind.program extractSpkiHash))
    ?_ ?_ ?_ hsteps
  · intro kind
    exact ⟨Prog.performs_nil _, .inr (Prog.leads_nil.mpr rfl)⟩
  · intro t t' answer w w' e ht hperform _
    have hkind : t'.kind = t.kind := by
      obtain ⟨k, -, -, hafter⟩ := Thread.perform_eq_some hperform
      rw [hafter]
    rw [hkind]
    exact ht.perform hperform
  · intro t ht
    unfold endConnection
    split
    · exact ⟨ht.1, .inl rfl⟩
    · exact ht

/-- A connection looks at the certificates of its peer after the handshake. -/
theorem handshake_of_performs {rounds reads : ℕ} {peerAddr : SocketAddr} {h : List TaskEvent}
    (hperforms : (void (acceptConnection extractSpkiHash rounds reads peerAddr)).Performs h)
    {certs : Option (List Bytes)} (hcerts : ⟨.peerCertificates, certs⟩ ∈ h) : ∃ pinned rest,
      h = [⟨.snapshot, pinned⟩, ⟨.handshake (.pinned (activePins pinned)), Except.ok ()⟩] ++
        rest := by
  obtain ⟨e₁, h, rfl⟩ := List.exists_cons_of_ne_nil (List.ne_nil_of_mem hcerts)
  obtain ⟨pinned, rfl, hperforms⟩ := hperforms
  have hlater := (List.mem_cons.mp hcerts).resolve_left nofun
  obtain ⟨e₂, h, rfl⟩ := List.exists_cons_of_ne_nil (List.ne_nil_of_mem hlater)
  obtain ⟨result, rfl, hperforms⟩ := hperforms
  have hlast := (List.mem_cons.mp hlater).resolve_left nofun
  obtain ⟨e₃, h, rfl⟩ := List.exists_cons_of_ne_nil (List.ne_nil_of_mem hlast)
  cases result with
  | error e => exact hperforms.elim
  | ok u => exact ⟨pinned, e₃ :: h, rfl⟩

/-- The first four operations of a connection. -/
theorem first_of_performs {rounds reads : ℕ} {peerAddr : SocketAddr} {h : List TaskEvent}
    (hperforms : (void (acceptConnection extractSpkiHash rounds reads peerAddr)).Performs h)
    (hlength : 4 ≤ h.length) : ∃ pinned certs peerSpki checked rest,
      h = [⟨.snapshot, pinned⟩, ⟨.handshake (.pinned (activePins pinned)), Except.ok ()⟩,
        ⟨.peerCertificates, certs⟩, ⟨.snapshot, checked⟩] ++ rest ∧
      leafSpki extractSpkiHash certs = .ok peerSpki := by
  obtain ⟨e₁, h, rfl⟩ := List.exists_cons_of_length_pos (by omega : 0 < h.length)
  obtain ⟨pinned, rfl, hperforms⟩ := hperforms
  obtain ⟨e₂, h, rfl⟩ := List.exists_cons_of_length_pos
    (by simp only [List.length_cons] at hlength; omega : 0 < h.length)
  obtain ⟨result, rfl, hperforms⟩ := hperforms
  obtain ⟨e₃, h, rfl⟩ := List.exists_cons_of_length_pos
    (by simp only [List.length_cons] at hlength; omega : 0 < h.length)
  cases result with
  | error e => exact hperforms.elim
  | ok u =>
      obtain ⟨certs, rfl, hperforms⟩ := hperforms
      obtain ⟨e₄, h, rfl⟩ := List.exists_cons_of_length_pos
        (by simp only [List.length_cons] at hlength; omega : 0 < h.length)
      cases hleaf : leafSpki extractSpkiHash certs with
      | error e =>
          simp only [Prog.bind, Prog.pure_eq, hleaf] at hperforms
          exact hperforms.elim
      | ok peerSpki =>
          simp only [Prog.bind, Prog.pure_eq, hleaf] at hperforms
          obtain ⟨checked, rfl, -⟩ := hperforms
          exact ⟨pinned, certs, peerSpki, checked, h, rfl, hleaf⟩

/-- In every run, a connection that gets as far as the second check passes it: its peer was
active when it was accepted and still is. -/
theorem never_refused {file : Option KeystoreContents} {h : Host} {actions : List Action}
    (hsteps : takeSteps (Host.step extractSpkiHash) (Host.initial file) actions = some h)
    {t : DaemonThread} (ht : t ∈ h.threads) {certs : List Bytes}
    (hcerts : t.kind.certs = some certs) (hlength : 4 ≤ t.done.length) :
    AdmittedPeer extractSpkiHash certs t.done := by
  have hkeeps := threadKeeps_of_steps hsteps t ht
  have hfollows := (follows_of_steps hsteps t ht).1
  have hsees := seesPhones_of_steps hsteps t ht
  unfold ThreadKeeps at hkeeps
  cases hkind : t.kind with
  | command command => simp [hkind, Kind.certs] at hcerts
  | connection presented peerAddr rounds reads =>
      rw [hkind] at hfollows hsees hcerts
      simp only [hkind] at hkeeps
      obtain rfl := Option.some.inj hcerts
      obtain ⟨pinned, leafCerts, peerSpki, checked, rest, hdone, hleaf⟩ :=
        first_of_performs hfollows hlength
      have hpresented : leafCerts = some presented :=
        hkeeps.fromPeer ⟨.peerCertificates, leafCerts⟩ (by simp [hdone])
      -- the handshake was with a phone that was active when the pins were collected
      obtain ⟨leaf, chain, rfl, hverified⟩ := hkeeps.fromPeer
        ⟨.handshake (.pinned (activePins pinned)), Except.ok ()⟩ (by simp [hdone]) rfl
      obtain ⟨pin, hpin, hextract⟩ :=
        (Crypto.verifyClientCert_pinned_iff extractSpkiHash _ leaf).mp hverified
      have hspki : peerSpki = pin := by
        simpa [hpresented, leafSpki, hextract] using hleaf.symm
      have hactive : pinned.HasActive peerSpki := hspki ▸ (mem_activePins pinned pin).mp hpin
      have hsame : SamePhones pinned checked :=
        (hsees rfl).same (by simp [hdone]) (by simp [hdone])
      exact ⟨peerSpki, pinned, checked,
        ⟨leafCerts, rest, hdone, hleaf, (hsame peerSpki).mp hactive⟩, hpresented ▸ hleaf, hactive⟩

end Phones

/-- The paired phone passes both checks. -/
theorem paired_phone_never_refused :
    ∃ h t, takeSteps (Host.step phoneSpki) (Host.initial (some pairedContents)) lockActions =
      some h ∧ t ∈ h.threads ∧ AdmittedPeer phoneSpki [[]] t.done := by
  have hview : ((takeSteps (Host.step phoneSpki) (Host.initial (some pairedContents))
      lockActions).bind fun h => h.threads[0]?.map fun t => (t.kind.certs, t.done.length)) =
        some (some [[]], 10) := rfl
  obtain ⟨h, hsteps, hthread⟩ := Option.bind_eq_some_iff.mp hview
  obtain ⟨t, ht, heq⟩ := Option.map_eq_some_iff.mp hthread
  obtain ⟨hcerts, hlength⟩ := Prod.mk.inj heq
  have hmem := List.mem_of_getElem? ht
  exact ⟨h, t, hsteps, hmem, never_refused hsteps hmem hcerts (by omega)⟩

end Daemon
end WakeMyPc
