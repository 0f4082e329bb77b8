import WakeMyPc.Daemon.ExactlyOnce

/-!
# Revocation while a connection is open

The check that a peer is still paired is made once, before the protocol loop.  The
contents go on changing while the loop runs, and a dispatch reads them but does not
look for the record of its peer.

Main results:

- Theorem `respectsRevocation_iff`: a dispatch of a gated message treats a revoked
  peer as such only when its peer is not revoked.
- Theorem `session_respectsRevocation_iff`: the same for all requests of a session.
-/

namespace WakeMyPc
namespace Daemon

open Foundations
open Foundations.Prog (exec Trace)
open Protocol

/-! ## Contents that other tasks change -/

/-- The shared contents, and the number of operations so far. -/
structure Shared where
  contents : KeystoreContents
  step : ℕ

/-- Answers of an environment in which other holders of the shared contents change
them before each operation, and `outside` answers what is not about them. -/
def sharing (others : ℕ → KeystoreContents → KeystoreContents)
    (outside : ℕ → (o : Op) → Ans o) : Shared → (o : Op) → Ans o × Shared :=
  fun w o =>
    let contents := others w.step w.contents
    match o with
    | .snapshot => (contents, ⟨contents, w.step + 1⟩)
    | .write u => ((u.run contents).1, ⟨u.apply contents, w.step + 1⟩)
    | o => (outside w.step o, ⟨contents, w.step + 1⟩)

/-! ## Gated messages -/

/-- The message commands the PC or changes the re-auth interval. -/
def isGated : ClientFrame → Bool
  | .sleep => true
  | .lock => true
  | .powerOff => true
  | .reauthConfig _ => true
  | _ => false

/-- The contents that a dispatch read. -/
def dispatchSnapshot : List TaskEvent → Option KeystoreContents
  | _ :: ⟨.snapshot, snap⟩ :: _ => some snap
  | _ => none

/-- The error for a peer without a live record. -/
def revocationError (snap : KeystoreContents) (peerSpki : SpkiHash) : ProtocolError :=
  if snap.pairings.any (·.clientSpki == peerSpki) then .revoked else .notPaired

namespace Exchange

/-- The record of the peer is live in the contents that the dispatch read. -/
def StillPaired (x : Exchange) (peerSpki : SpkiHash) : Prop :=
  ∃ snap, dispatchSnapshot x.events = some snap ∧ snap.HasActive peerSpki

/-- The request is refused as one of a revoked peer, and nothing is done. -/
def RefusedAsRevoked (x : Exchange) (peerSpki : SpkiHash) : Prop :=
  ∃ snap, dispatchSnapshot x.events = some snap ∧
    x.response = .error x.nonce (revocationError snap peerSpki) ∧
    ∀ e ∈ x.events, e.op.isCommand = false ∧ e.op.changesContents = false

/-- A gated request of a peer that is not paired any more is refused. -/
def RespectsRevocation (x : Exchange) (peerSpki : SpkiHash) : Prop :=
  isGated x.frame = true → x.StillPaired peerSpki ∨ x.RefusedAsRevoked peerSpki

end Exchange

/-- An error in answer to a gated message says that a credential prompt is due or that
a call failed. -/
theorem errorCode_of_gated {peerSpki : SpkiHash} {requestNonce nonce : UInt64}
    {snap : KeystoreContents} {reauthState : ReauthState} {frame : ClientFrame}
    {rest : List TaskEvent} {response : DaemonFrame} {code : ProtocolError}
    (h : Answered peerSpki requestNonce snap reauthState frame rest response)
    (hgated : isGated frame = true) (hresponse : response = .error nonce code) :
    code = .requiresReauth ∨ code = .internal := by
  have hhandler : ∀ result, handlerToResponse result requestNonce = .error nonce code →
      code = .internal := by
    intro result hcode
    cases result with
    | ok _ => simp [handlerToResponse] at hcode
    | error e =>
        injection hcode with _ hcode
        exact hcode.symm
  cases h with
  | blocked frame hframe hstate =>
      injection hresponse with _ hcode
      exact .inl hcode.symm
  | sleep hstate result => exact .inr (hhandler result hresponse)
  | lock hstate result => exact .inr (hhandler result hresponse)
  | powerOff hstate result => exact .inr (hhandler result hresponse)
  | configFailed interval stored e =>
      injection hresponse with _ hcode
      exact .inr hcode.symm
  | configured interval stored => simp at hresponse
  | _ => simp [isGated] at hgated

theorem revocationError_cases (snap : KeystoreContents) (peerSpki : SpkiHash) :
    revocationError snap peerSpki = .revoked ∨ revocationError snap peerSpki = .notPaired := by
  unfold revocationError
  split
  · exact .inl rfl
  · exact .inr rfl

/-- A dispatch of a gated message respects revocation exactly when its peer is still
paired. -/
theorem respectsRevocation_iff {x : Exchange} {peerSpki : SpkiHash} (h : x.Dispatches peerSpki) :
    x.RespectsRevocation peerSpki ↔ (isGated x.frame = true → x.StillPaired peerSpki) := by
  obtain ⟨nowMs, snap, rest, hevents, hanswered⟩ := dispatch_answered h
  constructor
  · intro hrespects hgated
    rcases hrespects hgated with hpaired | ⟨contents, -, hresponse, -⟩
    · exact hpaired
    · rcases errorCode_of_gated hanswered hgated hresponse with hcode | hcode <;>
        rcases revocationError_cases contents peerSpki with hrevoked | hrevoked <;>
          simp [hrevoked] at hcode
  · intro hpaired hgated
    exact .inl (hpaired hgated)

/-- Every dispatch reads the contents. -/
theorem dispatchSnapshot_isSome {x : Exchange} {peerSpki : SpkiHash} (h : x.Dispatches peerSpki) :
    (dispatchSnapshot x.events).isSome := by
  obtain ⟨nowMs, snap, rest, hevents, -⟩ := dispatch_answered h
  rw [hevents]
  rfl

/-- In every session, whatever other holders write to the contents, the requests that
respect revocation are exactly those that are not gated or whose peer is still paired
in the contents that the dispatch read. -/
theorem session_respectsRevocation_iff (others : ℕ → KeystoreContents → KeystoreContents)
    (outside : ℕ → (o : Op) → Ans o) (w : Shared) (peerSpki : SpkiHash) (stream : PeerStream)
    (rounds reads : ℕ) :
    ∃ (xs : List Exchange) (tail : List TaskEvent),
      withoutReads (exec (withInbound (answering (sharing others outside)))
        (protocolLoop (stream.envelopes.length + 1 + rounds) (stream.reads.length + 1 + reads)
          peerSpki) (stream.inbound, w)).events = xs.flatMap Exchange.log ++ tail ∧
      (∀ e ∈ tail, e.op.isLocal = false) ∧
      (∀ x ∈ xs, x.Dispatches peerSpki ∧ (dispatchSnapshot x.events).isSome) ∧
      ((∀ x ∈ xs, x.RespectsRevocation peerSpki) ↔
        ∀ x ∈ xs, isGated x.frame = true → x.StillPaired peerSpki) := by
  obtain ⟨xs, tail, hsession, hlog⟩ :=
    exec_protocolLoop (sharing others outside) peerSpki stream w rounds reads
  refine ⟨xs, tail, hlog, hsession.tail_not_local, fun x hx => ?_, ?_⟩
  · have hdispatches := hsession.dispatches x hx
    exact ⟨hdispatches, dispatchSnapshot_isSome hdispatches⟩
  · exact forall₂_congr fun x hx => respectsRevocation_iff (hsession.dispatches x hx)

/-! ## A phone that is revoked while it is connected -/

/-- Revoke every pairing. -/
def revokeAll (contents : KeystoreContents) : KeystoreContents :=
  { contents with pairings := contents.pairings.map fun p => { p with revoked := true } }

/-- A phone that is revoked after the check before the loop still locks the PC. -/
theorem revoked_phone_locks :
    pairedContents.HasActive phoneKey ∧
      ∃ x : Exchange,
        withoutReads (exec (withInbound (answering
            (sharing (fun _ => revokeAll) fun _ => succeeding pairedContents)))
          (protocolLoop 2 2 phoneKey) (lockOnce.inbound, ⟨pairedContents, 0⟩)).events = x.log ∧
        x.Dispatches phoneKey ∧ ¬ x.RespectsRevocation phoneKey := by
  let x : Exchange :=
    { nonce := 1
      frame := .lock
      events := [⟨.clock, (0 : UInt64)⟩, ⟨.snapshot, revokeAll pairedContents⟩,
        ⟨.lock, Except.ok ()⟩]
      response := .ack 1
      sendNonce := 1
      written := .ok () }
  have hdispatches : x.Dispatches phoneKey := ⟨_, _, rfl, _, _, rfl, _, _, rfl, rfl, rfl⟩
  refine ⟨by decide, x, rfl, hdispatches, ?_⟩
  rw [respectsRevocation_iff hdispatches]
  intro hpaired
  obtain ⟨snap, hsnap, hactive⟩ := hpaired rfl
  obtain rfl := Option.some.inj hsnap
  exact absurd hactive (by decide)

end Daemon
end WakeMyPc
