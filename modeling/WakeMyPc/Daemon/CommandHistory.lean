import WakeMyPc.Daemon.Edits
import WakeMyPc.Daemon.Host

/-!
# What a subcommand does, and after what

A subcommand never touches the shared contents of the server or the handlers.  It saves
what its own edits make of the copy that it loaded.

Main results:

- Definition `copyOf`: the copy that a history started from.
- Definition `CommandOp`: the operations that fit a history.
- Theorem `command_safe`: all operations of a subcommand fit its history.
-/

namespace WakeMyPc
namespace Daemon

open Foundations
open Foundations.Prog (loop safe_bind safe_call_bind safe_loop)
open Protocol
open Crypto (Draw NonceCounter PairingHandshake PairingTransition)

/-! ## The copy of a subcommand -/

/-- The copy after one more operation: the contents of the file, or fresh ones for a
generated identity. -/
def copyStep (copy : Option KeystoreContents) : TaskEvent → Option KeystoreContents
  | ⟨.load, result⟩ =>
      match (result : Except KeystoreError (Option KeystoreContents)) with
      | .ok loaded => loaded
      | .error _ => none
  | ⟨.generateIdentity, result⟩ =>
      match (result : Except Crypto.Error DeviceIdentityBytes) with
      | .ok identity => some (.fromIdentity identity)
      | .error _ => none
  | _ => copy

/-- The copy that a history has loaded or made. -/
def copyOf (h : List TaskEvent) : Option KeystoreContents :=
  h.foldl copyStep none

/-- The operation neither makes a copy nor is about the contents or the PC. -/
def Op.isQuiet : Op → Bool
  | .snapshot => false
  | .write _ => false
  | .load => false
  | .generateIdentity => false
  | .saveFile _ => false
  | o => !o.isCommand

theorem copyOf_quiet {h events : List TaskEvent} (hquiet : ∀ e ∈ events, e.op.isQuiet = true) :
    copyOf (h ++ events) = copyOf h := by
  rw [copyOf, List.foldl_append, ← copyOf]
  induction events with
  | nil => rfl
  | cons e events ih =>
      have hstep : copyStep (copyOf h) e = copyOf h := by
        have hop := hquiet e List.mem_cons_self
        obtain ⟨o, r⟩ := e
        cases o <;> first | rfl | simp [Op.isQuiet] at hop
      rw [List.foldl_cons, hstep]
      exact ih fun e he => hquiet e (List.mem_cons_of_mem _ he)

theorem copyOf_concat {e : TaskEvent} (h : List TaskEvent) (hquiet : e.op.isQuiet = true) :
    copyOf (h ++ [e]) = copyOf h :=
  copyOf_quiet (by simpa using hquiet)

theorem copyOf_saveFile (h : List TaskEvent) (contents : KeystoreContents)
    (result : Except KeystoreError Unit) :
    copyOf (h ++ [⟨.saveFile contents, result⟩]) = copyOf h := by
  rw [copyOf, List.foldl_append, ← copyOf]
  rfl

/-! ## Operations that fit a history -/

/-- The edits by which a subcommand makes the contents that it saves. -/
def Command.edits (contents : KeystoreContents) : Command → List Edit
  | revoke phoneName => [.change (.revoke phoneName)]
  | reauthNow => [.change (.reauthNow contents.lastAuthenticatedAtUnixMs)]
  | uninstallRevokeBroadcast => [.change .revokeAll]
  | pair _ _ _ => (contents.pairings.getLast?.map fun new => Edit.change (.pair new)).toList

/-- The operations of a subcommand that fit its history. -/
def CommandOp (command : Command) (h : List TaskEvent) : Op → Prop
  | .saveFile contents =>
      ∃ copy, copyOf h = some copy ∧ applyEdits copy (command.edits contents) = contents
  | .snapshot => False
  | .write _ => False
  | .sleep => False
  | .lock => False
  | .powerOff => False
  | _ => True

variable {command : Command}

theorem commandOp_of_quiet (h : List TaskEvent) (o : Op) (hquiet : o.isQuiet = true) :
    CommandOp command h o := by
  cases o <;> trivial

/-- Nothing that the program does concerns the contents. -/
def Quiet {α : Type} (p : Task α) : Prop :=
  p.Safe (fun _ o => o.isQuiet = true) [] fun _ _ => True

/-- Such a program fits every history and keeps the copy. -/
theorem Quiet.safe {α : Type} {p : Task α} (hp : Quiet p) (h : List TaskEvent) :
    p.Safe (CommandOp command) h fun h' _ => copyOf h' = copyOf h := by
  refine (Prog.Safe.adds hp commandOp_of_quiet h).mono ?_
  rintro h' _ ⟨events, rfl, hquiet⟩
  exact copyOf_quiet hquiet

/-! ## The local subcommands -/

/-- A loaded keystore is the copy. -/
theorem requireKeystore_safe :
    requireKeystore.Safe (CommandOp command) [] fun h result =>
      ∀ contents, result = .ok contents → copyOf h = some contents := by
  refine ⟨trivial, fun result => ?_⟩
  match result with
  | .error e => exact fun contents heq => by cases heq
  | .ok none => exact fun contents heq => by cases heq
  | .ok (some loaded) =>
      intro contents heq
      obtain rfl := Except.ok.inj heq
      rfl

/-- Saving what the edits make of the copy. -/
theorem saveContents_safe {h : List TaskEvent} {copy contents : KeystoreContents}
    (hcopy : copyOf h = some copy) (hedits : applyEdits copy (command.edits contents) = contents) :
    (saveContents contents).Safe (CommandOp command) h fun _ _ => True := by
  refine ⟨⟨copy, hcopy, hedits⟩, fun result => ?_⟩
  cases result <;> trivial

theorem revoke_safe (phoneName : RustString) :
    (revoke phoneName).Safe (CommandOp (.revoke phoneName)) [] fun _ _ => True := by
  refine (safe_bind _ _ _ _).mpr (requireKeystore_safe.mono fun h result hload => ?_)
  cases result with
  | error e => trivial
  | ok contents =>
      change (if _ then _ else _ : Task _).Safe _ _ _
      split
      · trivial
      · exact saveContents_safe (hload contents rfl) rfl

theorem reauthNow_safe : reauthNow.Safe (CommandOp .reauthNow) [] fun _ _ => True := by
  refine (safe_bind _ _ _ _).mpr (requireKeystore_safe.mono fun h result hload => ?_)
  cases result with
  | error e => trivial
  | ok contents =>
      refine ⟨trivial, fun now => saveContents_safe ?_ rfl⟩
      rw [copyOf_concat h rfl]
      exact hload contents rfl

/-- Reaching phones does not concern the contents. -/
theorem pushRevoke_safe (ps : List PairingRecord) (h : List TaskEvent) :
    (pushRevoke ps).Safe (CommandOp command) h fun _ _ => True := by
  induction ps generalizing h with
  | nil => trivial
  | cons p ps ih =>
      unfold pushRevoke
      split
      · exact ih h
      · exact ⟨trivial, fun _ => ih _⟩

theorem uninstallRevokeBroadcast_safe :
    uninstallRevokeBroadcast.Safe (CommandOp .uninstallRevokeBroadcast) [] fun _ _ => True := by
  refine (safe_bind _ _ _ _).mpr (requireKeystore_safe.mono fun h result hload => ?_)
  cases result with
  | error e => trivial
  | ok contents =>
      refine (safe_bind _ _ _ _).mpr ((saveContents_safe (hload contents rfl) rfl).mono ?_)
      intro h' saved _
      cases saved with
      | error e => trivial
      | ok _ =>
          refine (safe_bind (pushRevoke contents.pairings) _ _ _).mpr ?_
          exact (pushRevoke_safe contents.pairings h').mono fun _ _ _ => trivial

/-! ## The pairing window -/

namespace PairingFlow

/-- Reading the only envelope of a connection. -/
theorem readOneEnvelope_quiet (reads : ℕ) (buf : Bytes) : Quiet (readOneEnvelope reads buf) := by
  refine safe_loop (fun _ _ => True) ?_ reads trivial
  intro h buf _
  unfold readOneEnvelopeRound
  split
  · trivial
  · trivial
  · refine ⟨rfl, fun result => ?_⟩
    cases result with
    | error e => trivial
    | ok chunk =>
        change (if _ then _ else _ : Task _).Safe _ _ _
        split <;> trivial

/-- Answering a phone. -/
theorem sendFrame_quiet (nonces : NonceCounter) (frame : DaemonFrame) :
    Quiet (sendFrame nonces frame) := by
  unfold Quiet sendFrame writeFrame
  split
  · trivial
  · split
    · trivial
    · split
      · trivial
      · refine ⟨rfl, fun result => ?_⟩
        cases result <;> trivial

/-- A code is taken once at most. -/
theorem acceptPair_succeeded {handshake after : PairingHandshake} {nowMs : UInt64}
    {pairingCode : UInt32} {phoneName : RustString} {peerSpki : SpkiHash}
    {record : Crypto.PairingRecord}
    (h : handshake.acceptPair nowMs pairingCode phoneName peerSpki = (.succeeded record, after)) :
    after.state = .paired record ∧ ∀ old, handshake.state ≠ .paired old := by
  unfold PairingHandshake.acceptPair at h
  split at h
  · next code expiresAtUnixMs priorFailures hstate =>
      refine ⟨?_, fun old hold => by simp [hstate] at hold⟩
      split at h
      · simp at h
      · dsimp only at h
        split at h
        · split at h <;> simp at h
        · obtain ⟨hrecord, rfl⟩ := Prod.mk.inj h
          obtain rfl := PairingTransition.succeeded.inj hrecord
          rfl
  · simp at h
  · simp at h

/-- A pairing that is waiting to be taken stays. -/
theorem acceptPair_paired {handshake : PairingHandshake} {record : Crypto.PairingRecord}
    (h : handshake.state = .paired record) (nowMs : UInt64) (pairingCode : UInt32)
    (phoneName : RustString) (peerSpki : SpkiHash) :
    handshake.acceptPair nowMs pairingCode phoneName peerSpki =
      (.rejected .notInWindow, handshake) := by
  unfold PairingHandshake.acceptPair
  rw [h]

/-- A window that has not expired is as it was. -/
theorem tick_eq {handshake after : PairingHandshake} {nowMs : UInt64}
    {transition : PairingTransition} (h : handshake.tick nowMs = (transition, after))
    (hopen : transition ≠ .expired) : after = handshake := by
  unfold PairingHandshake.tick at h
  split at h
  · split at h
    · exact absurd (Prod.mk.inj h).1.symm hopen
    · exact (Prod.mk.inj h).2.symm
  · exact (Prod.mk.inj h).2.symm

/-- What a window keeps: its contents are the copy until a phone is paired. -/
def WindowKeeps (h : List TaskEvent) (s : WindowState) : Prop :=
  ∃ copy, copyOf h = some copy ∧ (s.contents = copy ∨ ∃ record, s.handshake.state = .paired record)

theorem WindowKeeps.quiet {h h' : List TaskEvent} {s : WindowState} (hkeeps : WindowKeeps h s)
    (hcopy : copyOf h' = copyOf h) : WindowKeeps h' s := by
  rw [WindowKeeps, hcopy]
  exact hkeeps

variable {draws rounds reads : ℕ}

/-- A refused message leaves the window as it is. -/
theorem refuse_safe {h : List TaskEvent} {s : WindowState} (hkeeps : WindowKeeps h s)
    (requestNonce : UInt64) (code : ProtocolError) :
    (refuse s requestNonce code).Safe (CommandOp (.pair draws rounds reads)) h
      fun h' result => WindowKeeps h' result.2 := by
  refine (safe_bind _ _ _ _).mpr (((sendFrame_quiet _ _).safe h).mono ?_)
  rintro h' ⟨sent, nonces⟩ hcopy
  cases sent <;> exact hkeeps.quiet hcopy

/-- A code that is right is saved with the copy, and closes the window. -/
theorem takeCode_safe {h : List TaskEvent} {s : WindowState} (hkeeps : WindowKeeps h s)
    (peerSpki : SpkiHash) (requestNonce : UInt64) (phoneName : RustString)
    (pairingCode : UInt32) :
    (takeCode s peerSpki requestNonce phoneName pairingCode).Safe
      (CommandOp (.pair draws rounds reads)) h fun h' result => WindowKeeps h' result.2 := by
  refine (safe_call_bind Op.clock _ _ _).mpr ⟨trivial, fun (now : UInt64) => ?_⟩
  have hread : copyOf (h ++ [⟨.clock, now⟩]) = copyOf h := copyOf_concat h rfl
  obtain ⟨copy, hcopy, hcase⟩ := hkeeps
  rw [← hread] at hcopy
  -- what is left of the window once the code has been taken
  have hclosed : ∀ (h' : List TaskEvent) (after : PairingHandshake) (contents : KeystoreContents)
      (record : Crypto.PairingRecord), after.state = .paired record → copyOf h' = some copy →
      WindowKeeps h' ⟨after, contents⟩ :=
    fun h' after contents record hstate hcopy' => ⟨copy, hcopy', .inr ⟨record, hstate⟩⟩
  have hopen : ∀ after transition,
      s.handshake.acceptPair now pairingCode phoneName peerSpki = (transition, after) →
      ∀ h', copyOf h' = some copy → (∀ record, transition ≠ .succeeded record) →
      WindowKeeps h' { s with handshake := after } := by
    intro after transition hpair h' hcopy' hother
    rcases hcase with hcontents | ⟨record, hstate⟩
    · exact ⟨copy, hcopy', .inl hcontents⟩
    · rw [acceptPair_paired hstate] at hpair
      obtain ⟨-, rfl⟩ := Prod.mk.inj hpair
      exact ⟨copy, hcopy', .inr ⟨record, hstate⟩⟩
  cases hpair : s.handshake.acceptPair now pairingCode phoneName peerSpki with
  | mk transition after =>
      cases transition with
      | succeeded record =>
          obtain ⟨hstate, hunpaired⟩ := acceptPair_succeeded hpair
          have hcontents : s.contents = copy :=
            hcase.resolve_right (not_exists.mpr hunpaired)
          let new := PairingRecord.fromCore record
          let contents := (Change.pair new).apply s.contents
          have hedits : applyEdits copy ((Command.pair draws rounds reads).edits contents) =
              contents := by
            have hlast : contents.pairings.getLast? = some new := List.getLast?_concat
            rw [Command.edits, hlast, ← hcontents]
            rfl
          refine ⟨⟨copy, hcopy, hedits⟩, fun result => ?_⟩
          have hsaved := (copyOf_saveFile (h ++ [⟨.clock, now⟩]) contents result).trans hcopy
          cases result with
          | error e => exact hclosed _ after contents record hstate hsaved
          | ok _ =>
              refine (safe_bind (sendAck NonceCounter.new requestNonce) _ _ _).mpr
                (((sendFrame_quiet _ _).safe _).mono ?_)
              rintro h' ⟨sent, nonces⟩ hsame
              cases sent with
              | error e => exact hclosed _ after contents record hstate (hsame.trans hsaved)
              | ok _ =>
                  refine ⟨trivial, fun _ => hclosed _ after contents record hstate ?_⟩
                  exact (copyOf_concat h' rfl).trans (hsame.trans hsaved)
      | rejected reason =>
          refine (safe_bind (sendError NonceCounter.new requestNonce .notPaired) _ _ _).mpr
            (((sendFrame_quiet _ _).safe _).mono ?_)
          rintro h' ⟨sent, nonces⟩ hsame
          cases sent with
          | error e => exact hopen after _ hpair _ (hsame.trans hcopy) (by simp)
          | ok _ =>
              refine ⟨trivial, fun _ => hopen after _ hpair _ ?_ (by simp)⟩
              exact (copyOf_concat h' rfl).trans (hsame.trans hcopy)
      | started code => exact hopen after _ hpair _ hcopy (by simp)
      | expired => exact hopen after _ hpair _ hcopy (by simp)
      | noOp => exact hopen after _ hpair _ hcopy (by simp)

section Run

variable {extractSpkiHash : Bytes → Except Crypto.Error SpkiHash}

/-- One connection of the window. -/
theorem handlePairAttempt_safe {h : List TaskEvent} {s : WindowState} (hkeeps : WindowKeeps h s) :
    (handlePairAttempt extractSpkiHash reads s).Safe (CommandOp (.pair draws rounds reads)) h
      fun h' result => WindowKeeps h' result.2 := by
  have hspki : Quiet (peerSpkiFromTls extractSpkiHash) := ⟨rfl, fun _ => trivial⟩
  refine (safe_bind _ _ _ _).mpr ((hspki.safe h).mono fun h₁ spki hcopy₁ => ?_)
  cases spki with
  | error e => exact hkeeps.quiet hcopy₁
  | ok peerSpki =>
      refine (safe_bind _ _ _ _).mpr
        (((readOneEnvelope_quiet reads []).safe h₁).mono fun h₂ result hcopy₂ => ?_)
      have hkeeps₂ := hkeeps.quiet (hcopy₂.trans hcopy₁)
      rcases result with e | ⟨envelope, rest⟩
      · exact hkeeps₂
      · dsimp only
        split
        · exact refuse_safe hkeeps₂ _ _
        · exact takeCode_safe hkeeps₂ _ _ _ _
        · exact refuse_safe hkeeps₂ _ _

/-- The accept loop of the window. -/
theorem acceptLoop_safe {h : List TaskEvent} {s : WindowState} (hkeeps : WindowKeeps h s) :
    (loop (acceptRound extractSpkiHash reads) rounds s).Safe
      (CommandOp (.pair draws rounds reads)) h fun _ _ => True := by
  refine safe_loop WindowKeeps ?_ rounds hkeeps
  intro h s hkeeps
  refine (safe_call_bind Op.clock _ _ _).mpr ⟨trivial, fun (now : UInt64) => ?_⟩
  have hclock : WindowKeeps (h ++ [⟨.clock, now⟩]) s :=
    hkeeps.quiet (copyOf_concat h rfl)
  split
  · trivial
  · next transition after hexpired htick =>
      obtain rfl := tick_eq htick hexpired
      refine ⟨trivial, fun (tcp : Option (Except IoError Unit)) => ?_⟩
      have htcp : WindowKeeps (h ++ [⟨.clock, now⟩] ++ [⟨.acceptTcp, tcp⟩]) s :=
        hclock.quiet (copyOf_concat _ rfl)
      rcases tcp with _ | e | _
      · trivial
      · trivial
      · refine ⟨trivial, fun (tls : Except IoError Unit) => ?_⟩
        have htls : WindowKeeps (h ++ [⟨.clock, now⟩] ++ [⟨.acceptTcp, some (.ok ())⟩] ++
            [⟨.handshake .pairingWindow, tls⟩]) s := htcp.quiet (copyOf_concat _ rfl)
        cases tls with
        | error e => exact htls
        | ok _ =>
            refine (safe_bind (handlePairAttempt extractSpkiHash reads s) _ _ _).mpr
              ((handlePairAttempt_safe htls).mono fun h' result hkeeps' => ?_)
            split
            · trivial
            · split
              · trivial
              · exact hkeeps'

/-- Drawing the code of the window. -/
theorem drawCode_quiet (now : UInt64) : Quiet (loop (startRound now) draws []) := by
  have hround : ∀ (drawn : List Draw) (h : List TaskEvent),
      (startRound now drawn).Safe (fun _ o => o.isQuiet = true) h fun _ _ => True := by
    intro drawn h
    refine (safe_call_bind Op.randomBytes _ _ _).mpr ⟨rfl, fun (draw : Draw) => ?_⟩
    dsimp only
    split <;> trivial
  refine safe_loop (fun _ _ => True) (fun h drawn _ => ?_) draws trivial
  exact (hround drawn h).mono fun h' result _ => by cases result <;> trivial

/-- A window on the copy. -/
theorem openWindow_safe {h : List TaskEvent} {contents : KeystoreContents}
    (hcopy : copyOf h = some contents) :
    (openWindow extractSpkiHash draws rounds reads contents).Safe
      (CommandOp (.pair draws rounds reads)) h fun _ _ => True := by
  refine ⟨trivial, fun (parsed : Except Crypto.Error Unit) => ?_⟩
  cases parsed with
  | error e => trivial
  | ok _ =>
      refine ⟨trivial, fun (now : UInt64) => ?_⟩
      refine (safe_bind (loop (startRound now) draws []) _ _ _).mpr
        (((drawCode_quiet now).safe _).mono fun h₁ started hcopy₁ => ?_)
      have hcopy' : copyOf h₁ = some contents := by
        rw [hcopy₁, copyOf_concat _ rfl, copyOf_concat _ rfl, hcopy]
      split
      · trivial
      · next handshake _ =>
          refine ⟨trivial, fun (bound : Except IoError Unit) => ?_⟩
          cases bound with
          | error e => trivial
          | ok _ =>
              exact acceptLoop_safe ⟨contents, (copyOf_concat _ rfl).trans hcopy', .inl rfl⟩
      · trivial

/-- The whole subcommand. -/
theorem run_safe :
    (run extractSpkiHash draws rounds reads).Safe (CommandOp (.pair draws rounds reads)) []
      fun _ _ => True := by
  refine ⟨trivial, fun (made : Except KeystoreError Unit) => ?_⟩
  cases made with
  | error e => trivial
  | ok _ =>
      refine ⟨trivial, fun (loaded : Except KeystoreError (Option KeystoreContents)) => ?_⟩
      rcases loaded with e | _ | contents
      · trivial
      · refine ⟨trivial, fun (identity : Except Crypto.Error DeviceIdentityBytes) => ?_⟩
        cases identity with
        | error e => trivial
        | ok identity => exact openWindow_safe rfl
      · exact openWindow_safe rfl

end Run

end PairingFlow

/-- All operations of a subcommand fit its history. -/
theorem command_safe (extractSpkiHash : Bytes → Except Crypto.Error SpkiHash) (command : Command) :
    ((Kind.command command).program extractSpkiHash).Safe (CommandOp command) []
      fun _ _ => True := by
  cases command with
  | revoke phoneName =>
      exact (safe_bind _ _ _ _).mpr ((revoke_safe phoneName).mono fun _ _ _ => trivial)
  | reauthNow => exact (safe_bind _ _ _ _).mpr (reauthNow_safe.mono fun _ _ _ => trivial)
  | uninstallRevokeBroadcast =>
      exact (safe_bind _ _ _ _).mpr (uninstallRevokeBroadcast_safe.mono fun _ _ _ => trivial)
  | pair draws rounds reads =>
      exact (safe_bind _ _ _ _).mpr (PairingFlow.run_safe.mono fun _ _ _ => trivial)

end Daemon
end WakeMyPc
