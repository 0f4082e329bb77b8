import WakeMyPc.Daemon.Dispatch

/-!
# The re-auth lock

The messages of all phones reach one server one after the other, each dispatched at
a time of its own.  Once the re-auth window has ended, the server refuses commands
until the window is moved, and a message that changes the interval can move it.

Main results:

- Theorem `Arrival.outcome_answered`: a dispatch at a given time on given contents.
- Theorem `ServerStep.locked_after_iff`: what keeps the server locked.
- Theorem `lock_holds_iff`: a locked server refuses all commands and stays locked
  exactly in the runs in which no message sets an interval that ends the lock.
-/

namespace WakeMyPc
namespace Daemon

open Foundations
open Foundations.Prog (exec)
open Protocol

/-! ## Steps of the server -/

/-- Answers at one time on shared contents; `outside` answers what is not about
them. -/
def atTime (nowMs : UInt64) (outside : (o : Op) → Ans o) :
    KeystoreContents → (o : Op) → Ans o × KeystoreContents :=
  fun contents o =>
    match o with
    | .clock => (nowMs, contents)
    | .snapshot => (contents, contents)
    | .write u => ((u.run contents).1, u.apply contents)
    | o => (outside o, contents)

/-- One message of a paired phone, with the time of its dispatch. -/
structure Arrival where
  peerSpki : SpkiHash
  frame : ClientFrame
  requestNonce : UInt64
  nowMs : UInt64
  outside : (o : Op) → Ans o

/-- What the server does on one message. -/
def Arrival.outcome (a : Arrival) (c : KeystoreContents) :
    Outcome Op Ans KeystoreContents DaemonFrame :=
  exec (answering (atTime a.nowMs a.outside)) (dispatch a.peerSpki a.frame a.requestNonce) c

/-- A step of the server: a message, or the address of a phone that connects. -/
inductive ServerStep where
  | arrival (a : Arrival)
  | address (peerSpki : SpkiHash) (peerAddr : SocketAddr) (nowMs : UInt64)
      (outside : (o : Op) → Ans o)

namespace ServerStep

/-- The time of a step. -/
def nowMs : ServerStep → UInt64
  | arrival a => a.nowMs
  | address _ _ nowMs _ => nowMs

/-- The contents after a step. -/
def after (c : KeystoreContents) : ServerStep → KeystoreContents
  | arrival a => (a.outcome c).world
  | address peerSpki peerAddr nowMs outside =>
      (exec (answering (atTime nowMs outside)) (recordAddress peerSpki peerAddr) c).world

/-- A command is answered with an error that asks for a credential prompt, and no
handler is called. -/
def RefusesCommands (c : KeystoreContents) : ServerStep → Prop
  | arrival a =>
      (isStateChange a.frame = true →
        (a.outcome c).value = some (.error a.requestNonce .requiresReauth)) ∧
      ∀ e ∈ (a.outcome c).events, e.op.isCommand = false
  | address peerSpki peerAddr nowMs outside =>
      ∀ e ∈ (exec (answering (atTime nowMs outside))
        (recordAddress peerSpki peerAddr) c).events, e.op.isCommand = false

/-- A message that sets an interval sets one under which the server is locked at the
time of the message. -/
def KeepsLock (c : KeystoreContents) : ServerStep → Prop
  | arrival a =>
      match a.frame with
      | .reauthConfig interval =>
          evaluate a.nowMs c.lastAuthenticatedAtUnixMs (intervalToDays interval) = .needsReauth
      | _ => True
  | address _ _ _ _ => True

/-- All steps of a run have a property in the contents that they find. -/
def Along (P : KeystoreContents → ServerStep → Prop) : KeystoreContents → List ServerStep → Prop
  | _, [] => True
  | c, step :: steps => P c step ∧ Along P (step.after c) steps

end ServerStep

/-- Commands are refused at a time. -/
def Locked (c : KeystoreContents) (nowMs : UInt64) : Prop :=
  evaluate nowMs c.lastAuthenticatedAtUnixMs c.reauthIntervalDays = .needsReauth

instance (c : KeystoreContents) (nowMs : UInt64) : Decidable (Locked c nowMs) :=
  inferInstanceAs (Decidable (evaluate _ _ _ = _))

/-! ## One step -/

/-- A dispatch reads the given time and the given contents. -/
theorem Arrival.outcome_answered (a : Arrival) (c : KeystoreContents) :
    ∃ rest response,
      (a.outcome c).events = ⟨.clock, a.nowMs⟩ :: ⟨.snapshot, c⟩ :: rest ∧
      (a.outcome c).value = some response ∧
      Answered a.peerSpki a.requestNonce c
        (evaluate a.nowMs c.lastAuthenticatedAtUnixMs c.reauthIntervalDays) a.frame rest
        response := by
  obtain ⟨response, hresponse⟩ := (dispatch_uses a.peerSpki a.frame a.requestNonce).exec_returns
    (answering (atTime a.nowMs a.outside)) (fun _ _ _ => rfl) c
  obtain ⟨nowMs, snap, rest, hevents, hanswered⟩ :=
    dispatch_answered (Prog.exec_trace _ _ hresponse)
  obtain ⟨later, hlater⟩ : ∃ later,
      (a.outcome c).events = ⟨.clock, a.nowMs⟩ :: ⟨.snapshot, c⟩ :: later := ⟨_, rfl⟩
  obtain ⟨hclock, hrest⟩ := List.cons.inj (hlater.symm.trans hevents)
  obtain ⟨hsnap, rfl⟩ := List.cons.inj hrest
  cases hclock
  cases hsnap
  exact ⟨later, response, hlater, hresponse, hanswered⟩

/-- A command is refused exactly when the server is locked at its time. -/
theorem Arrival.refused_iff (a : Arrival) (c : KeystoreContents)
    (hframe : isStateChange a.frame = true) :
    (a.outcome c).value = some (.error a.requestNonce .requiresReauth) ↔ Locked c a.nowMs := by
  obtain ⟨rest, response, -, hresponse, hanswered⟩ := a.outcome_answered c
  rw [hresponse, Option.some_inj]
  exact Daemon.refused_iff hanswered hframe

/-- The contents after an operation. -/
def applyEvent (c : KeystoreContents) : TaskEvent → KeystoreContents
  | ⟨.write u, _⟩ => u.apply c
  | _ => c

/-- A run changes the contents by its writes. -/
theorem exec_atTime_world {α : Type} (nowMs : UInt64) (outside : (o : Op) → Ans o) (p : Task α)
    (c : KeystoreContents) :
    (exec (answering (atTime nowMs outside)) p c).world =
      (exec (answering (atTime nowMs outside)) p c).events.foldl applyEvent c := by
  induction p generalizing c with
  | ret a => rfl
  | stall => rfl
  | call o k ih =>
      have hanswer : answering (atTime nowMs outside) c o =
          some ((atTime nowMs outside c o).1, (atTime nowMs outside c o).2) := rfl
      have hstep : applyEvent c ⟨o, (atTime nowMs outside c o).1⟩ =
          (atTime nowMs outside c o).2 := by
        cases o <;> rfl
      rw [Prog.exec_call_some k hanswer, List.foldl_cons, hstep]
      exact ih _ _

/-- What a dispatch leaves in the contents. -/
theorem Arrival.outcome_world (a : Arrival) (c : KeystoreContents) :
    (a.outcome c).world =
      match a.frame with
      | .reauthConfig interval => (Update.reauthInterval (intervalToDays interval)).apply c
      | .revokeAck => (Update.removeRevoked a.peerSpki).apply c
      | _ => c := by
  obtain ⟨rest, response, hevents, -, hanswered⟩ := a.outcome_answered c
  rw [outcome, exec_atTime_world, ← outcome, hevents]
  generalize a.frame = frame at hanswered
  cases hanswered with
  | blocked frame hframe hstate => cases frame <;> first | rfl | simp [isStateChange] at hframe
  | _ => rfl

/-- Recording an address leaves the re-auth window alone and calls no handler. -/
private theorem address_events (peerSpki : SpkiHash) (peerAddr : SocketAddr) (nowMs : UInt64)
    (outside : (o : Op) → Ans o) (c : KeystoreContents) :
    let out := exec (answering (atTime nowMs outside)) (recordAddress peerSpki peerAddr) c
    out.world = (Update.lastKnownAddress peerSpki peerAddr).apply c ∧
      ∀ e ∈ out.events, e.op.isCommand = false := by
  intro out
  obtain ⟨_, hvalue⟩ := (recordAddress_uses peerSpki peerAddr).exec_returns
    (answering (atTime nowMs outside)) (fun _ _ _ => rfl) c
  have hworld := exec_atTime_world nowMs outside (recordAddress peerSpki peerAddr) c
  rcases recordAddress_trace (Prog.exec_trace _ _ hvalue) with hevents | ⟨stored, result, hevents⟩
  · rw [hevents] at hworld
    refine ⟨hworld, ?_⟩
    simp only [out, hevents]
    simp [Op.isCommand]
  · rw [hevents] at hworld
    refine ⟨hworld, ?_⟩
    simp only [out, hevents]
    simp [Op.isCommand]

namespace ServerStep

/-- A locked server refuses commands. -/
theorem refusesCommands_of_locked (step : ServerStep) {c : KeystoreContents}
    (h : Locked c step.nowMs) : step.RefusesCommands c := by
  cases step with
  | address peerSpki peerAddr nowMs outside =>
      exact (address_events peerSpki peerAddr nowMs outside c).2
  | arrival a =>
      obtain ⟨rest, response, hevents, hresponse, hanswered⟩ := a.outcome_answered c
      have hlocked : evaluate a.nowMs c.lastAuthenticatedAtUnixMs c.reauthIntervalDays =
          .needsReauth := h
      rw [hlocked] at hanswered
      constructor
      · intro hframe
        rw [hresponse, refused_of_needsReauth hanswered hframe]
      · intro e he
        rw [hevents] at he
        by_contra hcommand
        rcases List.mem_cons.mp he with rfl | he
        · simp [Op.isCommand] at hcommand
        rcases List.mem_cons.mp he with rfl | he
        · simp [Op.isCommand] at hcommand
        · have hactive := (command_of_mem hanswered he (by simpa using hcommand)).2
          cases hactive

/-- A locked server stays locked exactly when the step sets no interval that ends
the lock. -/
theorem locked_after_iff (step : ServerStep) {c : KeystoreContents}
    (h : Locked c step.nowMs) : Locked (step.after c) step.nowMs ↔ step.KeepsLock c := by
  cases step with
  | address peerSpki peerAddr nowMs outside =>
      rw [Locked, after, (address_events peerSpki peerAddr nowMs outside c).1]
      exact iff_of_true h trivial
  | arrival a =>
      rw [Locked, after, a.outcome_world]
      obtain ⟨peerSpki, frame, requestNonce, nowMs, outside⟩ := a
      cases frame with
      | reauthConfig interval => exact Iff.rfl
      | _ => exact iff_of_true h trivial

/-- A step refuses commands, and leaves the server locked for the next one. -/
def StaysLocked (c : KeystoreContents) (step : ServerStep) : Prop :=
  step.RefusesCommands c ∧ Locked (step.after c) step.nowMs

end ServerStep

/-! ## Runs -/

/-- A server that is locked at some time refuses every command from then on and stays
locked throughout a run, exactly when no message of the run sets an interval that ends
the lock. -/
theorem lock_holds_iff (c : KeystoreContents) (nowMs : UInt64) (steps : List ServerStep)
    (hlocked : Locked c nowMs) (hclock : (nowMs :: steps.map (·.nowMs)).Pairwise (· ≤ ·)) :
    ServerStep.Along ServerStep.StaysLocked c steps ↔
      ServerStep.Along ServerStep.KeepsLock c steps := by
  induction steps generalizing c nowMs with
  | nil => exact Iff.rfl
  | cons step steps ih =>
      obtain ⟨hle, hclocks⟩ := List.pairwise_cons.mp hclock
      have hnow : Locked c step.nowMs := evaluate_mono (hle step.nowMs (by simp)) hlocked
      constructor
      · rintro ⟨⟨-, hlocked'⟩, hrest⟩
        exact ⟨(step.locked_after_iff hnow).mp hlocked',
          (ih (step.after c) step.nowMs hlocked' hclocks).mp hrest⟩
      · rintro ⟨hkeeps, hrest⟩
        have hlocked' := (step.locked_after_iff hnow).mpr hkeeps
        exact ⟨⟨step.refusesCommands_of_locked hnow, hlocked'⟩,
          (ih (step.after c) step.nowMs hlocked' hclocks).mpr hrest⟩

/-! ## A lock that is lifted over the network -/

/-- Contents whose window of seven days starts at time zero. -/
def weekContents : KeystoreContents :=
  { pairedContents with reauthIntervalDays := 7 }

/-- A time eight days later. -/
def eightDays : UInt64 := 8 * 86400000

/-- A message of the phone at that time, with outside calls that succeed. -/
def message (requestNonce : UInt64) (frame : ClientFrame) : ServerStep :=
  .arrival ⟨phoneKey, frame, requestNonce, eightDays, succeeding pairedContents⟩

/-- A shorter interval does not end the lock. -/
theorem lock_holds_shorter :
    Locked weekContents eightDays ∧
      ServerStep.Along ServerStep.StaysLocked weekContents
        [message 1 .sleep, message 2 (.reauthConfig .oneDay), message 3 .powerOff] := by
  have hshorter : evaluate eightDays 0 1 = .needsReauth := by decide
  exact ⟨by decide, (lock_holds_iff weekContents eightDays _ (by decide) (by decide)).mpr
    ⟨trivial, hshorter, trivial, trivial⟩⟩

/-- Turning the interval off lifts the lock without a credential prompt. -/
theorem lock_lifted :
    Locked weekContents eightDays ∧
      ¬ ServerStep.Along ServerStep.RefusesCommands weekContents
        [message 1 (.reauthConfig .off), message 2 .lock] := by
  refine ⟨by decide, ?_⟩
  rintro ⟨-, ⟨hrefused, -⟩, -⟩
  exact absurd (hrefused rfl) (by decide)

end Daemon
end WakeMyPc
