import WakeMyPc.Daemon.PairingSoundness

/-!
# How a pairing window ends

Once a pairing has been accepted, a save or an acknowledgement can still fail.  The window
then takes further connections, although no code is accepted any more, and the subcommand
fails, although a pairing may have been stored.

Main results:

- Definitions `PairingFlow.OnlyWhileAwaiting` and `PairingFlow.TellsOutcome`: what the window
  should do.
- Theorem `PairingFlow.window_exit_iff`: when it does.
-/

namespace WakeMyPc
namespace Daemon
namespace PairingFlow

open Foundations
open Foundations.Prog (exec)
open Protocol

section Exit

variable (extractSpkiHash : Bytes → Except Crypto.Error SpkiHash)

/-- Certificates of unknown clients are taken only while a window is open. -/
def OnlyWhileAwaiting (events : List TaskEvent) : Prop :=
  ∀ front tls back, events = front ++ ⟨.handshake .pairingWindow, tls⟩ :: back →
    IsAwaiting (seen extractSpkiHash front).played.handshake

/-- The subcommand succeeds exactly when it has stored a pairing. -/
def TellsOutcome (events : List TaskEvent) (result : Except PairError Unit) : Prop :=
  result = .ok () ↔ Stored events

/-- No connection is accepted after a save has failed. -/
def NoneAcceptedAfterFailure (events : List TaskEvent) : Prop :=
  ∀ front back, events = front ++ ⟨.acceptTcp, some (Except.ok ())⟩ :: back → ¬ SaveFailed front

variable {extractSpkiHash} {h events : List TaskEvent} {draws rounds reads : ℕ}
  {result : Except PairError Unit}

/-- Right after a connection was accepted comes its TLS handshake. -/
theorem handshake_of_acceptedLast {o : Op} (hop : PairOp extractSpkiHash h o)
    (hlast : acceptedLast h = true) : o = .handshake .pairingWindow := by
  cases o with
  | handshake mode => rw [hop.1]
  | send bytes =>
      rw [hop.1] at hlast
      cases hlast
  | saveFile contents =>
      obtain ⟨front, now, -, -, -, -, rfl, -⟩ := hop
      rw [acceptedLast_concat] at hlast
      cases hlast
  | _ =>
      rw [hop.2] at hlast
      cases hlast

theorem eq_concat_of_acceptedLast (hlast : acceptedLast h = true) :
    ∃ front, h = front ++ [⟨.acceptTcp, some (Except.ok ())⟩] := by
  induction h using List.reverseRecOn with
  | nil => cases hlast
  | append_singleton h e =>
      rw [acceptedLast_concat] at hlast
      obtain ⟨o, r⟩ := e
      cases o with
      | acceptTcp =>
          match (r : Option (Except IoError Unit)) with
          | some (.ok ()) => exact ⟨h, rfl⟩
          | some (.error e) => cases hlast
          | none => cases hlast
      | _ => cases hlast

theorem acceptedLast_of_ended (hended : Ended h result) : acceptedLast h = false := by
  cases result with
  | error e => exact hended.1.2
  | ok _ =>
      obtain ⟨front, contents, bytes, closed, -, -, rfl⟩ := hended
      simp [acceptedLast, acceptedBy]

theorem SaveFailed.of_concat {e : TaskEvent} (he : e.op.isSave = false)
    (hfailed : SaveFailed (h ++ [e])) : SaveFailed h := by
  obtain ⟨contents, cause, hmem⟩ := hfailed
  rcases List.mem_append.mp hmem with hold | hnew
  · exact ⟨contents, cause, hold⟩
  · rw [← List.mem_singleton.mp hnew] at he
    cases he

theorem Finished.stored (hfinished : Finished h) : Stored h := by
  obtain ⟨front, contents, bytes, closed, -, -, rfl⟩ := hfinished
  exact ⟨_, List.mem_append_right _ List.mem_cons_self, rfl⟩

/-- The event is a write that succeeded. -/
def sentBy : TaskEvent → Bool
  | ⟨.send _, result⟩ =>
      match (result : Except IoError Unit) with
      | .ok () => true
      | .error _ => false
  | _ => false

/-- The only acknowledgement of a window that has finished was written. -/
theorem Finished.not_ackFailed (hfinished : Finished h) : ¬ AckFailed h := by
  obtain ⟨front, contents, bytes, closed, hunsaved, -, rfl⟩ := hfinished
  rintro ⟨bytes', cause, hmem, hack⟩
  rcases List.mem_append.mp hmem with hold | hnew
  · exact hunsaved _ hold hack
  · rcases List.mem_cons.mp hnew with hsave | hnew
    · cases congrArg Event.op hsave
    · rcases List.mem_cons.mp hnew with hsend | hnew
      · cases congrArg sentBy hsend
      · cases congrArg Event.op (List.mem_singleton.mp hnew)

/-- An acknowledgement is only tried for a pairing that was stored. -/
theorem AckFailed.stored (hfits : Fits extractSpkiHash events) (hfailed : AckFailed events) :
    Stored events := by
  obtain ⟨bytes, cause, hmem, hack⟩ := hfailed
  obtain ⟨front, back, rfl⟩ := List.append_of_mem hmem
  have hop := hfits front _ back rfl
  obtain ⟨before, contents, rfl⟩ := eq_concat_of_savedLast (hop.2.mp hack)
  exact ⟨⟨.saveFile contents, Except.ok ()⟩, by simp, rfl⟩

/-! ## When a window ends as it should -/

theorem onlyWhileAwaiting_of_none (hfits : Fits extractSpkiHash events)
    (hacks : ¬ AckFailed events) (hnone : NoneAcceptedAfterFailure events) :
    OnlyWhileAwaiting extractSpkiHash events := by
  rintro front tls back rfl
  obtain ⟨-, haccepted, ⟨hawaiting, -⟩ | ⟨-, hfailed⟩⟩ := hfits front _ back rfl
  · exact hawaiting
  · exfalso
    obtain ⟨before, rfl⟩ := eq_concat_of_acceptedLast haccepted
    rcases hfailed with ⟨hsave, -⟩ | ⟨-, hack⟩
    · exact hnone before (⟨.handshake .pairingWindow, tls⟩ :: back) (by simp) (hsave.of_concat rfl)
    · exact hacks (hack.append _)

theorem none_of_onlyWhileAwaiting (hfits : Fits extractSpkiHash events)
    (hended : Ended events result) (hwhile : OnlyWhileAwaiting extractSpkiHash events) :
    NoneAcceptedAfterFailure events := by
  rintro front back rfl hfailed
  have hlast : acceptedLast (front ++ [⟨.acceptTcp, some (Except.ok ())⟩]) = true := by
    rw [acceptedLast_concat]
    rfl
  cases back with
  | nil =>
      rw [acceptedLast_of_ended hended] at hlast
      cases hlast
  | cons x back =>
      have hop := hfits (front ++ [⟨.acceptTcp, some (Except.ok ())⟩]) x back (by simp)
      have hx := handshake_of_acceptedLast hop hlast
      obtain ⟨o, tls⟩ := x
      subst hx
      obtain ⟨-, -, ⟨-, hunsaved⟩ | ⟨hpaired, -⟩⟩ := hop
      · obtain ⟨contents, cause, hmem⟩ := hfailed
        exact hunsaved _ (List.mem_append_left _ hmem) trivial
      · exact not_isPaired_of_isAwaiting (hwhile _ tls back (by simp)) hpaired

/-- In every run that has returned, certificates of unknown clients were taken only while a
window was open and the result tells whether a pairing was stored, exactly when the write of
no acknowledgement failed and no connection was accepted after a failed save.  The first part
holds in every run that is still going on, too. -/
theorem window_exit_iff (extractSpkiHash : Bytes → Except Crypto.Error SpkiHash)
    (draws rounds reads : ℕ) (events : List TaskEvent) :
    (∀ result, (run extractSpkiHash draws rounds reads).Trace events result →
      (OnlyWhileAwaiting extractSpkiHash events ∧ TellsOutcome events result ↔
        ¬ AckFailed events ∧ NoneAcceptedAfterFailure events)) ∧
    ((run extractSpkiHash draws rounds reads).Performs events →
      ¬ AckFailed events → NoneAcceptedAfterFailure events →
        OnlyWhileAwaiting extractSpkiHash events) := by
  refine ⟨fun result htrace => ?_, fun hrun hacks hnone =>
    onlyWhileAwaiting_of_none (fits_of_performs hrun) hacks hnone⟩
  have hfits := fits_of_performs htrace.performs
  have hended : Ended events result := (run_pairs draws rounds reads).trace htrace
  constructor
  · rintro ⟨hwhile, htells⟩
    refine ⟨fun hfailed => ?_, none_of_onlyWhileAwaiting hfits hended hwhile⟩
    have hresult := htells.mpr (hfailed.stored hfits)
    rw [hresult] at hended
    exact hended.not_ackFailed hfailed
  · rintro ⟨hacks, hnone⟩
    refine ⟨onlyWhileAwaiting_of_none hfits hacks hnone, ?_, fun hstored => ?_⟩
    · rintro rfl
      exact hended.stored
    · cases result with
      | ok _ => rfl
      | error e => exact absurd (hended.2 hstored) hacks

end Exit

/-- A phone whose connection stays is paired, and the result tells so. -/
theorem phone_pairs_and_exits :
    ∃ events, (run (fun _ => .ok phoneKey) 1 2 2).Trace events (.ok ()) ∧
      OnlyWhileAwaiting (fun _ => .ok phoneKey) events ∧ TellsOutcome events (.ok ()) := by
  let out := (run (fun _ => .ok phoneKey) 1 2 2).exec (answering (offering 0 (.ok ()) (.ok ()))) 1
  have hvalue : out.value = some (.ok ()) := by rfl
  have htrace := Prog.exec_trace _ _ hvalue
  have hsent : out.events.all (fun e => !e.op.isSend || sentBy e) = true := by rfl
  have hsaved : out.events.all (fun e => !e.op.isSave || savedBy e) = true := by rfl
  refine ⟨out.events, htrace, ((window_exit_iff _ 1 2 2 out.events).1 _ htrace).mpr ⟨?_, ?_⟩⟩
  · rintro ⟨bytes, cause, hmem, -⟩
    cases List.all_eq_true.mp hsent _ hmem
  · rintro front back heq ⟨contents, cause, hmem⟩
    cases List.all_eq_true.mp hsaved _ (heq ▸ List.mem_append_left _ hmem)

/-- When the save fails, the next phone is taken although no code is accepted any more; and
when the acknowledgement fails, the subcommand fails although a pairing was stored. -/
theorem window_armed_after_pairing :
    (∃ events result, (run (fun _ => .ok phoneKey) 1 3 2).Trace events result ∧
      ¬ OnlyWhileAwaiting (fun _ => .ok phoneKey) events) ∧
    ∃ events result, (run (fun _ => .ok phoneKey) 1 3 2).Trace events result ∧
      ¬ TellsOutcome events result := by
  constructor
  · let out := (run (fun _ => .ok phoneKey) 1 3 2).exec
      (answering (offering 0 (.error (.io .io)) (.ok ()))) 2
    have hvalue : out.value = some (.error .windowExpired) := by rfl
    refine ⟨out.events, _, Prog.exec_trace _ _ hvalue, fun hwhile => ?_⟩
    -- the second connection
    have hawaiting := hwhile (out.events.take 16) (Except.ok ()) (out.events.drop 17) (by rfl)
    exact not_isPaired_of_isAwaiting hawaiting ⟨_, rfl⟩
  · let out := (run (fun _ => .ok phoneKey) 1 3 2).exec
      (answering (offering 0 (.ok ()) (.error .io))) 1
    have hvalue : out.value = some (.error .windowExpired) := by rfl
    refine ⟨out.events, _, Prog.exec_trace _ _ hvalue, fun htells => ?_⟩
    have hstored : Stored out.events := List.any_eq_true.mp (by rfl)
    cases htells.mpr hstored

end PairingFlow
end Daemon
end WakeMyPc
