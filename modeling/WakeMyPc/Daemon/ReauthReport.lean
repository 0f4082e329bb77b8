import WakeMyPc.Daemon.Latch

/-!
# The reported re-auth window

A status request reports an interval and the time at which the window ends.  The interval
is a reading of the stored number of days, while the time, like the lock itself, is
computed from that number.

Main results:

- Theorem `Arrival.status_value`: what a status request reports.
- Theorem `windowEnd_eq_iff`: when the reported time is the end of the reported interval.
- Theorem `report_agrees_iff`: when a report is what the server enforces.
-/

namespace WakeMyPc
namespace Daemon

open Protocol

/-! ## What is reported -/

/-- The days of an interval after the last credential prompt, or never when it is off. -/
def windowEnd (lastAuthenticatedAtUnixMs : UInt64) (interval : ReauthInterval) : ℕ :=
  if interval = .off then 2 ^ 64 - 1
  else
    min (lastAuthenticatedAtUnixMs.toNat + (intervalToDays interval).toNat * 86400000)
      (2 ^ 64 - 1)

/-- At a time, what a status request reports of some contents is what commands on the same
contents meet: the reported time is the end of the reported interval, and a command is
refused exactly from that time on. -/
def ReportAgrees (c : KeystoreContents) (nowMs : UInt64) : Prop :=
  ∀ (status : Arrival) (lastAuthenticatedAtUnixMs : UInt64) (interval : ReauthInterval)
    (expiresAt : UInt64), status.frame = .reauthStatus →
    (status.outcome c).value =
      some (.reauthInfo lastAuthenticatedAtUnixMs interval expiresAt) →
    expiresAt.toNat = windowEnd c.lastAuthenticatedAtUnixMs interval ∧
      ∀ command : Arrival, isStateChange command.frame = true → command.nowMs = nowMs →
        ((command.outcome c).value = some (.error command.requestNonce .requiresReauth) ↔
          expiresAt ≤ nowMs)

/-- The stored number of days is that of an interval, or the window ends at the largest
time both after that number of days and after the seven that are reported. -/
def ReportSound (c : KeystoreContents) : Prop :=
  intervalToDays (intervalFromDays c.reauthIntervalDays) = c.reauthIntervalDays ∨
    2 ^ 64 - 1 ≤
      c.lastAuthenticatedAtUnixMs.toNat + min c.reauthIntervalDays.toNat 7 * 86400000

/-- A status request is answered at every time and reports the stored numbers. -/
theorem Arrival.status_value (a : Arrival) (c : KeystoreContents) (h : a.frame = .reauthStatus) :
    (a.outcome c).value =
      some (.reauthInfo c.lastAuthenticatedAtUnixMs (intervalFromDays c.reauthIntervalDays)
        (expiresAtUnixMs c.lastAuthenticatedAtUnixMs c.reauthIntervalDays)) := by
  obtain ⟨rest, response, -, hresponse, hanswered⟩ := a.outcome_answered c
  rw [h] at hanswered
  rw [hresponse]
  cases hanswered with
  | reauthStatus => rfl
  | blocked frame hframe hstate => simp [isStateChange] at hframe

/-! ## When the two windows are one -/

/-- Only a number of days that is zero stands for no interval. -/
theorem intervalFromDays_eq_off_iff (days : UInt8) : intervalFromDays days = .off ↔ days = 0 := by
  unfold intervalFromDays
  split_ifs <;> simp_all

/-- A number of days that is not that of an interval is read as seven. -/
theorem intervalToDays_fromDays (days : UInt8) :
    intervalToDays (intervalFromDays days) = days ∨
      intervalToDays (intervalFromDays days) = 7 := by
  unfold intervalFromDays
  split_ifs <;> simp_all [intervalToDays]

/-- The reported time is the end of the reported interval exactly when the stored number is
that of the interval, or both windows are cut off. -/
theorem windowEnd_eq_iff (c : KeystoreContents) :
    (expiresAtUnixMs c.lastAuthenticatedAtUnixMs c.reauthIntervalDays).toNat =
        windowEnd c.lastAuthenticatedAtUnixMs (intervalFromDays c.reauthIntervalDays) ↔
      ReportSound c := by
  unfold windowEnd ReportSound
  simp only [intervalFromDays_eq_off_iff]
  by_cases hoff : c.reauthIntervalDays = 0
  · rw [hoff, if_pos rfl]
    exact iff_of_true rfl (.inl rfl)
  · rw [if_neg hoff, toNat_expiresAtUnixMs _ hoff]
    rcases intervalToDays_fromDays c.reauthIntervalDays with hsame | hseven
    · rw [hsame]
      exact iff_of_true rfl (.inl rfl)
    · rw [hseven, ← UInt8.toNat_inj]
      have hdays : (7 : UInt8).toNat = 7 := rfl
      rw [hdays]
      omega

/-- Commands are refused exactly from the reported time on. -/
theorem refused_iff_expired (command : Arrival) (c : KeystoreContents)
    (hframe : isStateChange command.frame = true) (hnow : command.nowMs.toNat < 2 ^ 64 - 1) :
    (command.outcome c).value = some (.error command.requestNonce .requiresReauth) ↔
      expiresAtUnixMs c.lastAuthenticatedAtUnixMs c.reauthIntervalDays ≤ command.nowMs := by
  rw [command.refused_iff c hframe, Locked, evaluate_needsReauth_iff]
  constructor
  · exact fun h => h.2
  · -- the end of a window that is off is never reached
    intro hexpired
    refine ⟨fun hoff => ?_, hexpired⟩
    rw [expiresAtUnixMs, if_pos hoff, UInt64.le_iff_toNat_le] at hexpired
    have hmax : u64Max.toNat = 2 ^ 64 - 1 := rfl
    omega

/-- Where reports agree, the stored number is that of an interval or the windows are cut off. -/
theorem sound_of_agrees {c : KeystoreContents} {nowMs : UInt64} (hagrees : ReportAgrees c nowMs) :
    ReportSound c := by
  let status : Arrival := ⟨phoneKey, .reauthStatus, 1, nowMs, succeeding c⟩
  exact (windowEnd_eq_iff c).mp (hagrees status _ _ _ rfl (status.status_value c rfl)).1

/-- At every time below the largest one, what a status request reports is what the server
enforces exactly when the stored number of days is that of an interval, or both windows are
cut off at the largest time. -/
theorem report_agrees_iff (c : KeystoreContents) (nowMs : UInt64)
    (hnow : nowMs.toNat < 2 ^ 64 - 1) : ReportAgrees c nowMs ↔ ReportSound c := by
  refine ⟨sound_of_agrees, fun hsound => ?_⟩
  intro status lastAuthenticatedAtUnixMs interval expiresAt hframe hvalue
  rw [status.status_value c hframe] at hvalue
  cases hvalue
  refine ⟨(windowEnd_eq_iff c).mpr hsound, ?_⟩
  rintro command hcommand rfl
  exact refused_iff_expired command c hcommand hnow

/-- The report of a window of seven days, eight days after the credential prompt. -/
theorem week_report_agrees : ReportAgrees weekContents eightDays :=
  (report_agrees_iff weekContents eightDays (by decide)).mpr (.inl rfl)

/-- Contents with a window of three days. -/
def threeDayContents : KeystoreContents :=
  { pairedContents with reauthIntervalDays := 3 }

/-- A window of three days is reported as one of seven days that ends after three. -/
theorem three_days_disagree : ¬ ReportAgrees threeDayContents 0 := by
  intro hagrees
  rcases sound_of_agrees hagrees with hsame | hcut
  · exact absurd hsame (by decide)
  · exact absurd hcut (by decide)

end Daemon
end WakeMyPc
