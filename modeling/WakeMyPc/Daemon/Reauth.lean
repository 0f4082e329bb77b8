import WakeMyPc.Protocol.Message

/-!
# Re-auth window

State-changing commands need a credential prompt that is not too long ago.

Main results:

- Theorem `evaluate_active_iff`: when such commands are allowed.
- Theorem `evaluate_mono`: with time an allowed command can only become a
  refused one.
-/

namespace WakeMyPc
namespace Daemon

open Protocol (ProtocolError ReauthInterval)

/-- Whether state-changing commands are allowed. -/
inductive ReauthState where
  | active
  | needsReauth
deriving DecidableEq

/-- The wire error of a refused command. -/
def ReauthState.blockStateChange : ReauthState → Option ProtocolError
  | .active => none
  | .needsReauth => some .requiresReauth

/-- The interval of a stored number of days; an unknown number is seven days. -/
def intervalFromDays (days : UInt8) : ReauthInterval :=
  if days = 0 then .off
  else if days = 1 then .oneDay
  else if days = 7 then .sevenDays
  else if days = 30 then .thirtyDays
  else .sevenDays

/-- The stored number of days of an interval. -/
def intervalToDays : ReauthInterval → UInt8
  | .off => 0
  | .oneDay => 1
  | .sevenDays => 7
  | .thirtyDays => 30

/-- Milliseconds of a day. -/
def dayMs : UInt64 := 86400000

/-- When the window ends; never when the interval is off. -/
def expiresAtUnixMs (lastAuthUnixMs : UInt64) (intervalDays : UInt8) : UInt64 :=
  if intervalDays = 0 then u64Max
  else
    let windowMs := saturatingMul intervalDays.toUInt64 dayMs
    saturatingAdd lastAuthUnixMs windowMs

/-- Whether state-changing commands are allowed now. -/
def evaluate (nowUnixMs lastAuthUnixMs : UInt64) (intervalDays : UInt8) : ReauthState :=
  if intervalDays = 0 then .active
  else if nowUnixMs < expiresAtUnixMs lastAuthUnixMs intervalDays then .active
  else .needsReauth

/-- State-changing commands are allowed when the interval is off or the window
has not ended. -/
theorem evaluate_active_iff (nowUnixMs lastAuthUnixMs : UInt64) (intervalDays : UInt8) :
    evaluate nowUnixMs lastAuthUnixMs intervalDays = .active ↔
      intervalDays = 0 ∨ nowUnixMs < expiresAtUnixMs lastAuthUnixMs intervalDays := by
  unfold evaluate
  split
  · simp_all
  · split <;> simp_all

theorem evaluate_needsReauth_iff (nowUnixMs lastAuthUnixMs : UInt64) (intervalDays : UInt8) :
    evaluate nowUnixMs lastAuthUnixMs intervalDays = .needsReauth ↔
      intervalDays ≠ 0 ∧ expiresAtUnixMs lastAuthUnixMs intervalDays ≤ nowUnixMs := by
  rw [← not_iff_not, ← UInt64.not_lt, not_and_not_right]
  constructor
  · intro h h0
    have hactive : evaluate nowUnixMs lastAuthUnixMs intervalDays = .active := by
      cases he : evaluate nowUnixMs lastAuthUnixMs intervalDays with
      | active => rfl
      | needsReauth => exact absurd he h
    exact ((evaluate_active_iff _ _ _).mp hactive).resolve_left h0
  · intro h hneeds
    have hactive : evaluate nowUnixMs lastAuthUnixMs intervalDays = .active := by
      rw [evaluate_active_iff]
      by_cases h0 : intervalDays = 0
      · exact .inl h0
      · exact .inr (h h0)
    simp [hactive] at hneeds

/-- The end of a window, as a number. -/
theorem toNat_expiresAtUnixMs (lastAuthUnixMs : UInt64) {intervalDays : UInt8}
    (h : intervalDays ≠ 0) :
    (expiresAtUnixMs lastAuthUnixMs intervalDays).toNat =
      min (lastAuthUnixMs.toNat + intervalDays.toNat * 86400000) (2 ^ 64 - 1) := by
  have hdays : intervalDays.toNat < 256 := intervalDays.toNat_lt
  have hwindow : (saturatingMul intervalDays.toUInt64 dayMs).toNat =
      intervalDays.toNat * 86400000 := by
    rw [toNat_saturatingMul, UInt8.toNat_toUInt64]
    change min (intervalDays.toNat * 86400000) (2 ^ 64 - 1) = _
    omega
  rw [expiresAtUnixMs, if_neg h]
  simp only [toNat_saturatingAdd, hwindow]

/-- With time an allowed command can only become a refused one. -/
theorem evaluate_mono {nowUnixMs laterUnixMs lastAuthUnixMs : UInt64} {intervalDays : UInt8}
    (hle : nowUnixMs ≤ laterUnixMs)
    (h : evaluate nowUnixMs lastAuthUnixMs intervalDays = .needsReauth) :
    evaluate laterUnixMs lastAuthUnixMs intervalDays = .needsReauth := by
  rw [evaluate_needsReauth_iff] at h ⊢
  exact ⟨h.1, UInt64.le_trans h.2 hle⟩

end Daemon
end WakeMyPc
