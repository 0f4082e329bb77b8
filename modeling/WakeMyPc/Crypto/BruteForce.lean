import WakeMyPc.Crypto.Pairing
import WakeMyPc.Foundations.GuessingGame

/-!
# The guess budget of a pairing window

An attacker calls an open window again and again and chooses each call from the
reports so far.  Until the code is offered, a window reports the same as a window
without a code, and that one takes at most `maxPairingAttempts` offers.

Main results:

- Theorem `window_hides`: a window hides its code until it is offered.
- Theorem `pairing_window_guess_bound`: a strategy succeeds against at most
  `maxPairingAttempts` of the codes.
-/

namespace WakeMyPc
namespace Crypto

open Foundations
open Protocol (SpkiHash)

/-! ## Calls of an attacker -/

/-- A call on a window that an attacker can bring about. -/
inductive Call where
  | acceptPair (nowUnixMs : UInt64) (offeredCode : UInt32) (phoneName : RustString)
      (clientSpki : SpkiHash)
  | tick (nowUnixMs : UInt64)

/-- Make one call. -/
def PairingHandshake.call (h : PairingHandshake) : Call → PairingTransition × PairingHandshake
  | .acceptPair nowUnixMs offeredCode phoneName clientSpki =>
      h.acceptPair nowUnixMs offeredCode phoneName clientSpki
  | .tick nowUnixMs => h.tick nowUnixMs

/-- `start` opened the window `h` with this code at this time. -/
def Opens (nowUnixMs ttlMs : UInt64) (code : UInt32) (h : PairingHandshake) : Prop :=
  ∃ h₀ draws rest,
    PairingHandshake.start h₀ nowUnixMs ttlMs draws = some (.ok (.started code), h, rest)

/-- The report that an attacker is after. -/
def PairingTransition.IsSuccess (t : PairingTransition) : Prop :=
  ∃ record, t = .succeeded record

/-! ## A window without a code -/

/-- What an attacker can know of a window: its expiry and its failures so far. -/
inductive Window where
  | closed
  | opened (expiresAtUnixMs : UInt64) (failures : ℕ) (lt : failures < maxPairingAttempts.toNat)

namespace Window

/-- The window with a code. -/
def withCode (code : UInt32) : Window → PairingHandshake
  | closed => ⟨.idle⟩
  | opened expiresAtUnixMs failures _ => ⟨.awaiting code expiresAtUnixMs (UInt8.ofNat failures)⟩

/-- The code that a call tests. -/
def guess : Window → Call → Option UInt32
  | opened expiresAtUnixMs _ _, .acceptPair nowUnixMs offeredCode _ _ =>
      if expiresAtUnixMs ≤ nowUnixMs ∨ pairingCodeModulus ≤ offeredCode then none
      else some offeredCode
  | _, _ => none

/-- The window after one more failed offer. -/
def fail (expiresAtUnixMs : UInt64) (failures : ℕ) : Window :=
  if lt : failures + 1 < maxPairingAttempts.toNat then opened expiresAtUnixMs (failures + 1) lt
  else closed

/-- A call that does not offer the code. -/
def miss : Window → Call → PairingTransition × Window
  | closed, .acceptPair _ _ _ _ => (.rejected .notInWindow, closed)
  | closed, .tick _ => (.noOp, closed)
  | opened expiresAtUnixMs failures lt, .tick nowUnixMs =>
      if expiresAtUnixMs ≤ nowUnixMs then (.expired, closed)
      else (.noOp, opened expiresAtUnixMs failures lt)
  | opened expiresAtUnixMs failures _, .acceptPair nowUnixMs offeredCode _ _ =>
      if expiresAtUnixMs ≤ nowUnixMs then (.rejected .expired, closed)
      else if failures + 1 < maxPairingAttempts.toNat then
        (.rejected (if pairingCodeModulus ≤ offeredCode then .outOfRange else .wrongCode),
          fail expiresAtUnixMs failures)
      else (.rejected .tooManyAttempts, fail expiresAtUnixMs failures)

/-- The offers that a window still takes. -/
def budget : Window → ℕ
  | closed => 0
  | opened _ failures _ => maxPairingAttempts.toNat - failures

theorem budget_fail (expiresAtUnixMs : UInt64) (failures : ℕ) :
    (fail expiresAtUnixMs failures).budget = maxPairingAttempts.toNat - (failures + 1) := by
  unfold fail
  split
  · rfl
  · simp only [budget]
    omega

theorem miss_acceptPair_open {expiresAtUnixMs nowUnixMs : UInt64} {failures : ℕ}
    {lt : failures < maxPairingAttempts.toNat} (h : ¬ expiresAtUnixMs ≤ nowUnixMs)
    (offeredCode : UInt32) (phoneName : RustString) (clientSpki : SpkiHash) :
    (miss (opened expiresAtUnixMs failures lt)
      (.acceptPair nowUnixMs offeredCode phoneName clientSpki)).2 =
      fail expiresAtUnixMs failures := by
  simp only [miss, if_neg h]
  split <;> rfl

theorem guess_cost {w : Window} {x : Call} {code : UInt32} (h : w.guess x = some code) :
    (w.miss x).2.budget < w.budget := by
  cases w with
  | closed => cases x <;> simp [guess] at h
  | opened expiresAtUnixMs failures lt =>
      cases x with
      | tick nowUnixMs => simp [guess] at h
      | acceptPair nowUnixMs offeredCode phoneName clientSpki =>
          simp only [guess] at h
          split at h
          · simp at h
          · rename_i hcond
            rw [miss_acceptPair_open (fun hle => hcond (.inl hle)), budget_fail, budget]
            omega

theorem budget_miss_le (w : Window) (x : Call) : (w.miss x).2.budget ≤ w.budget := by
  cases w with
  | closed => cases x <;> simp [miss, budget]
  | opened expiresAtUnixMs failures lt =>
      cases x with
      | tick nowUnixMs =>
          simp only [miss]
          split <;> simp [budget]
      | acceptPair nowUnixMs offeredCode phoneName clientSpki =>
          by_cases h : expiresAtUnixMs ≤ nowUnixMs
          · simp [miss, h, budget]
          · rw [miss_acceptPair_open h, budget_fail, budget]
            omega

/-- The window as a machine whose calls each test at most one code. -/
def game : GuessingGame UInt32 Window Call PairingTransition where
  guess := guess
  miss := miss
  budget := budget
  guess_cost := guess_cost
  budget_le := budget_miss_le

end Window

/-! ## The window with a code -/

/-- One more failure, as the code counts it. -/
private theorem u8_failures {failures : ℕ} (h : failures < maxPairingAttempts.toNat) :
    u8SaturatingAdd (UInt8.ofNat failures) 1 = UInt8.ofNat (failures + 1) ∧
      (u8SaturatingAdd (UInt8.ofNat failures) 1 ≥ maxPairingAttempts ↔
        ¬ failures + 1 < maxPairingAttempts.toNat) := by
  have h5 : maxPairingAttempts.toNat = 5 := rfl
  have hback : (UInt8.ofNat failures).toNat = failures := by
    rw [UInt8.toNat_ofNat']
    omega
  have hsum : u8SaturatingAdd (UInt8.ofNat failures) 1 = UInt8.ofNat (failures + 1) := by
    rw [u8SaturatingAdd, hback, Nat.min_eq_left (by simp; omega)]
    rfl
  refine ⟨hsum, ?_⟩
  rw [hsum, ge_iff_le, UInt8.le_iff_toNat_le, UInt8.toNat_ofNat']
  omega

/-- A call that does not test the code is answered as if there were none. -/
theorem call_withCode_of_ne {code : UInt32} (hcode : code < pairingCodeModulus) (w : Window)
    (x : Call) (h : w.guess x ≠ some code) :
    (w.withCode code).call x = ((w.miss x).1, (w.miss x).2.withCode code) := by
  cases w with
  | closed => cases x <;> rfl
  | opened expiresAtUnixMs failures lt =>
      cases x with
      | tick nowUnixMs =>
          simp only [Window.withCode, PairingHandshake.call, PairingHandshake.tick_awaiting,
            Window.miss]
          split <;> rfl
      | acceptPair nowUnixMs offeredCode phoneName clientSpki =>
          by_cases hexpired : expiresAtUnixMs ≤ nowUnixMs
          · simp only [Window.withCode, PairingHandshake.call,
              PairingHandshake.acceptPair_expired hexpired, Window.miss, if_pos hexpired]
          · have hwrong : pairingCodeModulus ≤ offeredCode ∨ offeredCode ≠ code := by
              by_contra hnot
              rw [not_or, not_not] at hnot
              exact h (by simp [Window.guess, hexpired, hnot.2, hcode])
            obtain ⟨hsum, hlast⟩ := u8_failures lt
            simp only [Window.withCode, PairingHandshake.call,
              PairingHandshake.acceptPair_wrong (UInt64.not_le.mp hexpired) hwrong, Window.miss,
              if_neg hexpired]
            by_cases hmore : failures + 1 < maxPairingAttempts.toNat
            · rw [if_neg (fun hge => hlast.mp hge hmore), if_pos hmore, hsum, Window.fail,
                dif_pos hmore]
            · rw [if_pos (hlast.mpr hmore), if_neg hmore, Window.fail, dif_neg hmore]

/-- A window hides its code until it is offered. -/
theorem window_hides {code : UInt32} (hcode : code < pairingCodeModulus) :
    Window.game.Hides PairingHandshake.call PairingTransition.IsSuccess code
      (fun h w => h = w.withCode code) where
  answer := by
    rintro _ w x rfl h
    rw [call_withCode_of_ne hcode w x h]
    rfl
  state := by
    rintro _ w x rfl h
    rw [call_withCode_of_ne hcode w x h]
    rfl
  not_won := by
    rintro w x ⟨record, h⟩
    cases w <;> cases x <;> simp only [Window.game, Window.miss] at h <;>
      (try split at h) <;> (try split at h) <;> simp at h

/-- A window that was just opened has made no failures. -/
theorem opens_withCode {nowUnixMs ttlMs : UInt64} {code : UInt32} {h : PairingHandshake}
    (hopens : Opens nowUnixMs ttlMs code h) :
    h = (Window.opened (saturatingAdd nowUnixMs ttlMs) 0 (by decide)).withCode code := by
  obtain ⟨h₀, draws, rest, hstart⟩ := hopens
  unfold PairingHandshake.start at hstart
  split at hstart
  · split at hstart <;> simp at hstart
    obtain ⟨rfl, rfl, -⟩ := hstart
    rfl
  · simp at hstart

/-- A strategy that chooses each call from the reports so far succeeds against at
most `maxPairingAttempts` of the codes that a window can have. -/
theorem pairing_window_guess_bound (nowUnixMs ttlMs : UInt64)
    (strategy : List PairingTransition → Call) :
    {code : UInt32 | code < 1000000 ∧ ∃ h, Opens nowUnixMs ttlMs code h ∧
      ∃ n record, .succeeded record ∈ (play PairingHandshake.call strategy h n).1}.encard ≤
      maxPairingAttempts.toNat := by
  refine GuessingGame.encard_won_le Window.game strategy
    (Window.opened (saturatingAdd nowUnixMs ttlMs) 0 (by decide)) ?_
  rintro code ⟨hcode, h, hopens, n, record, hmem⟩
  exact ⟨n, GuessingGame.mem_guesses_of_won (window_hides hcode) (opens_withCode hopens) hmem
    ⟨record, rfl⟩⟩

end Crypto
end WakeMyPc
