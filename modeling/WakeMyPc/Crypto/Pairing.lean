import WakeMyPc.Crypto.Nonce
import WakeMyPc.Foundations.Resampling
import WakeMyPc.Protocol.Message

/-!
# Pairing handshake

The state machine of one pairing window.  It opens with a random six-digit code,
closes on success, on expiry, or after a bounded number of wrong codes, and
touches no clock of its own: every call is given the time.

Main results:

- Theorems `acceptPair_expired`, `acceptPair_wrong` and `acceptPair_right`: the
  three ways a window takes an offered code.
- Theorem `start_idle`: a window opens with the code that was drawn.
- Theorem `randomPairingCode_eq_resample`: a code is that of the first draw with one.
-/

namespace WakeMyPc
namespace Crypto

open Foundations
open Protocol (SpkiHash)

/-! ## Types -/

/-- Default length of a pairing window: five minutes. -/
def pairingWindowDefaultMs : UInt64 := 5 * 60 * 1000

/-- Wrong codes after which a window is closed. -/
def maxPairingAttempts : UInt8 := 5

/-- Pairing codes are below this. -/
def pairingCodeModulus : UInt32 := 1000000

/-- One successful pairing. -/
structure PairingRecord where
  phoneName : RustString
  clientSpki : SpkiHash
  pairedAtUnixMs : UInt64
deriving DecidableEq

/-- The state of the handshake. -/
inductive PairingState where
  | idle
  | awaiting (code : UInt32) (expiresAtUnixMs : UInt64) (failedAttempts : UInt8)
  | paired (record : PairingRecord)
deriving DecidableEq

/-- Why an offered code was rejected. -/
inductive PairingRejection where
  | notInWindow
  | wrongCode
  | expired
  | tooManyAttempts
  | outOfRange
deriving DecidableEq

/-- What a call reports. -/
inductive PairingTransition where
  | started (code : UInt32)
  | expired
  | succeeded (record : PairingRecord)
  | rejected (reason : PairingRejection)
  | noOp
deriving DecidableEq

/-- The handshake. -/
structure PairingHandshake where
  state : PairingState
deriving DecidableEq

/-! ## Random codes -/

/-- One answer of the operating system's random number generator. -/
abbrev Draw := Except Error (Vector UInt8 4)

/-- The number whose bytes are given, least significant first. -/
def leU32 (buf : Vector UInt8 4) : UInt32 :=
  UInt32.ofNat (beValue buf.toList.reverse)

/-- The largest multiple of the modulus that fits a `u32`. -/
def resampleThreshold : UInt32 :=
  (4294967295 / pairingCodeModulus) * pairingCodeModulus

/-- Draw until a number is below the threshold, and reduce it.  The result comes
with the draws that are left; there is none while every draw was too large. -/
def randomPairingCode : List Draw → Option (Except Error UInt32 × List Draw)
  | [] => none
  | .error e :: draws => some (.error e, draws)
  | .ok buf :: draws =>
      if leU32 buf < resampleThreshold then some (.ok (leU32 buf % pairingCodeModulus), draws)
      else randomPairingCode draws

/-- Every number has one draw. -/
theorem leU32_bijective : Function.Bijective leU32 := by
  constructor
  · intro buf buf' h
    have hvalue (buf : Vector UInt8 4) : beBytes 4 (leU32 buf).toNat = buf.toList.reverse := by
      have hlength : buf.toList.reverse.length = 4 := by simp
      have hlt : beValue buf.toList.reverse < 2 ^ 32 := by
        have hbound := beValue_lt buf.toList.reverse
        rwa [hlength] at hbound
      have hback := beBytes_beValue buf.toList.reverse
      rwa [hlength, ← UInt32.toNat_ofNat_of_lt' hlt] at hback
    have hreverse : buf.toList.reverse = buf'.toList.reverse := by rw [← hvalue, ← hvalue, h]
    exact Vector.toList_inj.mp (List.reverse_injective hreverse)
  · intro v
    let buf : Vector UInt8 4 := ⟨(beBytes 4 v.toNat).reverse.toArray, by simp⟩
    have hbytes : buf.toList.reverse = beBytes 4 v.toNat := by simp [buf]
    refine ⟨buf, ?_⟩
    rw [leU32, hbytes, beValue_beBytes v.toNat_lt, UInt32.ofNat_toNat]

/-- The code that a draw gives, unless its number is too large. -/
def codeOfDraw (buf : Vector UInt8 4) : Option UInt32 :=
  if leU32 buf < resampleThreshold then some (leU32 buf % pairingCodeModulus) else none

/-- What an answer of the generator ends the loop with. -/
def drawResult : Draw → Option (Except Error UInt32)
  | .error e => some (.error e)
  | .ok buf => (codeOfDraw buf).map .ok

theorem codeOfDraw_eq_none_iff {buf : Vector UInt8 4} :
    codeOfDraw buf = none ↔ resampleThreshold ≤ leU32 buf := by
  simp [codeOfDraw]

theorem codeOfDraw_eq_some_iff {buf : Vector UInt8 4} {code : UInt32} :
    codeOfDraw buf = some code ↔
      leU32 buf < resampleThreshold ∧ leU32 buf % pairingCodeModulus = code := by
  simp [codeOfDraw]

/-- The code is that of the first draw with one. -/
theorem randomPairingCode_eq_resample (draws : List Draw) :
    randomPairingCode draws = resample drawResult draws := by
  induction draws with
  | nil => rfl
  | cons draw draws ih =>
      cases draw with
      | error e => rfl
      | ok buf =>
          rw [randomPairingCode, resample, drawResult, codeOfDraw]
          split
          · rfl
          · exact ih

theorem drawResult_eq_none_iff {draw : Draw} :
    drawResult draw = none ↔ ∃ buf, draw = .ok buf ∧ resampleThreshold ≤ leU32 buf := by
  cases draw with
  | error e => simp [drawResult]
  | ok buf => simp [drawResult, codeOfDraw_eq_none_iff]

theorem drawResult_eq_ok_iff {draw : Draw} {code : UInt32} :
    drawResult draw = some (.ok code) ↔
      ∃ buf, draw = .ok buf ∧ leU32 buf < resampleThreshold ∧
        leU32 buf % pairingCodeModulus = code := by
  cases draw with
  | error e => simp [drawResult]
  | ok buf => simp [drawResult, codeOfDraw_eq_some_iff]

/-- The code is that of the first number below the threshold, and no draw before it fails. -/
theorem randomPairingCode_ok_iff {draws rest : List Draw} {code : UInt32} :
    randomPairingCode draws = some (.ok code, rest) ↔
      ∃ front buf, draws = front ++ .ok buf :: rest ∧
        (∀ draw ∈ front, ∃ large, draw = .ok large ∧ resampleThreshold ≤ leU32 large) ∧
        leU32 buf < resampleThreshold ∧ leU32 buf % pairingCodeModulus = code := by
  simp only [randomPairingCode_eq_resample, resample_eq_some_iff, drawResult_eq_none_iff]
  constructor
  · rintro ⟨front, draw, rfl, hfront, hdraw⟩
    obtain ⟨buf, rfl, hlt, hcode⟩ := drawResult_eq_ok_iff.mp hdraw
    exact ⟨front, buf, rfl, hfront, hlt, hcode⟩
  · rintro ⟨front, buf, rfl, hfront, hlt, hcode⟩
    exact ⟨front, .ok buf, rfl, hfront, drawResult_eq_ok_iff.mpr ⟨buf, rfl, hlt, hcode⟩⟩

/-- The first number is too large, and the second gives the code. -/
example : randomPairingCode
    [.ok #v[255, 255, 255, 255], .ok #v[65, 66, 15, 0], .ok #v[0, 0, 0, 0]] =
      some (.ok 1, [.ok #v[0, 0, 0, 0]]) :=
  rfl

/-! ## Operations -/

namespace PairingHandshake

/-- A fresh handshake. -/
def new : PairingHandshake := ⟨.idle⟩

/-- Open a window, unless one is open or a pairing is waiting to be taken. -/
def start (h : PairingHandshake) (nowUnixMs ttlMs : UInt64) (draws : List Draw) :
    Option (Except Error PairingTransition × PairingHandshake × List Draw) :=
  match h.state with
  | .idle =>
      match randomPairingCode draws with
      | none => none
      | some (.error e, draws) => some (.error e, h, draws)
      | some (.ok code, draws) =>
          let expiresAtUnixMs := saturatingAdd nowUnixMs ttlMs
          some (.ok (.started code), ⟨.awaiting code expiresAtUnixMs 0⟩, draws)
  | _ => some (.ok .noOp, h, draws)

/-- Take an offered code. -/
def acceptPair (h : PairingHandshake) (nowUnixMs : UInt64) (offeredCode : UInt32)
    (phoneName : RustString) (clientSpki : SpkiHash) : PairingTransition × PairingHandshake :=
  match h.state with
  | .awaiting code expiresAtUnixMs priorFailures =>
      if nowUnixMs ≥ expiresAtUnixMs then
        (.rejected .expired, ⟨.idle⟩)
      else
        let outOfRange := decide (offeredCode ≥ pairingCodeModulus)
        if outOfRange || offeredCode != code then
          let newFailures := u8SaturatingAdd priorFailures 1
          if newFailures ≥ maxPairingAttempts then
            (.rejected .tooManyAttempts, ⟨.idle⟩)
          else
            (.rejected (if outOfRange then .outOfRange else .wrongCode),
              ⟨.awaiting code expiresAtUnixMs newFailures⟩)
        else
          let record : PairingRecord :=
            { phoneName, clientSpki, pairedAtUnixMs := nowUnixMs }
          (.succeeded record, ⟨.paired record⟩)
  | .idle => (.rejected .notInWindow, h)
  | .paired _ => (.rejected .notInWindow, h)

/-- Check the window for expiry. -/
def tick (h : PairingHandshake) (nowUnixMs : UInt64) : PairingTransition × PairingHandshake :=
  match h.state with
  | .awaiting _ expiresAtUnixMs _ =>
      if nowUnixMs ≥ expiresAtUnixMs then (.expired, ⟨.idle⟩) else (.noOp, h)
  | _ => (.noOp, h)

/-- Go back to having no window. -/
def reset (_h : PairingHandshake) : PairingHandshake := ⟨.idle⟩

/-! ## What one call does -/

/-- A window opens with the code that was drawn. -/
theorem start_idle {draws rest : List Draw} {code : UInt32} (nowUnixMs ttlMs : UInt64)
    (h : randomPairingCode draws = some (.ok code, rest)) :
    new.start nowUnixMs ttlMs draws =
      some (.ok (.started code), ⟨.awaiting code (saturatingAdd nowUnixMs ttlMs) 0⟩, rest) := by
  simp only [start, new, h]

section Awaiting

variable {code offeredCode : UInt32} {expiresAtUnixMs nowUnixMs : UInt64} {priorFailures : UInt8}
  {phoneName : RustString} {clientSpki : SpkiHash}

theorem acceptPair_expired (h : expiresAtUnixMs ≤ nowUnixMs) :
    acceptPair ⟨.awaiting code expiresAtUnixMs priorFailures⟩ nowUnixMs offeredCode phoneName
        clientSpki =
      (.rejected .expired, ⟨.idle⟩) := by
  simp only [acceptPair, ge_iff_le, if_pos h]

/-- A wrong or out-of-range code costs an attempt, and the last one closes the
window. -/
theorem acceptPair_wrong (hopen : nowUnixMs < expiresAtUnixMs)
    (hwrong : pairingCodeModulus ≤ offeredCode ∨ offeredCode ≠ code) :
    acceptPair ⟨.awaiting code expiresAtUnixMs priorFailures⟩ nowUnixMs offeredCode phoneName
        clientSpki =
      if u8SaturatingAdd priorFailures 1 ≥ maxPairingAttempts then
        (.rejected .tooManyAttempts, ⟨.idle⟩)
      else
        (.rejected (if pairingCodeModulus ≤ offeredCode then .outOfRange else .wrongCode),
          ⟨.awaiting code expiresAtUnixMs (u8SaturatingAdd priorFailures 1)⟩) := by
  have hcond : (decide (offeredCode ≥ pairingCodeModulus) || offeredCode != code) = true := by
    simpa using hwrong
  simp only [acceptPair, ge_iff_le, if_neg (UInt64.not_le.mpr hopen)]
  rw [if_pos hcond]
  simp only [decide_eq_true_eq]

/-- The right code succeeds and carries the offered name, key and time. -/
theorem acceptPair_right (hopen : nowUnixMs < expiresAtUnixMs)
    (hrange : offeredCode < pairingCodeModulus) (hright : offeredCode = code) :
    acceptPair ⟨.awaiting code expiresAtUnixMs priorFailures⟩ nowUnixMs offeredCode phoneName
        clientSpki =
      (.succeeded ⟨phoneName, clientSpki, nowUnixMs⟩,
        ⟨.paired ⟨phoneName, clientSpki, nowUnixMs⟩⟩) := by
  have hcond : ¬ (decide (offeredCode ≥ pairingCodeModulus) || offeredCode != code) = true := by
    simpa [hright, UInt32.not_le] using hright ▸ hrange
  simp only [acceptPair, ge_iff_le, if_neg (UInt64.not_le.mpr hopen)]
  rw [if_neg hcond]

theorem tick_awaiting :
    tick ⟨.awaiting code expiresAtUnixMs priorFailures⟩ nowUnixMs =
      if expiresAtUnixMs ≤ nowUnixMs then (.expired, ⟨.idle⟩)
      else (.noOp, ⟨.awaiting code expiresAtUnixMs priorFailures⟩) :=
  rfl

end Awaiting
end PairingHandshake
end Crypto
end WakeMyPc
