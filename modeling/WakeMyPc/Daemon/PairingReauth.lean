import WakeMyPc.Daemon.KeystoreFile
import WakeMyPc.Daemon.Latch
import WakeMyPc.Daemon.PairingSoundness

/-!
# The re-auth window of a fresh pairing

A pairing stamps its own record with the time, but the server looks at the time of the last
credential prompt that is kept for all phones.

Main results:

- Theorem `unlocked_iff`: when the server takes commands throughout the interval that starts
  with a pairing.
- Theorem `PairingFlow.paired_phone_commands_iff`: when a phone that was just paired can give
  commands.
-/

namespace WakeMyPc
namespace Daemon

open Foundations
open Foundations.Prog (exec)
open Protocol

/-! ## The window of the server -/

/-- The server takes commands throughout an interval exactly when re-auth is off or its own
window ends no earlier. -/
theorem unlocked_iff (c : KeystoreContents) (start : UInt64) {days : UInt8} (hdays : 0 < days) :
    (∀ nowMs : UInt64, start ≤ nowMs → nowMs.toNat < start.toNat + days.toNat * 86400000 →
      ¬ Locked c nowMs) ↔
      c.reauthIntervalDays = 0 ∨
        (start.toNat + days.toNat * 86400000 ≤
            c.lastAuthenticatedAtUnixMs.toNat + c.reauthIntervalDays.toNat * 86400000 ∧
          start.toNat + days.toNat * 86400000 < 2 ^ 64) := by
  have hpos : 0 < days.toNat := UInt8.lt_iff_toNat_lt.mp hdays
  by_cases hoff : c.reauthIntervalDays = 0
  · refine iff_of_true (fun nowMs _ _ => ?_) (.inl hoff)
    rw [Locked, evaluate_needsReauth_iff]
    exact fun h => h.1 hoff
  · have hend := toNat_expiresAtUnixMs c.lastAuthenticatedAtUnixMs hoff
    have hlocked : ∀ nowMs : UInt64, Locked c nowMs ↔
        min (c.lastAuthenticatedAtUnixMs.toNat + c.reauthIntervalDays.toNat * 86400000)
          (2 ^ 64 - 1) ≤ nowMs.toNat := by
      intro nowMs
      rw [Locked, evaluate_needsReauth_iff, UInt64.le_iff_toNat_le, hend]
      exact and_iff_right hoff
    have hstart : start.toNat < 2 ^ 64 := start.toNat_lt
    rw [or_iff_right hoff]
    constructor
    · intro h
      by_contra hcond
      -- the later of the start and the end of the window of the server
      let nowMs := UInt64.ofNat (max start.toNat (min (c.lastAuthenticatedAtUnixMs.toNat +
        c.reauthIntervalDays.toNat * 86400000) (2 ^ 64 - 1)))
      have hnow : nowMs.toNat = max start.toNat (min (c.lastAuthenticatedAtUnixMs.toNat +
          c.reauthIntervalDays.toNat * 86400000) (2 ^ 64 - 1)) := by
        rw [UInt64.toNat_ofNat']
        omega
      refine h nowMs (UInt64.le_iff_toNat_le.mpr ?_) ?_ ((hlocked nowMs).mpr ?_)
      · rw [hnow]
        omega
      · rw [hnow]
        omega
      · rw [hnow]
        omega
    · rintro ⟨hle, hlt⟩ nowMs - hnow hnot
      rw [hlocked] at hnot
      omega

/-- The contents that a server holds after updates of its connections. -/
def afterUpdates (c : KeystoreContents) (updates : List Update) : KeystoreContents :=
  updates.foldl (fun c u => u.apply c) c

/-- No update moves the time of the last credential prompt. -/
theorem afterUpdates_lastAuthenticated (c : KeystoreContents) (updates : List Update) :
    (afterUpdates c updates).lastAuthenticatedAtUnixMs = c.lastAuthenticatedAtUnixMs := by
  induction updates generalizing c with
  | nil => rfl
  | cons u updates ih =>
      refine (ih (u.apply c)).trans ?_
      cases u <;> rfl

/-! ## A phone that was just paired -/

namespace PairingFlow

section Paired

variable (extractSpkiHash : Bytes → Except Crypto.Error SpkiHash)

/-- The run pairs the phone of the key at a time, from the keystore `copy` and into the keystore
`contents`. -/
def PairsAt (events : List TaskEvent) (copy contents : KeystoreContents) (clientSpki : SpkiHash)
    (nowMs : UInt64) : Prop :=
  ∃ front back,
    events = front ++ ⟨.clock, nowMs⟩ :: ⟨.saveFile contents, Except.ok ()⟩ :: back ∧
    copyOf front = some copy ∧ peerOf extractSpkiHash (seen extractSpkiHash front).connection =
      some clientSpki

variable {extractSpkiHash}

/-- A pairing leaves the time of the last credential prompt and the interval. -/
theorem window_of_pairsAt {draws rounds reads : ℕ} {events : List TaskEvent}
    {copy contents : KeystoreContents} {clientSpki : SpkiHash} {nowMs : UInt64}
    (hrun : (run extractSpkiHash draws rounds reads).Performs events)
    (hpairs : PairsAt extractSpkiHash events copy contents clientSpki nowMs) :
    contents.lastAuthenticatedAtUnixMs = copy.lastAuthenticatedAtUnixMs ∧
      contents.reauthIntervalDays = copy.reauthIntervalDays := by
  obtain ⟨front, back, rfl, hcopy, -⟩ := hpairs
  have hop := fits_of_performs hrun (front ++ [⟨.clock, nowMs⟩]) ⟨.saveFile contents, Except.ok ()⟩
    back (by simp)
  obtain ⟨before, now, offer, copy', w, since, heq, -, -, -, -, -, -, hcopy', rfl⟩ := hop
  obtain ⟨rfl, -⟩ := List.append_inj' heq rfl
  obtain rfl := Option.some.inj (hcopy.symm.trans hcopy')
  exact ⟨rfl, rfl⟩

/-- A phone that was paired at some time can give commands throughout the interval that starts
then, on a server that was started on the keystore and whatever its connections have changed,
exactly when re-auth is off or the window since the last credential prompt, which a pairing is
not, ends no earlier. -/
theorem paired_phone_commands_iff {draws rounds reads : ℕ} {events : List TaskEvent}
    {copy contents : KeystoreContents} {clientSpki : SpkiHash} {start : UInt64}
    (hrun : (run extractSpkiHash draws rounds reads).Performs events)
    (hpairs : PairsAt extractSpkiHash events copy contents clientSpki start)
    (hdays : 0 < copy.reauthIntervalDays) (updates : List Update) :
    let server := afterUpdates contents.reloaded updates
    (∀ a : Arrival, a.peerSpki = clientSpki → isStateChange a.frame = true → start ≤ a.nowMs →
      a.nowMs.toNat < start.toNat + copy.reauthIntervalDays.toNat * 86400000 →
        (a.outcome server).value ≠ some (.error a.requestNonce .requiresReauth)) ↔
      server.reauthIntervalDays = 0 ∨
        (start.toNat + copy.reauthIntervalDays.toNat * 86400000 ≤
            copy.lastAuthenticatedAtUnixMs.toNat + server.reauthIntervalDays.toNat * 86400000 ∧
          start.toNat + copy.reauthIntervalDays.toNat * 86400000 < 2 ^ 64) := by
  intro server
  have hlast : server.lastAuthenticatedAtUnixMs = copy.lastAuthenticatedAtUnixMs := by
    rw [afterUpdates_lastAuthenticated]
    exact (window_of_pairsAt hrun hpairs).1
  rw [← hlast, ← unlocked_iff server start hdays]
  constructor
  · intro h nowMs hstart hend hlocked
    let a : Arrival := ⟨clientSpki, .lock, 0, nowMs, succeeding server⟩
    exact h a rfl rfl hstart hend ((a.refused_iff server rfl).mpr hlocked)
  · intro h a _ hframe hstart hend hrefused
    exact h a.nowMs hstart hend ((a.refused_iff server hframe).mp hrefused)

end Paired

/-- The keystore of a fresh identity, once the phone has been paired at a time. -/
def freshlyPaired (nowMs : UInt64) : KeystoreContents :=
  (Change.pair (.fromCore ⟨livePairing.phoneName, phoneKey, nowMs⟩)).apply
    (.fromIdentity pairedContents.deviceIdentityBytes)

/-- A phone that is paired when the window of the server is fresh can give commands. -/
theorem phone_pairs_and_locks :
    ∃ events, (run (fun _ => .ok phoneKey) 1 2 2).Trace events (.ok ()) ∧
      ∀ a : Arrival, a.peerSpki = phoneKey → isStateChange a.frame = true →
        a.nowMs.toNat < 7 * 86400000 →
          (a.outcome (freshlyPaired 0).reloaded).value ≠
            some (.error a.requestNonce .requiresReauth) := by
  let out := (run (fun _ => .ok phoneKey) 1 2 2).exec (answering (offering 0 (.ok ()) (.ok ()))) 1
  have hvalue : out.value = some (.ok ()) := by rfl
  have htrace := Prog.exec_trace _ _ hvalue
  have hpairs : PairsAt (fun _ => .ok phoneKey) out.events
      (.fromIdentity pairedContents.deviceIdentityBytes) (freshlyPaired 0) phoneKey 0 :=
    ⟨out.events.take 12, out.events.drop 14, by rfl, by rfl, by rfl⟩
  have hcommands := (paired_phone_commands_iff htrace.performs hpairs (by decide) []).mpr
    (.inr ⟨by decide, by decide⟩)
  refine ⟨out.events, htrace, fun a hpeer hframe hend => ?_⟩
  refine hcommands a hpeer hframe (UInt64.le_iff_toNat_le.mpr (Nat.zero_le _)) ?_
  change a.nowMs.toNat < 0 + 7 * 86400000
  omega

/-- A phone that is paired with a fresh daemon cannot lock the PC, not even at once. -/
theorem fresh_pairing_locked :
    ∃ events copy contents clientSpki start,
      (run (fun _ => .ok phoneKey) 1 2 2).Trace events (.ok ()) ∧
      PairsAt (fun _ => .ok phoneKey) events copy contents clientSpki start ∧
      0 < copy.reauthIntervalDays ∧
      ∃ a : Arrival, a.peerSpki = clientSpki ∧ isStateChange a.frame = true ∧
        start ≤ a.nowMs ∧
        a.nowMs.toNat < start.toNat + copy.reauthIntervalDays.toNat * 86400000 ∧
        (a.outcome contents.reloaded).value = some (.error a.requestNonce .requiresReauth) := by
  let out := (run (fun _ => .ok phoneKey) 1 2 2).exec
    (answering (offering 1700000000000 (.ok ()) (.ok ()))) 1
  have hvalue : out.value = some (.ok ()) := by rfl
  let contents := freshlyPaired 1700000000000
  refine ⟨out.events, .fromIdentity pairedContents.deviceIdentityBytes, contents, phoneKey,
    1700000000000, Prog.exec_trace _ _ hvalue,
    ⟨out.events.take 12, out.events.drop 14, by rfl, by rfl, by rfl⟩, by decide,
    ⟨phoneKey, .lock, 1, 1700000000000, succeeding contents⟩, rfl, rfl, by decide, by decide, ?_⟩
  exact (Arrival.refused_iff _ _ rfl).mpr (by decide)

end PairingFlow
end Daemon
end WakeMyPc
