import WakeMyPc.Crypto.Nonce
import WakeMyPc.Foundations.Records

/-!
# Runs of the nonce counters

A receiver that is fed a sequence of nonces accepts the records of the sequence, and a
sender issues the numbers from one on.  So what a sender issues is accepted once, whatever
is lost on the way or delivered again.

Main results:

- Theorem `NonceReceiver.accepted_eq`: the accepted nonces are the records.
- Theorem `NonceSender.issue_afterCalls`: what the next call of a sender returns.
- Theorem `nonce_counters`: the law of the two counters.
-/

namespace WakeMyPc
namespace Crypto

open Foundations

/-- Nonces are in the order of their numbers. -/
local instance linearOrderNonces : LinearOrder UInt64 where
  le_refl := UInt64.le_refl
  le_trans _ _ _ := UInt64.le_trans
  lt_iff_le_not_ge a b := by
    rw [UInt64.lt_iff_toNat_lt, UInt64.le_iff_toNat_le, UInt64.le_iff_toNat_le]
    omega
  le_antisymm _ _ := UInt64.le_antisymm
  le_total := UInt64.le_total
  toDecidableLE := inferInstance
  toDecidableEq := inferInstance
  toDecidableLT := inferInstance

/-! ## The receiver -/

namespace NonceReceiver

/-- The receiver after a sequence of nonces. -/
def after (r : NonceReceiver) (incoming : List UInt64) : NonceReceiver :=
  incoming.foldl (fun r nonce => (r.accept nonce).2) r

/-- The nonces of a sequence that the receiver accepts. -/
def accepted (r : NonceReceiver) : List UInt64 → List UInt64
  | [] => []
  | nonce :: incoming =>
      match r.accept nonce with
      | (.ok (), r') => nonce :: r'.accepted incoming
      | (.error _, r') => r'.accepted incoming

/-- A rejection leaves the receiver unchanged. -/
theorem accept_unchanged {r : NonceReceiver} {nonce : UInt64} (h : (r.accept nonce).1 ≠ .ok ()) :
    (r.accept nonce).2 = r := by
  have hle : nonce ≤ r.lastSeen := UInt64.not_lt.mp (mt (r.accept_ok_iff nonce).mpr h)
  rw [accept_of_le hle]

/-- The receiver remembers the largest nonce. -/
theorem after_eq (r : NonceReceiver) (incoming : List UInt64) :
    r.after incoming = ⟨highest r.lastSeen incoming⟩ := by
  induction incoming generalizing r with
  | nil => rfl
  | cons nonce incoming ih =>
      have hstep : (r.accept nonce).2 = ⟨max r.lastSeen nonce⟩ := by
        rcases lt_or_ge r.lastSeen nonce with h | h
        · rw [accept_of_lt h, max_eq_right h.le]
        · rw [accept_of_le h, max_eq_left h]
      rw [after, List.foldl_cons, hstep]
      exact ih ⟨max r.lastSeen nonce⟩

/-- The accepted nonces are the records of the sequence. -/
theorem accepted_eq (r : NonceReceiver) (incoming : List UInt64) :
    r.accepted incoming = records r.lastSeen incoming := by
  induction incoming generalizing r with
  | nil => rfl
  | cons nonce incoming ih =>
      rcases lt_or_ge r.lastSeen nonce with h | h
      · rw [accepted, accept_of_lt h, records_of_lt _ h]
        exact congrArg _ (ih ⟨nonce⟩)
      · rw [accepted, accept_of_le h, records_of_le _ h]
        exact ih r

/-- The next nonce is accepted exactly when it is above all before it. -/
theorem accept_after_ok_iff (r : NonceReceiver) (front : List UInt64) (nonce : UInt64) :
    ((r.after front).accept nonce).1 = .ok () ↔
      r.lastSeen < nonce ∧ ∀ earlier ∈ front, earlier < nonce := by
  rw [accept_ok_iff, after_eq]
  exact highest_lt_iff

end NonceReceiver

/-! ## The sender -/

namespace NonceSender

/-- The sender after some calls. -/
def afterCalls (s : NonceSender) : ℕ → NonceSender
  | 0 => s
  | k + 1 => (s.afterCalls k).issue.2

/-- The nonces that the first calls of a sender return. -/
def issued (s : NonceSender) (calls : ℕ) : List UInt64 :=
  (List.range calls).filterMap fun k => (s.afterCalls k).issue.1

/-- A sender that has issued the largest nonce issues none and stays. -/
theorem issue_of_last {s : NonceSender} (h : ¬ s.next.toNat + 1 < 2 ^ 64) :
    s.issue = (none, s) := by
  have hadd : u64CheckedAdd s.next 1 = none := if_neg h
  simp only [issue, hadd]

/-- The number of a fresh sender after some calls. -/
theorem toNat_next_afterCalls (k : ℕ) :
    (NonceSender.new.afterCalls k).next.toNat = min k (2 ^ 64 - 1) := by
  induction k with
  | zero => rfl
  | succ k ih =>
      rw [afterCalls]
      by_cases h : (NonceSender.new.afterCalls k).next.toNat + 1 < 2 ^ 64
      · have hone : (1 : UInt64).toNat = 1 := rfl
        rw [issue_of_lt h, UInt64.toNat_add, hone, Nat.mod_eq_of_lt h]
        omega
      · rw [issue_of_last h]
        show (NonceSender.new.afterCalls k).next.toNat = min (k + 1) (2 ^ 64 - 1)
        omega

/-- Each call of a fresh sender returns the next number, until there is none left. -/
theorem issue_afterCalls (k : ℕ) :
    (NonceSender.new.afterCalls k).issue =
      if k + 1 < 2 ^ 64 then (some (UInt64.ofNat (k + 1)), ⟨UInt64.ofNat (k + 1)⟩)
      else (none, NonceSender.new.afterCalls k) := by
  have hnext := toNat_next_afterCalls k
  split_ifs with hk
  · have hstep : (NonceSender.new.afterCalls k).next + 1 = UInt64.ofNat (k + 1) := by
      apply UInt64.toNat_inj.mp
      have hone : (1 : UInt64).toNat = 1 := rfl
      rw [UInt64.toNat_add, UInt64.toNat_ofNat_of_lt' hk, hone, hnext]
      omega
    rw [issue_of_lt (by omega), hstep]
  · exact issue_of_last (by omega)

/-- A number that a fresh sender issues is that of its call. -/
theorem toNat_of_issue {k : ℕ} {nonce : UInt64}
    (h : (NonceSender.new.afterCalls k).issue.1 = some nonce) : nonce.toNat = k + 1 := by
  rw [issue_afterCalls] at h
  split_ifs at h with hk
  · rw [← Option.some.inj h, UInt64.toNat_ofNat_of_lt' hk]

/-- A fresh sender issues ascending numbers from one on. -/
theorem pairwise_issued (calls : ℕ) :
    ((0 : UInt64) :: NonceSender.new.issued calls).Pairwise (· < ·) := by
  rw [List.pairwise_cons]
  constructor
  · intro nonce hnonce
    obtain ⟨k, -, hk⟩ := List.mem_filterMap.mp hnonce
    rw [UInt64.lt_iff_toNat_lt, toNat_of_issue hk]
    exact Nat.succ_pos k
  · refine List.pairwise_filterMap.mpr (List.pairwise_lt_range.imp ?_)
    intro i j hij first hfirst second hsecond
    rw [UInt64.lt_iff_toNat_lt, toNat_of_issue hfirst, toNat_of_issue hsecond]
    omega

end NonceSender

/-! ## Both counters -/

/-- What a receiver accepts is above zero and all before it, a rejection changes nothing and
nothing is accepted twice; a sender issues one number after the other until none is left; and
of what a sender issues, whatever part arrives and is repeated, a delivery is accepted exactly
when it is the first one of its value. -/
theorem nonce_counters :
    (∀ front incoming,
      ((NonceReceiver.new.after front).accept incoming).1 = .ok () ↔
        0 < incoming ∧ ∀ earlier ∈ front, earlier < incoming) ∧
    (∀ (r : NonceReceiver) (incoming : UInt64),
      (r.accept incoming).1 ≠ .ok () → (r.accept incoming).2 = r) ∧
    (∀ incoming, (NonceReceiver.new.accepted incoming).Nodup) ∧
    (∀ k, (NonceSender.new.afterCalls k).issue =
      if k + 1 < 2 ^ 64 then (some (UInt64.ofNat (k + 1)), ⟨UInt64.ofNat (k + 1)⟩)
      else (none, NonceSender.new.afterCalls k)) ∧
    ∀ calls values given, values.Sublist (NonceSender.new.issued calls) →
      WithReplays [] values given →
        NonceReceiver.new.accepted given = values ∧
        ∀ front nonce back, given = front ++ nonce :: back →
          (((NonceReceiver.new.after front).accept nonce).1 = .ok () ↔ nonce ∉ front) := by
  refine ⟨NonceReceiver.new.accept_after_ok_iff, fun r incoming => r.accept_unchanged,
    fun incoming => ?_, NonceSender.issue_afterCalls, ?_⟩
  · rw [NonceReceiver.accepted_eq]
    exact (pairwise_records _ incoming).imp ne_of_lt
  · intro calls values given hvalues hgiven
    have hseen : ∀ nonce ∈ ([] : List UInt64), nonce ≤ NonceReceiver.new.lastSeen := by simp
    have hascend : (NonceReceiver.new.lastSeen :: values).Pairwise (· < ·) :=
      (NonceSender.pairwise_issued calls).sublist (hvalues.cons_cons _)
    constructor
    · rw [NonceReceiver.accepted_eq, hgiven.records_eq hseen hascend]
    · intro front nonce back hsplit
      rw [NonceReceiver.accept_after_ok_iff, hgiven.isRecord_iff hseen hascend hsplit]
      simp

/-- Of five calls, the first, third and fourth number arrive, two of them repeatedly. -/
theorem three_of_five_accepted : NonceReceiver.new.accepted [1, 1, 3, 1, 4, 3] = [1, 3, 4] := by
  have hpart : [1, 3, 4].Sublist (NonceSender.new.issued 5) := by decide
  have hgiven : WithReplays [] [(1 : UInt64), 3, 4] [1, 1, 3, 1, 4, 3] :=
    .first 1 (.replay (by simp) (.first 3 (.replay (by simp) (.first 4
      (.replay (by simp) (.done _))))))
  exact (nonce_counters.2.2.2.2 5 _ _ hpart hgiven).1

end Crypto
end WakeMyPc
