import WakeMyPc.Machine

/-!
# Nonce counters and crypto errors

Each direction of a session has a sender that counts up from one and a receiver
that accepts only nonces above the last one it accepted.

Main results:

- Theorem `NonceReceiver.accept_ok_iff`: the receiver accepts exactly the larger
  nonces.
- Theorem `NonceSender.issue_of_lt`: the sender counts up by one.
-/

namespace WakeMyPc
namespace Crypto

/-- Outbound nonce counter; `next` is the last nonce issued. -/
structure NonceSender where
  next : UInt64
deriving DecidableEq

/-- Inbound nonce checker. -/
structure NonceReceiver where
  lastSeen : UInt64
deriving DecidableEq

/-- A sender and a receiver of one session. -/
structure NonceCounter where
  send : NonceSender
  recv : NonceReceiver
deriving DecidableEq

/-- A nonce that is not above the last one accepted. -/
inductive NonceError where
  | replay (incoming lastSeen : UInt64)
deriving DecidableEq

/-- Errors of the crypto layer that the modelled functions return. -/
inductive Error where
  | x509Parse (detail : RustString)
  | osRng (detail : RustString)
deriving DecidableEq

/-- A sender that has issued nothing. -/
def NonceSender.new : NonceSender := ⟨0⟩

/-- Count up and return the new value; on overflow there is none and the
counter stays. -/
def NonceSender.issue (s : NonceSender) : Option UInt64 × NonceSender :=
  match u64CheckedAdd s.next 1 with
  | none => (none, s)
  | some v => (some v, ⟨v⟩)

/-- A receiver that has accepted nothing. -/
def NonceReceiver.new : NonceReceiver := ⟨0⟩

/-- Accept a nonce above the last one accepted, and remember it. -/
def NonceReceiver.accept (r : NonceReceiver) (incoming : UInt64) :
    Except NonceError Unit × NonceReceiver :=
  if incoming ≤ r.lastSeen then (.error (.replay incoming r.lastSeen), r)
  else (.ok (), ⟨incoming⟩)

/-- The counters of a fresh session. -/
def NonceCounter.new : NonceCounter := ⟨NonceSender.new, NonceReceiver.new⟩

/-! ## What one step does -/

theorem NonceReceiver.accept_of_lt {r : NonceReceiver} {incoming : UInt64}
    (h : r.lastSeen < incoming) : r.accept incoming = (.ok (), ⟨incoming⟩) := by
  rw [accept, if_neg (UInt64.not_le.mpr h)]

theorem NonceReceiver.accept_of_le {r : NonceReceiver} {incoming : UInt64}
    (h : incoming ≤ r.lastSeen) :
    r.accept incoming = (.error (.replay incoming r.lastSeen), r) := by
  rw [accept, if_pos h]

/-- The receiver accepts exactly the larger nonces. -/
theorem NonceReceiver.accept_ok_iff (r : NonceReceiver) (incoming : UInt64) :
    (r.accept incoming).1 = .ok () ↔ r.lastSeen < incoming := by
  rcases UInt64.lt_or_le r.lastSeen incoming with h | h
  · simp [accept_of_lt h, h]
  · simp [accept_of_le h, UInt64.not_lt.mpr h]

/-- The sender counts up by one. -/
theorem NonceSender.issue_of_lt {s : NonceSender} (h : s.next.toNat + 1 < 2 ^ 64) :
    s.issue = (some (s.next + 1), ⟨s.next + 1⟩) := by
  have hadd : u64CheckedAdd s.next 1 = some (s.next + 1) := if_pos h
  simp only [issue, hadd]

end Crypto
end WakeMyPc
