import WakeMyPc.Daemon.PairingSoundness

/-!
# The reply to a rejected offer

Why an offer is rejected depends on the code of the window, its end, the wrong offers before
and whether there is a window at all.  The phone that made the offer is not told: its reply
is the same in all cases.

Main results:

- Theorem `PairingFlow.replies_of_rejected`: what a rejected offer is answered.
- Theorem `PairingFlow.rejected_replies_agree`: two rejected offers of one message have the
  same reply.
-/

namespace WakeMyPc
namespace Daemon
namespace PairingFlow

open Foundations
open Foundations.Prog (trace_bind)
open Protocol
open Crypto (NonceCounter PairingRejection)

/-! ## What an attempt shows -/

/-- The bytes that an operation writes to the peer. -/
def sentBytes : TaskEvent → Option Bytes
  | ⟨.send bytes, _⟩ => some bytes
  | _ => none

/-- The bytes that a history has written to the peer, write by write. -/
def replies (h : List TaskEvent) : List Bytes :=
  h.filterMap sentBytes

/-- The time that an operation reads. -/
def clockReading : TaskEvent → Option UInt64
  | ⟨.clock, now⟩ => some now
  | _ => none

/-- The first time that a history has read. -/
def clockOf (h : List TaskEvent) : Option UInt64 :=
  h.findSome? clockReading

/-- A connection to a pairing window, from its start to its end. -/
structure Attempt where
  extractSpkiHash : Bytes → Except Crypto.Error SpkiHash
  reads : ℕ
  window : WindowState
  events : List TaskEvent
  result : Except AttemptError Bool × WindowState
  complete : (handlePairAttempt extractSpkiHash reads window).Trace events result

namespace Attempt

/-- The first message of the connection is in an envelope. -/
def Receives (a : Attempt) (envelope : Envelope) : Prop :=
  ∃ rest, parseBuffer (received a.events) = .ok (some (envelope, rest))

/-- The peer of the connection offered a code, and the handshake rejected it. -/
def Rejected (a : Attempt) (reason : PairingRejection) : Prop :=
  ∃ now clientSpki phoneName pairingCode, clockOf a.events = some now ∧
    peerOf a.extractSpkiHash a.events = some clientSpki ∧
    messageOf a.events = some (.pair phoneName pairingCode) ∧
    (a.window.handshake.acceptPair now pairingCode phoneName clientSpki).1 = .rejected reason

end Attempt

/-! ## Reading -/

theorem clockOf_onlyReads {events : List TaskEvent} (h : OnlyReads events) :
    clockOf events = none := by
  refine List.findSome?_eq_none_iff.mpr fun e he => ?_
  have hrecv := h e he
  obtain ⟨o, r⟩ := e
  cases o <;> first | rfl | simp [Op.isRecv] at hrecv

theorem replies_onlyReads {events : List TaskEvent} (h : OnlyReads events) :
    replies events = [] := by
  refine List.filterMap_eq_nil_iff.mpr fun e he => ?_
  have hrecv := h e he
  obtain ⟨o, r⟩ := e
  cases o <;> first | rfl | simp [Op.isRecv] at hrecv

/-- The reader of a connection only reads, and returns the envelope of what it has read. -/
theorem readOneEnvelope_trace {reads : ℕ} {events : List TaskEvent}
    {result : Except RunError (Envelope × Bytes)}
    (h : (readOneEnvelope reads []).Trace events result) :
    OnlyReads events ∧ ∀ envelope rest, result = .ok (envelope, rest) →
      parseBuffer (received events) = .ok (some (envelope, rest)) := by
  have hsafe : (readOneEnvelope reads []).Safe (fun _ _ => True) [] fun events result =>
      OnlyReads events ∧ ∀ envelope rest, result = .ok (envelope, rest) →
        parseBuffer (received events) = .ok (some (envelope, rest)) := by
    refine Prog.safe_loop (fun events buf => OnlyReads events ∧ received events = buf) ?_ reads
      ⟨onlyReads_nil, rfl⟩
    rintro events buf ⟨honly, rfl⟩
    unfold readOneEnvelopeRound
    split
    · exact ⟨honly, by simp⟩
    · next envelope rest hparse =>
        refine ⟨honly, fun envelope' rest' heq => ?_⟩
        obtain ⟨rfl, rfl⟩ := Prod.mk.inj (Except.ok.inj heq)
        exact hparse
    · refine ⟨trivial, fun (result : Except IoError Bytes) => ?_⟩
      have honly' : OnlyReads (events ++ [⟨.recv, result⟩]) :=
        List.forall_mem_append.mpr ⟨honly, onlyReads_cons onlyReads_nil⟩
      cases result with
      | error e => exact ⟨honly', by simp⟩
      | ok chunk =>
          change (if _ then _ else _ : Task _).Safe _ _ _
          split
          · exact ⟨honly', by simp⟩
          · exact ⟨honly', by simp [received, receivedBytes]⟩
  exact hsafe.trace h

/-! ## Answering -/

/-- A message that is refused is answered before any clock is read. -/
theorem refuse_trace {s : WindowState} {requestNonce : UInt64} {code : ProtocolError}
    {events : List TaskEvent} {result : Except AttemptError Bool × WindowState}
    (h : (refuse s requestNonce code).Trace events result) : clockOf events = none := by
  unfold refuse sendError at h
  rw [sendFrame_new] at h
  obtain ⟨sent, rest, rfl, hrest⟩ := h
  rcases sent with e | _
  · obtain ⟨rfl, -⟩ := hrest
    rfl
  · obtain ⟨rfl, -⟩ := hrest
    rfl

/-- A code that is rejected is answered with one message, whatever the reason. -/
theorem takeCode_rejected {s : WindowState} {clientSpki : SpkiHash} {requestNonce now : UInt64}
    {phoneName : RustString} {pairingCode : UInt32} {events : List TaskEvent}
    {result : Except AttemptError Bool × WindowState} {reason : PairingRejection}
    (h : (takeCode s clientSpki requestNonce phoneName pairingCode).Trace events result)
    (hclock : clockOf events = some now)
    (hrejected : (s.handshake.acceptPair now pairingCode phoneName clientSpki).1 =
      .rejected reason) :
    replies events = [responseBytes 1 (.error requestNonce .notPaired)] := by
  unfold takeCode at h
  rw [perform_bind] at h
  obtain ⟨t, rest, rfl, hrest⟩ := h
  obtain rfl : t = now := Option.some.inj hclock
  cases hpair : s.handshake.acceptPair t pairingCode phoneName clientSpki with
  | mk transition handshake =>
      rw [hpair] at hrejected
      obtain rfl : transition = .rejected reason := hrejected
      simp only [hpair, sendError] at hrest
      rw [sendFrame_new] at hrest
      obtain ⟨sent, rest, rfl, hrest⟩ := hrest
      rcases sent with e | _
      · obtain ⟨rfl, -⟩ := hrest
        rfl
      · obtain ⟨closed, rest, rfl, rfl, -⟩ := hrest
        rfl

/-- A connection that reads the clock has shown a key and a `Pair` message, and takes its
code. -/
theorem attempt_of_clock {extractSpkiHash : Bytes → Except Crypto.Error SpkiHash} {reads : ℕ}
    {s : WindowState} {events : List TaskEvent} {result : Except AttemptError Bool × WindowState}
    {now : UInt64} (h : (handlePairAttempt extractSpkiHash reads s).Trace events result)
    (hclock : clockOf events = some now) :
    ∃ certs clientSpki reading envelope rest phoneName pairingCode answering,
      events = ⟨.peerCertificates, certs⟩ :: (reading ++ answering) ∧
      leafSpki extractSpkiHash certs = .ok clientSpki ∧ OnlyReads reading ∧
      parseBuffer (received reading) = .ok (some (envelope, rest)) ∧
      decodeClientFrame envelope.payload = .ok (.pair phoneName pairingCode) ∧
      (takeCode s clientSpki envelope.nonce phoneName pairingCode).Trace answering result ∧
      clockOf answering = some now := by
  obtain ⟨front, back, peer, rfl, hfront, hback⟩ := (trace_bind _ _ _ _).mp h
  obtain ⟨certs, _, rfl, rfl, rfl⟩ := hfront
  have hafter : clockOf back = some now := hclock
  cases hleaf : leafSpki extractSpkiHash certs with
  | error e =>
      rw [hleaf] at hback
      obtain ⟨rfl, -⟩ := hback
      cases hafter
  | ok clientSpki =>
      rw [hleaf] at hback
      obtain ⟨reading, answering, found, rfl, hreading, hanswering⟩ :=
        (trace_bind _ _ _ _).mp hback
      obtain ⟨honly, hfound⟩ := readOneEnvelope_trace hreading
      have hanswer : clockOf answering = some now := by
        rwa [clockOf, List.findSome?_append, ← clockOf, clockOf_onlyReads honly,
          Option.none_or] at hafter
      rcases found with e | ⟨envelope, rest⟩
      · obtain ⟨rfl, -⟩ := hanswering
        cases hanswer
      · dsimp only at hanswering
        split at hanswering
        · rw [refuse_trace hanswering] at hanswer
          cases hanswer
        · next phoneName pairingCode hdecode =>
            exact ⟨certs, clientSpki, reading, envelope, rest, phoneName, pairingCode, answering,
              rfl, hleaf, honly, hfound envelope rest rfl, hdecode, hanswering, hanswer⟩
        · rw [refuse_trace hanswering] at hanswer
          cases hanswer

/-- A parse of a whole frame stays when bytes arrive. -/
theorem parseBuffer_append {buf rest : Bytes} {envelope : Envelope}
    (h : parseBuffer buf = .ok (some (envelope, rest))) (s : Bytes) :
    parseBuffer (buf ++ s) = .ok (some (envelope, rest ++ s)) := by
  have hnext : envelopeFramer.next buf = .frame envelope rest := by
    rw [parseBuffer_eq] at h
    split at h <;> simp_all
  rw [parseBuffer_eq, envelopeFramer.frame_append s hnext]

/-- A rejected offer is answered with one error, under the nonce of its envelope. -/
theorem replies_of_rejected (a : Attempt) {envelope : Envelope} {reason : PairingRejection}
    (hreceives : a.Receives envelope) (hrejected : a.Rejected reason) :
    replies a.events = [responseBytes 1 (.error envelope.nonce .notPaired)] := by
  obtain ⟨remaining, hparse⟩ := hreceives
  obtain ⟨now, clientSpki, phoneName, pairingCode, hclock, hpeer, hmessage, hreason⟩ := hrejected
  obtain ⟨certs, leaf, reading, found, rest, name, code, answering, hevents, hleaf, honly, hfound,
    hdecode, htake, hanswer⟩ := attempt_of_clock a.complete hclock
  rw [hevents] at hparse hpeer hmessage ⊢
  -- the peer and the message of the connection are those that were used
  have hshown : presentedKey a.extractSpkiHash ⟨.peerCertificates, certs⟩ = some leaf := by
    rw [presentedKey, hleaf]
    rfl
  rw [peerOf, List.findSome?_cons, hshown] at hpeer
  obtain rfl : leaf = clientSpki := Option.some.inj hpeer
  have hreceived : received (⟨.peerCertificates, certs⟩ :: (reading ++ answering)) =
      received reading ++ received answering := by
    simp [received, receivedBytes]
  have hwhole := parseBuffer_append hfound (received answering)
  rw [hreceived, hwhole] at hparse
  obtain ⟨rfl, -⟩ := Prod.mk.inj (Option.some.inj (Except.ok.inj hparse))
  rw [messageOf, hreceived, hwhole] at hmessage
  simp only [hdecode, Except.toOption, Option.some.injEq, ClientFrame.pair.injEq] at hmessage
  obtain ⟨rfl, rfl⟩ := hmessage
  have hreplies := takeCode_rejected htake hanswer hreason
  rw [replies, List.filterMap_cons, List.filterMap_append, ← replies, ← replies,
    replies_onlyReads honly, hreplies]
  rfl

/-! ## Two attempts -/

/-- Two connections that receive one envelope and whose offers are rejected, in any states of
their windows, at any times and for any reasons, are answered with the same bytes: one error,
under the nonce of the envelope. -/
theorem rejected_replies_agree (a b : Attempt) (envelope : Envelope)
    (reasonA reasonB : PairingRejection) (ha : a.Receives envelope) (hb : b.Receives envelope)
    (hrejectedA : a.Rejected reasonA) (hrejectedB : b.Rejected reasonB) :
    replies a.events = replies b.events ∧
      replies a.events = [responseBytes 1 (.error envelope.nonce .notPaired)] := by
  have hreplies := replies_of_rejected a ha hrejectedA
  exact ⟨hreplies.trans (replies_of_rejected b hb hrejectedB).symm, hreplies⟩

/-- What a phone that offers the code zero meets in some state of the handshake. -/
def offerTo (handshake : Crypto.PairingHandshake) :
    Outcome Op Ans ℕ (Except AttemptError Bool × WindowState) :=
  (handlePairAttempt (fun _ => .ok phoneKey) 2 ⟨handshake, pairedContents⟩).exec
    (answering (offering 50 (.ok ()) (.ok ()))) 0

/-- Without a window, and with the last wrong code of a window, the reply is the same. -/
theorem closed_and_wrong_agree :
    replies (offerTo ⟨.idle⟩).events = replies (offerTo ⟨.awaiting 5 100 4⟩).events ∧
      replies (offerTo ⟨.idle⟩).events = [responseBytes 1 (.error 1 .notPaired)] := by
  have hidle : (offerTo ⟨.idle⟩).value = some (.ok false, ⟨⟨.idle⟩, pairedContents⟩) := by rfl
  have hwrong : (offerTo ⟨.awaiting 5 100 4⟩).value =
      some (.ok false, ⟨⟨.idle⟩, pairedContents⟩) := by rfl
  let a : Attempt := ⟨_, _, _, _, _, Prog.exec_trace _ _ hidle⟩
  let b : Attempt := ⟨_, _, _, _, _, Prog.exec_trace _ _ hwrong⟩
  let envelope : Envelope :=
    ⟨protocolVersion, 1, ClientFrame.format.encode (.pair livePairing.phoneName 0)⟩
  have hreceives : ∀ c : Attempt, received c.events = offerBytes → c.Receives envelope := by
    intro c hbytes
    refine ⟨[], ?_⟩
    rw [hbytes]
    rfl
  exact rejected_replies_agree a b envelope .notInWindow .tooManyAttempts (hreceives a (by rfl))
    (hreceives b (by rfl))
    ⟨50, phoneKey, livePairing.phoneName, 0, by rfl, by rfl, by rfl, by rfl⟩
    ⟨50, phoneKey, livePairing.phoneName, 0, by rfl, by rfl, by rfl, by rfl⟩

end PairingFlow
end Daemon
end WakeMyPc
