import WakeMyPc.Daemon.Reader

/-!
# Cuttings of one stream

Calls of the reader that share one buffer return what the bytes of the stream
determine, for every cutting of the stream into reads.

Main results:

- Theorem `exec_readEnvelopes`: repeated calls return what `fromBytes` says of the
  remaining bytes.
- Theorem `readEnvelopes_any_cutting`: every cutting of encoded envelopes and
  further bytes is read as these envelopes and then as the further bytes alone.
-/

namespace WakeMyPc
namespace Daemon

open Foundations
open Foundations.Prog (exec loop)
open Protocol

/-! ## Envelopes and cuttings -/

/-- An envelope that the encoder writes and the parser accepts. -/
structure LegalEnvelope where
  envelope : Envelope
  version_eq : envelope.version = protocolVersion
  payload_pos : 1 ≤ envelope.payload.length
  payload_le : envelope.payload.length ≤ 65527

namespace LegalEnvelope

/-- The wire bytes of a legal envelope. -/
def wire (e : LegalEnvelope) : Bytes :=
  wireBytes e.envelope

theorem length_le (e : LegalEnvelope) :
    envelopeHeaderLen + e.envelope.payload.length ≤ maxFrameLen := by
  have hle := e.payload_le
  simp only [envelopeHeaderLen, maxFrameLen]
  omega

theorem encodeEnvelope_eq (e : LegalEnvelope) : encodeEnvelope e.envelope = .ok e.wire :=
  encodeEnvelope_ok e.length_le

theorem next_wire_append (e : LegalEnvelope) (rest : Bytes) :
    envelopeFramer.next (e.wire ++ rest) = .frame e.envelope rest := by
  rw [envelopeFramer_next, wire,
    decodeEnvelope_wireBytes rest e.version_eq e.payload_pos e.length_le]
  rfl

end LegalEnvelope

/-- A cutting of some bytes into reads. -/
structure Cutting (input : Bytes) where
  pieces : List Bytes
  nonempty : ∀ piece ∈ pieces, piece ≠ []
  small : ∀ piece ∈ pieces, piece.length ≤ readChunk
  join : pieces.flatten = input

/-! ## Repeated calls -/

/-- How repeated calls end: with a buffer for the next call, or for good. -/
inductive CallsEnd where
  | waiting (buf : Bytes)
  | finished (result : Except RunError Unit)

/-- The envelopes that repeated calls returned, and how the calls ended. -/
structure Received where
  envelopes : List Envelope
  ending : CallsEnd

/-- The same calls after others that returned `envelopes`. -/
def Received.after (r : Received) (envelopes : List Envelope) : Received :=
  { r with envelopes := envelopes ++ r.envelopes }

/-- Call the reader on one buffer until it returns no envelope. -/
def readEnvelopes (rounds : ℕ) : ℕ → Bytes → Task Received
  | 0, buf => return ⟨[], .waiting buf⟩
  | calls + 1, buf => do
      match ← readEnvelope rounds buf with
      | .error e => return ⟨[], .finished (.error e)⟩
      | .ok (none, _) => return ⟨[], .finished (.ok ())⟩
      | .ok (some envelope, buf) =>
          let later ← readEnvelopes rounds calls buf
          return later.after [envelope]

/-- What the bytes of a stream that ends determine: the envelopes that the calls
return, and how they end, with the bytes left when there could be more calls. -/
def fromBytes : ℕ → Bytes → Received
  | 0, input => ⟨[], .waiting input⟩
  | calls + 1, input =>
      match decodeEnvelope input with
      | .ok (.frame envelope rest) => (fromBytes calls rest).after [envelope]
      | .error e => ⟨[], .finished (.error (.malformedFraming e))⟩
      | .ok .incomplete =>
          if input.isEmpty then ⟨[], .finished (.ok ())⟩
          else ⟨[], .finished (.error .peerClosedMidFrame)⟩

/-- The calls returned what the bytes determine, and no byte is lost: the buffer
and the reads still to come are the bytes left. -/
def Received.Agrees (r : Received) (inb : Inbound) (expected : Received) : Prop :=
  r.envelopes = expected.envelopes ∧
    match r.ending, expected.ending with
    | .waiting buf, .waiting rest => buf ++ inb.reads.flatten = rest
    | .finished result, .finished result' => result = result'
    | _, _ => False

theorem Received.Agrees.after {r expected : Received} {inb : Inbound} (h : r.Agrees inb expected)
    (envelopes : List Envelope) : (r.after envelopes).Agrees inb (expected.after envelopes) :=
  ⟨congrArg (envelopes ++ ·) h.1, h.2⟩

/-- Repeated calls return what `fromBytes` says of the remaining bytes. -/
theorem exec_readEnvelopes {W : Type} (env : Env Op Ans W) (w : W) (calls : ℕ) (buf : Bytes)
    {reads : List Bytes} {n : ℕ} (hne : ∀ r ∈ reads, r ≠ [])
    (hn : reads.length < n) :
    ∃ events r inb,
      exec (withInbound env) (readEnvelopes n calls buf) (⟨reads, .eof⟩, w) =
        ⟨events, some r, (inb, w)⟩ ∧
      r.Agrees inb (fromBytes calls (buf ++ reads.flatten)) := by
  induction calls generalizing reads buf with
  | zero => exact ⟨[], ⟨[], .waiting buf⟩, ⟨reads, .eof⟩, rfl, rfl, rfl⟩
  | succ calls ih =>
      cases hdecode : decodeEnvelope (buf ++ reads.flatten) with
      | error e =>
          have hnext : envelopeFramer.next (buf ++ reads.flatten) = .bad e := by
            rw [envelopeFramer_next, hdecode, verdict]
          obtain ⟨events, inb, -, hexec⟩ :=
            exec_reader_bad readEnvelopeRound_reads env w .eof hne hn hnext
          refine ⟨events, ⟨[], .finished (.error (.malformedFraming e))⟩, inb, ?_, ?_⟩
          · rw [readEnvelopes, readEnvelope, Prog.exec_bind, hexec]
            simp [Prog.andThen]
          · rw [fromBytes, hdecode]
            exact ⟨rfl, rfl⟩
      | ok outcome =>
          cases outcome with
          | incomplete =>
              have hnext : envelopeFramer.next (buf ++ reads.flatten) = .more := by
                rw [envelopeFramer_next, hdecode, verdict]
              obtain ⟨events, inb, -, hexec⟩ :=
                exec_reader_more readEnvelopeRound_reads env w .eof hne hn hnext
              rw [fromBytes, hdecode]
              by_cases hempty : (buf ++ reads.flatten).isEmpty = true
              · refine ⟨events, ⟨[], .finished (.ok ())⟩, inb, ?_, ?_⟩
                · rw [readEnvelopes, readEnvelope, Prog.exec_bind, hexec, endOfStream,
                    if_pos hempty]
                  simp [Prog.andThen]
                · rw [if_pos hempty]
                  exact ⟨rfl, rfl⟩
              · refine ⟨events, ⟨[], .finished (.error .peerClosedMidFrame)⟩, inb, ?_, ?_⟩
                · rw [readEnvelopes, readEnvelope, Prog.exec_bind, hexec, endOfStream,
                    if_neg hempty]
                  simp [Prog.andThen]
                · rw [if_neg hempty]
                  exact ⟨rfl, rfl⟩
          | frame envelope rest =>
              have hnext : envelopeFramer.next (buf ++ reads.flatten) = .frame envelope rest := by
                rw [envelopeFramer_next, hdecode, verdict]
              obtain ⟨events, buf', reads', -, hexec, hrest, hsuffix⟩ :=
                exec_reader_frame readEnvelopeRound_reads env w .eof hne hn hnext
              obtain ⟨later, r, inb, hlater, hagrees⟩ :=
                ih buf' (fun r hr => hne r (hsuffix.subset hr))
                  (lt_of_le_of_lt hsuffix.length_le hn)
              refine ⟨events ++ later, r.after [envelope], inb, ?_, ?_⟩
              · rw [readEnvelopes, readEnvelope, Prog.exec_bind, hexec]
                simp only [Prog.andThen]
                rw [Prog.exec_bind, hlater]
                simp [Prog.andThen]
              · rw [fromBytes, hdecode, ← hrest]
                exact hagrees.after [envelope]

/-! ## What the bytes determine -/

/-- Encoded envelopes are returned in order, and then what follows them alone
determines. -/
theorem fromBytes_wire_append (envs : List LegalEnvelope) (calls : ℕ) (t : Bytes) :
    fromBytes (envs.length + calls) (envs.flatMap LegalEnvelope.wire ++ t) =
      (fromBytes calls t).after (envs.map (·.envelope)) := by
  induction envs with
  | nil => simp [Received.after]
  | cons e envs ih =>
      have hdecode : decodeEnvelope (e.wire ++ (envs.flatMap LegalEnvelope.wire ++ t)) =
          .ok (.frame e.envelope (envs.flatMap LegalEnvelope.wire ++ t)) :=
        decodeEnvelope_wireBytes _ e.version_eq e.payload_pos e.length_le
      rw [List.length_cons, Nat.add_right_comm, List.flatMap_cons, List.append_assoc, fromBytes,
        hdecode]
      simp only [ih, Received.after, List.map_cons, List.cons_append, List.nil_append]

/-- A stream that ends inside a frame needs more. -/
theorem decodeEnvelope_strict_prefix {e : LegalEnvelope} {t : Bytes} (hfront : t <+: e.wire)
    (hne : t ≠ e.wire) : decodeEnvelope t = .ok .incomplete := by
  obtain ⟨s, hs⟩ := hfront
  have hwhole : envelopeFramer.next (t ++ s) = .frame e.envelope [] := by
    simpa [hs] using e.next_wire_append []
  cases hdecode : decodeEnvelope t with
  | error err =>
      have hbad : envelopeFramer.next t = .bad err := by rw [envelopeFramer_next, hdecode, verdict]
      simp [envelopeFramer.bad_append s hbad] at hwhole
  | ok outcome =>
      cases outcome with
      | incomplete => rfl
      | frame f rest =>
          have hframe : envelopeFramer.next t = .frame f rest := by
            rw [envelopeFramer_next, hdecode, verdict]
          rw [envelopeFramer.frame_append s hframe] at hwhole
          have hnil : s = [] := by
            injection hwhole with _ hrest
            exact (List.append_eq_nil_iff.mp hrest).2
          exact absurd (by simpa [hnil] using hs) hne

theorem fromBytes_nil (calls : ℕ) : fromBytes (calls + 1) [] = ⟨[], .finished (.ok ())⟩ :=
  rfl

theorem fromBytes_strict_prefix {e : LegalEnvelope} {t : Bytes} (hfront : t <+: e.wire)
    (hnil : t ≠ []) (hne : t ≠ e.wire) (calls : ℕ) :
    fromBytes (calls + 1) t = ⟨[], .finished (.error .peerClosedMidFrame)⟩ := by
  have hempty : ¬ t.isEmpty = true := by simpa using hnil
  rw [fromBytes, decodeEnvelope_strict_prefix hfront hne]
  simp only [if_neg hempty]

theorem fromBytes_error {t : Bytes} {e : Protocol.Error} (h : decodeEnvelope t = .error e)
    (calls : ℕ) : fromBytes (calls + 1) t = ⟨[], .finished (.error (.malformedFraming e))⟩ := by
  rw [fromBytes, h]

theorem fromBytes_frame {t rest : Bytes} {f : Envelope}
    (h : decodeEnvelope t = .ok (.frame f rest)) (calls : ℕ) :
    fromBytes (calls + 1) t = (fromBytes calls rest).after [f] := by
  rw [fromBytes, h]

/-! ## Every cutting -/

/-- Every cutting of encoded envelopes and further bytes is read as these
envelopes in order and then as the further bytes alone determine, and the reader
of a pairing connection returns the first of the envelopes. -/
theorem readEnvelopes_any_cutting {W : Type} (env : Env Op Ans W) (w : W)
    (envs : List LegalEnvelope) (t : Bytes)
    (c : Cutting (envs.flatMap LegalEnvelope.wire ++ t)) (calls extra : ℕ) :
    (∀ e ∈ envs, encodeEnvelope e.envelope = .ok e.wire) ∧
    (∃ events r inb,
      exec (withInbound env)
          (readEnvelopes (c.pieces.length + 1 + extra) (envs.length + calls) [])
          (⟨c.pieces, .eof⟩, w) =
        ⟨events, some r, (inb, w)⟩ ∧
      r.Agrees inb ((fromBytes calls t).after (envs.map (·.envelope)))) ∧
    (∀ f rest, decodeEnvelope t = .ok (.frame f rest) →
      fromBytes (calls + 1) t = (fromBytes calls rest).after [f]) ∧
    (∀ e, decodeEnvelope t = .error e →
      fromBytes (calls + 1) t = ⟨[], .finished (.error (.malformedFraming e))⟩) ∧
    (t = [] → fromBytes (calls + 1) t = ⟨[], .finished (.ok ())⟩) ∧
    (∀ f : LegalEnvelope, t <+: f.wire → t ≠ [] → t ≠ f.wire →
      fromBytes (calls + 1) t = ⟨[], .finished (.error .peerClosedMidFrame)⟩) ∧
    (∀ first others, envs = first :: others →
      ∃ events buf inb,
        exec (withInbound env) (readOneEnvelope (c.pieces.length + 1 + extra) [])
            (⟨c.pieces, .eof⟩, w) =
          ⟨events, some (.ok (first.envelope, buf)), (inb, w)⟩) := by
  have hrounds : c.pieces.length < c.pieces.length + 1 + extra := by omega
  refine ⟨fun e _ => e.encodeEnvelope_eq, ?_, fun f rest h => fromBytes_frame h calls,
    fun e h => fromBytes_error h calls, fun h => h ▸ fromBytes_nil calls,
    fun f h hnil hne => fromBytes_strict_prefix h hnil hne calls, ?_⟩
  · obtain ⟨events, r, inb, hexec, hagrees⟩ :=
      exec_readEnvelopes env w (envs.length + calls) [] c.nonempty hrounds
    rw [List.nil_append, c.join, fromBytes_wire_append] at hagrees
    exact ⟨events, r, inb, hexec, hagrees⟩
  · rintro first others rfl
    have hnext : envelopeFramer.next ([] ++ c.pieces.flatten) =
        .frame first.envelope (others.flatMap LegalEnvelope.wire ++ t) := by
      rw [List.nil_append, c.join, List.flatMap_cons, List.append_assoc]
      exact first.next_wire_append _
    obtain ⟨events, buf, reads, -, hexec, -⟩ :=
      exec_reader_frame readOneEnvelopeRound_reads env w .eof c.nonempty hrounds hnext
    exact ⟨events, buf, _, hexec⟩

/-- A request to lock. -/
def LegalEnvelope.lock : LegalEnvelope where
  envelope := ⟨protocolVersion, 1, ClientFrame.format.encode .lock⟩
  version_eq := rfl
  payload_pos := by decide
  payload_le := by decide

/-- A request to sleep. -/
def LegalEnvelope.sleep : LegalEnvelope where
  envelope := ⟨protocolVersion, 2, ClientFrame.format.encode .sleep⟩
  version_eq := rfl
  payload_pos := by decide
  payload_le := by decide

/-- The two requests, cut inside their headers, and the start of a third one. -/
def Cutting.inHeaders : Cutting
    ([LegalEnvelope.lock, LegalEnvelope.sleep].flatMap LegalEnvelope.wire ++ [0, 0, 0]) where
  pieces :=
    [LegalEnvelope.lock.wire.take 2,
      LegalEnvelope.lock.wire.drop 2 ++ LegalEnvelope.sleep.wire.take 3,
      LegalEnvelope.sleep.wire.drop 3 ++ [0, 0, 0]]
  nonempty := by decide
  small := by decide
  join := by decide

/-- Both requests are read, and the peer has closed within the third one. -/
theorem requests_cut_in_headers :
    ∃ events r inb,
      exec (withInbound (answering fun w o => (succeeding pairedContents o, w)))
          (readEnvelopes 4 3 []) (⟨Cutting.inHeaders.pieces, .eof⟩, ()) =
        ⟨events, some r, (inb, ())⟩ ∧
      r.envelopes = [LegalEnvelope.lock.envelope, LegalEnvelope.sleep.envelope] ∧
      r.ending = .finished (.error .peerClosedMidFrame) := by
  have hread := readEnvelopes_any_cutting (answering fun w o => (succeeding pairedContents o, w)) ()
    [LegalEnvelope.lock, LegalEnvelope.sleep] [0, 0, 0] .inHeaders
  obtain ⟨-, ⟨events, r, inb, hexec, henvelopes, hending⟩, -⟩ := hread 1 0
  obtain ⟨-, -, -, -, -, hcut, -⟩ := hread 0 0
  have hrest : fromBytes 1 [0, 0, 0] = ⟨[], .finished (.error .peerClosedMidFrame)⟩ :=
    hcut .lock (by decide) (by decide) (by decide)
  rw [hrest] at henvelopes hending
  refine ⟨events, r, inb, hexec, henvelopes, ?_⟩
  cases hr : r.ending with
  | waiting buf =>
      rw [hr] at hending
      cases hending
  | finished result =>
      rw [hr] at hending
      exact congrArg CallsEnd.finished hending

end Daemon
end WakeMyPc
