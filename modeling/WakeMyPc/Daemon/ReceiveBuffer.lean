import WakeMyPc.Daemon.Chunking
import WakeMyPc.Foundations.Rounds
import WakeMyPc.Protocol.Grammar

/-!
# The size of the receive buffer

A read is issued only while the parser waits for the rest of a frame, and it waits only for
a frame of a legal length.  So the buffer never holds more than the largest incomplete frame
and one read.

Main results:

- Theorem `events_readEnvelopes`: the events of repeated calls are those of their rounds.
- Theorem `readEnvelopeRound_issues`: a round that reads has an incomplete frame in its buffer.
- Theorem `receive_buffer_bounded`: the buffer is bounded at every point of repeated calls.
-/

namespace WakeMyPc
namespace Daemon

open Foundations
open Foundations.Prog (exec loop roundStarts)
open Protocol

variable {W : Type}

/-! ## The rounds of repeated calls -/

/-- The buffers, with the world, in which the rounds of repeated calls start. -/
def readerRounds (env : Env Op Ans W) (rounds : ℕ) : ℕ → Bytes → W → List (Bytes × W)
  | 0, _, _ => []
  | calls + 1, buf, w =>
      roundStarts env readEnvelopeRound rounds buf w ++
        match (exec env (readEnvelope rounds buf) w).value with
        | some (.ok (some _, buf')) =>
            readerRounds env rounds calls buf' (exec env (readEnvelope rounds buf) w).world
        | _ => []

/-- The events of repeated calls are those of their rounds. -/
theorem events_readEnvelopes (env : Env Op Ans W) (rounds calls : ℕ) (buf : Bytes) (w : W) :
    (exec env (readEnvelopes rounds calls buf) w).events =
      (readerRounds env rounds calls buf w).flatMap fun start =>
        (exec env (readEnvelopeRound start.1) start.2).events := by
  induction calls generalizing buf w with
  | zero => rfl
  | succ calls ih =>
      have hcall : (exec env (readEnvelope rounds buf) w).events =
          (roundStarts env readEnvelopeRound rounds buf w).flatMap fun start =>
            (exec env (readEnvelopeRound start.1) start.2).events :=
        Prog.events_loop env readEnvelopeRound rounds buf w
      rw [readerRounds, List.flatMap_append, ← hcall, readEnvelopes, Prog.exec_bind]
      rcases hvalue : (exec env (readEnvelope rounds buf) w).value with _ | e | ⟨_ | envelope, buf'⟩
      · simp [Prog.andThen, hvalue]
      · simp [Prog.andThen, hvalue]
      · simp [Prog.andThen, hvalue]
      · have hlater := ih buf' (exec env (readEnvelope rounds buf) w).world
        simp only [Prog.andThen, hvalue]
        rw [← hlater, Prog.exec_bind]
        cases hrest : (exec env (readEnvelopes rounds calls buf')
          (exec env (readEnvelope rounds buf) w).world).value <;> simp [Prog.andThen, hrest]

/-! ## One round -/

/-- The program starts with a read. -/
def IssuesRead {α : Type} (p : Task α) : Prop :=
  ∃ k, p = .call .recv k

/-- A buffer in which a frame is waited for is smaller than the largest frame. -/
theorem length_of_incomplete {buf : Bytes} (h : decodeEnvelope buf = .ok .incomplete) :
    buf.length ≤ 65539 := by
  have hprefix : lengthPrefixLen = 4 := rfl
  have hmax : maxFrameLen = 65536 := rfl
  rcases decodeEnvelope_incomplete_iff.mp h with hshort | ⟨-, hlegal, hshort⟩ <;> omega

/-- A round that reads has an incomplete frame in its buffer. -/
theorem readEnvelopeRound_issues {buf : Bytes} (h : IssuesRead (readEnvelopeRound buf)) :
    buf.length ≤ 65539 := by
  obtain ⟨k, hk⟩ := h
  match hdecode : decodeEnvelope buf with
  | .error e => simp [readEnvelopeRound, parseBuffer, hdecode] at hk
  | .ok (.frame envelope rest) => simp [readEnvelopeRound, parseBuffer, hdecode] at hk
  | .ok .incomplete => exact length_of_incomplete hdecode

/-- A round returns a frame and what is left of the buffer, or appends one read to an
incomplete frame, or ends without a frame. -/
theorem exec_readEnvelopeRound_cases (env : Env Op Ans W) (buf : Bytes) (inb : Inbound) (w : W) :
    let out := exec (withInbound env) (readEnvelopeRound buf) (inb, w)
    (∃ envelope rest, out.value = some (.inr (.ok (some envelope, rest))) ∧
      rest.length ≤ buf.length ∧ out.world = (inb, w)) ∨
    (∃ chunk reads, inb.reads = chunk :: reads ∧ decodeEnvelope buf = .ok .incomplete ∧
      out.value = some (.inl (buf ++ chunk)) ∧ out.world = (⟨reads, inb.ending⟩, w)) ∨
    (∀ buf', out.value ≠ some (.inl buf')) ∧
      ∀ envelope rest, out.value ≠ some (.inr (.ok (some envelope, rest))) := by
  intro out
  obtain ⟨reads, ending⟩ := inb
  match hdecode : decodeEnvelope buf with
  | .error e =>
      have hround : readEnvelopeRound buf = .ret (.inr (.error (.malformedFraming e))) := by
        simp [readEnvelopeRound, parseBuffer, hdecode]
      simp [out, hround]
  | .ok (.frame envelope rest) =>
      have hround : readEnvelopeRound buf =
          .ret (.inr (.ok (some envelope, buf.drop (buf.length - rest.length)))) := by
        simp [readEnvelopeRound, parseBuffer, hdecode]
      refine .inl ⟨envelope, buf.drop (buf.length - rest.length), ?_, ?_, ?_⟩
      · simp [out, hround]
      · rw [List.length_drop]
        omega
      · simp [out, hround]
  | .ok .incomplete =>
      have hmore : envelopeFramer.next buf = .more := by
        rw [envelopeFramer_next, hdecode, verdict]
      cases reads with
      | nil =>
          obtain ⟨events, -, hexec⟩ :=
            @readEnvelopeRound_reads.ending W env w buf ending hmore
          rcases endOfStream_cases ending buf with hend | ⟨e, hend⟩ | ⟨rest, hend⟩ <;>
            simp [out, hexec, hend]
      | cons chunk reads =>
          cases chunk with
          | nil =>
              have hrecv : withInbound env (⟨[] :: reads, ending⟩, w) .recv =
                  some (.ok [], (⟨reads, ending⟩, w)) := rfl
              have hout : out = exec (withInbound env) (readEnvelopeRound buf)
                  (⟨[] :: reads, ending⟩, w) := rfl
              simp only [readEnvelopeRound, parseBuffer, hdecode, perform_bind] at hout
              rw [Prog.exec_call_some _ hrecv] at hout
              cases hempty : buf.isEmpty <;> simp [hout, hempty]
          | cons byte chunk =>
              have hexec := readEnvelopeRound_reads.piece env w reads ending hmore
                (List.cons_ne_nil byte chunk)
              exact .inr (.inl ⟨byte :: chunk, reads, rfl, rfl, by simp [out, hexec],
                by simp [out, hexec]⟩)

/-- All reads still to come are at most as large as one read can be. -/
def Inbound.Small (inb : Inbound) : Prop :=
  ∀ r ∈ inb.reads, r.length ≤ readChunk

/-- What repeated calls keep of the buffer and the reads still to come. -/
def BufferFits (buf : Bytes) (world : Inbound × W) : Prop :=
  buf.length ≤ 69635 ∧ world.1.Small

variable {env : Env Op Ans W} {buf : Bytes} {world : Inbound × W}

/-- A round that goes on has appended one read to an incomplete frame. -/
theorem bufferFits_next {buf' : Bytes} (hfits : BufferFits buf world)
    (h : (exec (withInbound env) (readEnvelopeRound buf) world).value = some (.inl buf')) :
    BufferFits buf' (exec (withInbound env) (readEnvelopeRound buf) world).world := by
  obtain ⟨inb, w⟩ := world
  rcases exec_readEnvelopeRound_cases env buf inb w with
    ⟨envelope, rest, hvalue, -⟩ | ⟨chunk, reads, hreads, hdecode, hvalue, hworld⟩ | ⟨hnone, -⟩
  · rw [h] at hvalue
    cases hvalue
  · rw [h] at hvalue
    rw [hworld]
    obtain rfl : buf' = buf ++ chunk := Sum.inl.inj (Option.some.inj hvalue)
    have hsmall : ∀ r ∈ chunk :: reads, r.length ≤ 4096 := hreads ▸ hfits.2
    have hbuf := length_of_incomplete hdecode
    have hchunk := hsmall chunk List.mem_cons_self
    refine ⟨?_, fun r hr => hsmall r (List.mem_cons_of_mem chunk hr)⟩
    rw [List.length_append]
    omega
  · exact absurd h (hnone buf')

/-- A round that finds a frame leaves less in the buffer and reads nothing. -/
theorem bufferFits_found {envelope : Envelope} {buf' : Bytes} (hfits : BufferFits buf world)
    (h : (exec (withInbound env) (readEnvelopeRound buf) world).value =
      some (.inr (.ok (some envelope, buf')))) :
    BufferFits buf' (exec (withInbound env) (readEnvelopeRound buf) world).world := by
  obtain ⟨inb, w⟩ := world
  rcases exec_readEnvelopeRound_cases env buf inb w with
    ⟨found, rest, hvalue, hrest, hworld⟩ | ⟨chunk, reads, -, -, hvalue, -⟩ | ⟨-, hnone⟩
  · rw [h] at hvalue
    rw [hworld]
    cases hvalue
    exact ⟨hrest.trans hfits.1, hfits.2⟩
  · rw [h] at hvalue
    cases hvalue
  · exact absurd h (hnone envelope buf')

/-! ## Repeated calls -/

/-- Every round of repeated calls starts with a bounded buffer. -/
theorem bufferFits_readerRounds (rounds calls : ℕ) (hfits : BufferFits buf world) :
    ∀ start ∈ readerRounds (withInbound env) rounds calls buf world,
      BufferFits start.1 start.2 := by
  induction calls generalizing buf world with
  | zero => simp [readerRounds]
  | succ calls ih =>
      rw [readerRounds]
      refine List.forall_mem_append.mpr ⟨?_, ?_⟩
      · exact Prog.roundStarts_invariant BufferFits (fun _ _ _ => bufferFits_next) rounds hfits
      · match hvalue : (exec (withInbound env) (readEnvelope rounds buf) world).value with
        | none => simp
        | some (.error e) => simp
        | some (.ok (none, rest)) => simp
        | some (.ok (some envelope, buf')) =>
            refine ih (Prog.exec_loop_keeps BufferFits (fun _ _ _ => bufferFits_next)
              (fun result world => ∀ envelope buf', result = .ok (some envelope, buf') →
                BufferFits buf' world) ?_ rounds hfits hvalue envelope buf' rfl)
            rintro buf world result hfits hresult envelope buf' rfl
            exact bufferFits_found hfits hresult

/-- For every stream of bytes and every cutting of it into reads, repeated calls with one
buffer have at most the largest incomplete frame and one read in it, and at most the largest
incomplete frame when they issue another read. -/
theorem receive_buffer_bounded {input : Bytes} (c : Cutting input) (ending : StreamEnd)
    (env : Env Op Ans W) (w : W) (rounds calls : ℕ) :
    (exec (withInbound env) (readEnvelopes rounds calls []) (⟨c.pieces, ending⟩, w)).events =
        (readerRounds (withInbound env) rounds calls [] (⟨c.pieces, ending⟩, w)).flatMap
          (fun start => (exec (withInbound env) (readEnvelopeRound start.1) start.2).events) ∧
      ∀ start ∈ readerRounds (withInbound env) rounds calls [] (⟨c.pieces, ending⟩, w),
        start.1.length ≤ 4 + maxFrameLen - 1 + readChunk ∧
          (IssuesRead (readEnvelopeRound start.1) → start.1.length ≤ 65539) := by
  refine ⟨events_readEnvelopes _ _ _ _ _, fun start hstart => ?_⟩
  have hempty : BufferFits [] (⟨c.pieces, ending⟩, w) := ⟨Nat.zero_le _, c.small⟩
  exact ⟨(bufferFits_readerRounds rounds calls hempty start hstart).1, readEnvelopeRound_issues⟩

/-- The rounds in which requests that were cut inside their headers are read, which hold at most
twenty-nine bytes, keep within the bounds. -/
theorem requests_within_bounds :
    let world := (⟨Cutting.inHeaders.pieces, .eof⟩, ())
    let env := withInbound (answering fun w o => (succeeding pairedContents o, w))
    (readerRounds env 4 3 [] world).map (·.1.length) = [0, 2, 17, 3, 17, 3] ∧
      ∀ start ∈ readerRounds env 4 3 [] world,
        start.1.length ≤ 4 + maxFrameLen - 1 + readChunk ∧
          (IssuesRead (readEnvelopeRound start.1) → start.1.length ≤ 65539) := by
  intro world env
  exact ⟨by decide, (receive_buffer_bounded .inHeaders .eof _ () 4 3).2⟩

end Daemon
end WakeMyPc
