import WakeMyPc.Daemon.PairingFlow
import WakeMyPc.Protocol.Stream

/-!
# Reading a stream that arrives in pieces

The environment hands the bytes of a peer to `recv` piece by piece.  The reader
of envelopes then behaves as the reader of the envelope framer, so what it
returns does not depend on where the bytes are cut.

Main results:

- Theorem `exec_reader`: a reader of envelopes does what the framer does on the pieces
  that arrive.
- Theorems `exec_reader_frame`, `exec_reader_bad` and `exec_reader_more`: the three ways
  a call of the reader can end.
-/

namespace WakeMyPc
namespace Daemon

open Foundations
open Foundations.Prog (exec loop)
open Protocol

/-! ## The bytes of a peer -/

/-- How the bytes of a peer end. -/
inductive StreamEnd where
  | eof
  | error (e : IoError)
  | silent
deriving DecidableEq

/-- The reads that a connection still has to come. -/
structure Inbound where
  reads : List Bytes
  ending : StreamEnd

/-- The answer to one read, if there is one. -/
def Inbound.next (inb : Inbound) : Option (Except IoError Bytes × Inbound) :=
  match inb.reads, inb.ending with
  | chunk :: reads, _ => some (.ok chunk, { inb with reads })
  | [], .eof => some (.ok [], inb)
  | [], .error e => some (.error e, inb)
  | [], .silent => none

variable {W : Type}

/-- An environment that answers reads from a fixed stream. -/
def withInbound (env : Env Op Ans W) : Env Op Ans (Inbound × W) :=
  fun w o =>
    match o with
    | .recv => w.1.next.map fun answer => (answer.1, (answer.2, w.2))
    | o => (env w.2 o).map fun answer => (answer.1, (w.1, answer.2))

theorem withInbound_other (env : Env Op Ans W) (inb : Inbound) (w : W) {o : Op}
    (h : o.isRecv = false) :
    withInbound env (inb, w) o = (env w o).map fun answer => (answer.1, (inb, answer.2)) := by
  cases o <;> first | rfl | simp [Op.isRecv] at h

/-- All events are reads. -/
def OnlyReads (events : List TaskEvent) : Prop :=
  ∀ e ∈ events, e.op.isRecv = true

theorem onlyReads_nil : OnlyReads [] := by
  simp [OnlyReads]

theorem onlyReads_cons {ans : Ans .recv} {events : List TaskEvent} (h : OnlyReads events) :
    OnlyReads (⟨.recv, ans⟩ :: events) := by
  intro e he
  rcases List.mem_cons.mp he with rfl | he
  · rfl
  · exact h e he

/-! ## One parse -/

/-- A parse drains exactly what the framer consumes. -/
theorem parseBuffer_eq (buf : Bytes) :
    parseBuffer buf =
      match envelopeFramer.next buf with
      | .frame envelope rest => .ok (some (envelope, rest))
      | .more => .ok none
      | .bad e => .error e := by
  rw [envelopeFramer_next, parseBuffer]
  cases h : decodeEnvelope buf with
  | error e => rfl
  | ok outcome =>
      cases outcome with
      | incomplete => rfl
      | frame envelope remainder =>
          obtain ⟨-, -, -, hlen, -, -, rfl⟩ := decodeEnvelope_frame_iff.mp h
          simp only [verdict, List.length_drop, Nat.sub_sub_self hlen]

/-! ## Loops that read -/

/-- The rounds of a loop that reads one envelope: what it returns when it has
one, when the buffer is refused, and at the end of the stream. -/
structure ReadsEnvelope {ρ : Type} (round : Bytes → Task (Bytes ⊕ ρ))
    (found : Envelope → Bytes → ρ) (refused : Protocol.Error → ρ)
    (ended : StreamEnd → Bytes → Option ρ) : Prop where
  frame : ∀ {buf rest envelope}, envelopeFramer.next buf = .frame envelope rest →
    round buf = .ret (.inr (found envelope rest))
  bad : ∀ {buf e}, envelopeFramer.next buf = .bad e → round buf = .ret (.inr (refused e))
  piece : ∀ {W : Type} (env : Env Op Ans W) (w : W) {buf chunk} reads ending,
    envelopeFramer.next buf = .more → chunk ≠ [] →
    exec (withInbound env) (round buf) (⟨chunk :: reads, ending⟩, w) =
      ⟨[⟨.recv, .ok chunk⟩], some (.inl (buf ++ chunk)), (⟨reads, ending⟩, w)⟩
  ending : ∀ {W : Type} (env : Env Op Ans W) (w : W) {buf ending},
    envelopeFramer.next buf = .more →
    ∃ events, OnlyReads events ∧
      exec (withInbound env) (round buf) (⟨[], ending⟩, w) =
        ⟨events, (ended ending buf).map .inr, (⟨[], ending⟩, w)⟩

/-- The value of a loop that reads one envelope, from what the framer's reader
ends with. -/
def pulledValue {ρ : Type} (found : Envelope → Bytes → ρ) (refused : Protocol.Error → ρ)
    (ended : Bytes → Option ρ) : Pulled UInt8 Protocol.Error Envelope → Option ρ
  | .frame envelope buf _ => some (found envelope buf)
  | .bad e _ => some (refused e)
  | .short buf => ended buf

section Loop

variable {ρ : Type} {round : Bytes → Task (Bytes ⊕ ρ)} {found : Envelope → Bytes → ρ}
  {refused : Protocol.Error → ρ} {ended : StreamEnd → Bytes → Option ρ}

private theorem exec_reader_stop {W' : Type} (env : Env Op Ans W') (w : W') {buf : Bytes} {r : ρ}
    (n : ℕ) (h : round buf = .ret (.inr r)) :
    exec env (loop round (n + 1) buf) w = ⟨[], some r, w⟩ := by
  simp [loop, h]

/-- A loop that reads one envelope behaves as the framer's reader. -/
theorem exec_reader (H : ReadsEnvelope round found refused ended) (env : Env Op Ans W) (w : W)
    {reads : List Bytes} (ending : StreamEnd) (hne : ∀ r ∈ reads, r ≠ []) (buf : Bytes) {n : ℕ}
    (hn : reads.length < n) :
    ∃ events, OnlyReads events ∧
      exec (withInbound env) (loop round n buf) (⟨reads, ending⟩, w) =
        ⟨events, pulledValue found refused (ended ending) (envelopeFramer.pull reads buf),
          (⟨(envelopeFramer.pull reads buf).pieces, ending⟩, w)⟩ := by
  induction reads generalizing buf n with
  | nil =>
      obtain ⟨n, rfl⟩ : ∃ m, n = m + 1 := ⟨n - 1, by omega⟩
      cases hnext : envelopeFramer.next buf with
      | frame envelope rest =>
          rw [envelopeFramer.pull_frame hnext]
          exact ⟨[], onlyReads_nil, exec_reader_stop _ _ n (H.frame hnext)⟩
      | bad e =>
          rw [envelopeFramer.pull_bad hnext]
          exact ⟨[], onlyReads_nil, exec_reader_stop _ _ n (H.bad hnext)⟩
      | more =>
          obtain ⟨events, honly, hexec⟩ := H.ending env w hnext
          refine ⟨events, honly, ?_⟩
          rw [envelopeFramer.pull_more_nil hnext, pulledValue]
          cases hend : ended ending buf with
          | none =>
              rw [hend, Option.map_none] at hexec
              rw [Prog.exec_loop_none n (by rw [hexec]), hexec]
              rfl
          | some result =>
              rw [hend, Option.map_some] at hexec
              rw [Prog.exec_loop_inr n (by rw [hexec]), hexec]
              rfl
  | cons chunk reads ih =>
      obtain ⟨n, rfl⟩ : ∃ m, n = m + 1 := ⟨n - 1, by omega⟩
      cases hnext : envelopeFramer.next buf with
      | frame envelope rest =>
          rw [envelopeFramer.pull_frame hnext]
          exact ⟨[], onlyReads_nil, exec_reader_stop _ _ n (H.frame hnext)⟩
      | bad e =>
          rw [envelopeFramer.pull_bad hnext]
          exact ⟨[], onlyReads_nil, exec_reader_stop _ _ n (H.bad hnext)⟩
      | more =>
          have hround := H.piece env w reads ending hnext (hne chunk List.mem_cons_self)
          obtain ⟨events, honly, hexec⟩ := ih (fun r hr => hne r (List.mem_cons_of_mem chunk hr))
            (buf ++ chunk) (by simpa using hn)
          refine ⟨⟨.recv, .ok chunk⟩ :: events, onlyReads_cons honly, ?_⟩
          rw [Prog.exec_loop_inl n (by rw [hround]), hround, hexec,
            envelopeFramer.pull_more_cons hnext]
          rfl

end Loop

/-! ## One call of a reader -/

/-- A program that reads once more at the end of the stream and then returns. -/
private theorem exec_recv_ending {α : Type} (env : Env Op Ans W) (w : W) (ending : StreamEnd)
    {k : Except IoError Bytes → Task α} (value : StreamEnd → Option α)
    (heof : ∃ a, k (.ok []) = .ret a ∧ value .eof = some a)
    (herror : ∀ e, ∃ a, k (.error e) = .ret a ∧ value (.error e) = some a)
    (hsilent : value .silent = none) :
    ∃ events, OnlyReads events ∧
      exec (withInbound env) (.call .recv k) (⟨[], ending⟩, w) =
        ⟨events, value ending, (⟨[], ending⟩, w)⟩ := by
  cases ending with
  | eof =>
      obtain ⟨a, hk, hvalue⟩ := heof
      have hrecv : withInbound env (⟨[], .eof⟩, w) .recv = some (.ok [], (⟨[], .eof⟩, w)) := rfl
      refine ⟨[⟨.recv, .ok []⟩], onlyReads_cons onlyReads_nil, ?_⟩
      rw [Prog.exec_call_some k hrecv, hk, hvalue]
      rfl
  | error e =>
      obtain ⟨a, hk, hvalue⟩ := herror e
      have hrecv : withInbound env (⟨[], .error e⟩, w) .recv =
          some (.error e, (⟨[], .error e⟩, w)) := rfl
      refine ⟨[⟨.recv, .error e⟩], onlyReads_cons onlyReads_nil, ?_⟩
      rw [Prog.exec_call_some k hrecv, hk, hvalue]
      rfl
  | silent =>
      have hrecv : withInbound env (⟨[], .silent⟩, w) .recv = none := rfl
      refine ⟨[], onlyReads_nil, ?_⟩
      rw [Prog.exec_call_none k hrecv, hsilent]

/-- What `readEnvelope` returns at the end of the stream. -/
def endOfStream (ending : StreamEnd) (buf : Bytes) :
    Option (Except RunError (Option Envelope × Bytes)) :=
  match ending with
  | .eof => some (if buf.isEmpty then .ok (none, buf) else .error .peerClosedMidFrame)
  | .error e => some (.error (.io e))
  | .silent => none

/-- At the end of the stream there is no envelope. -/
theorem endOfStream_cases (ending : StreamEnd) (buf : Bytes) :
    endOfStream ending buf = none ∨ (∃ e, endOfStream ending buf = some (.error e)) ∨
      ∃ rest, endOfStream ending buf = some (.ok (none, rest)) := by
  cases ending with
  | eof =>
      by_cases hempty : buf.isEmpty = true
      · exact .inr (.inr ⟨buf, by rw [endOfStream, if_pos hempty]⟩)
      · exact .inr (.inl ⟨.peerClosedMidFrame, by rw [endOfStream, if_neg hempty]⟩)
  | error e => exact .inr (.inl ⟨.io e, rfl⟩)
  | silent => exact .inl rfl

/-- What `readOneEnvelope` returns at the end of the stream. -/
def endOfPairing (ending : StreamEnd) (_buf : Bytes) :
    Option (Except RunError (Envelope × Bytes)) :=
  match ending with
  | .eof => some (.error .peerClosedMidFrame)
  | .error e => some (.error (.io e))
  | .silent => none

theorem readEnvelopeRound_reads :
    ReadsEnvelope readEnvelopeRound (fun envelope buf => .ok (some envelope, buf))
      (fun e => .error (.malformedFraming e)) endOfStream where
  frame h := by simp [readEnvelopeRound, parseBuffer_eq, h]
  bad h := by simp [readEnvelopeRound, parseBuffer_eq, h]
  piece env w buf chunk reads ending hmore hchunk := by
    have hrecv : withInbound env (⟨chunk :: reads, ending⟩, w) .recv =
        some (.ok chunk, (⟨reads, ending⟩, w)) := rfl
    simp only [readEnvelopeRound, parseBuffer_eq, hmore, perform_bind]
    rw [Prog.exec_call_some _ hrecv]
    simp [hchunk]
  ending env w buf ending hmore := by
    simp only [readEnvelopeRound, parseBuffer_eq, hmore, perform_bind]
    exact exec_recv_ending env w ending (fun ending => (endOfStream ending buf).map Sum.inr)
      (by cases buf <;> exact ⟨_, rfl, rfl⟩) (fun e => ⟨_, rfl, rfl⟩) rfl

theorem readOneEnvelopeRound_reads :
    ReadsEnvelope readOneEnvelopeRound (fun envelope buf => .ok (envelope, buf))
      (fun e => .error (.malformedFraming e)) endOfPairing where
  frame h := by simp [readOneEnvelopeRound, parseBuffer_eq, h]
  bad h := by simp [readOneEnvelopeRound, parseBuffer_eq, h]
  piece env w buf chunk reads ending hmore hchunk := by
    have hrecv : withInbound env (⟨chunk :: reads, ending⟩, w) .recv =
        some (.ok chunk, (⟨reads, ending⟩, w)) := rfl
    simp only [readOneEnvelopeRound, parseBuffer_eq, hmore, perform_bind]
    rw [Prog.exec_call_some _ hrecv]
    simp [hchunk]
  ending env w buf ending hmore := by
    simp only [readOneEnvelopeRound, parseBuffer_eq, hmore, perform_bind]
    exact exec_recv_ending env w ending (fun ending => (endOfPairing ending buf).map Sum.inr)
      ⟨_, rfl, rfl⟩ (fun e => ⟨_, rfl, rfl⟩) rfl

/-! ## What a call does to the remaining bytes -/

section Remaining

variable {ρ : Type} {round : Bytes → Task (Bytes ⊕ ρ)} {found : Envelope → Bytes → ρ}
  {refused : Protocol.Error → ρ} {ended : StreamEnd → Bytes → Option ρ}
  (H : ReadsEnvelope round found refused ended) (env : Env Op Ans W) (w : W)
  {reads : List Bytes} (ending : StreamEnd) {buf : Bytes} {n : ℕ}

include H

/-- When the remaining bytes start with a frame, a call returns it and leaves
the bytes after it. -/
theorem exec_reader_frame (hne : ∀ r ∈ reads, r ≠ []) (hn : reads.length < n)
    {envelope : Envelope} {rest : Bytes}
    (h : envelopeFramer.next (buf ++ reads.flatten) = .frame envelope rest) :
    ∃ events buf' reads', OnlyReads events ∧
      exec (withInbound env) (loop round n buf) (⟨reads, ending⟩, w) =
        ⟨events, some (found envelope buf'), (⟨reads', ending⟩, w)⟩ ∧
      buf' ++ reads'.flatten = rest ∧ reads' <:+ reads := by
  obtain ⟨events, honly, hexec⟩ := exec_reader H env w ending hne buf hn
  rcases envelopeFramer.pull_eq reads buf with
    ⟨f, rest', buf', reads', hnext, hpull, hrest, hsuffix⟩ | ⟨e, reads', hnext, -⟩ | ⟨hnext, -⟩
  · rw [h] at hnext
    cases hnext
    rw [hpull] at hexec
    exact ⟨events, buf', reads', honly, hexec, hrest.symm, hsuffix⟩
  · simp [h] at hnext
  · simp [h] at hnext

/-- When the remaining bytes are refused, so is the call. -/
theorem exec_reader_bad (hne : ∀ r ∈ reads, r ≠ []) (hn : reads.length < n)
    {e : Protocol.Error} (h : envelopeFramer.next (buf ++ reads.flatten) = .bad e) :
    ∃ events inb, OnlyReads events ∧
      exec (withInbound env) (loop round n buf) (⟨reads, ending⟩, w) =
        ⟨events, some (refused e), (inb, w)⟩ := by
  obtain ⟨events, honly, hexec⟩ := exec_reader H env w ending hne buf hn
  rcases envelopeFramer.pull_eq reads buf with
    ⟨f, rest', buf', reads', hnext, -⟩ | ⟨e', reads', hnext, hpull⟩ | ⟨hnext, -⟩
  · simp [h] at hnext
  · rw [h] at hnext
    cases hnext
    rw [hpull] at hexec
    exact ⟨events, _, honly, hexec⟩
  · simp [h] at hnext

/-- When the remaining bytes hold no whole frame, a call goes to the end of the
stream. -/
theorem exec_reader_more (hne : ∀ r ∈ reads, r ≠ []) (hn : reads.length < n)
    (h : envelopeFramer.next (buf ++ reads.flatten) = .more) :
    ∃ events inb, OnlyReads events ∧
      exec (withInbound env) (loop round n buf) (⟨reads, ending⟩, w) =
        ⟨events, ended ending (buf ++ reads.flatten), (inb, w)⟩ := by
  obtain ⟨events, honly, hexec⟩ := exec_reader H env w ending hne buf hn
  rcases envelopeFramer.pull_eq reads buf with
    ⟨f, rest', buf', reads', hnext, -⟩ | ⟨e', reads', hnext, -⟩ | ⟨-, hpull⟩
  · simp [h] at hnext
  · simp [h] at hnext
  · rw [hpull] at hexec
    exact ⟨events, _, honly, hexec⟩

end Remaining

end Daemon
end WakeMyPc
