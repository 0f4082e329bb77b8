import WakeMyPc.Daemon.Dispatch
import WakeMyPc.Daemon.Reader
import WakeMyPc.Protocol.RoundTrip

/-!
# Sessions

A session is a run of the protocol loop on the stream of one peer, with every
other operation answered by an arbitrary environment.  Its log, without the
reads, is one exchange for each served envelope and a closing part.

Main results:

- Theorem `exec_serveEnvelope`: what serving one envelope does.
- Theorem `exec_protocolLoop`: the log of a session is related to the envelopes of
  its stream by `Session`.
-/

namespace WakeMyPc
namespace Daemon

open Foundations
open Foundations.Prog (exec loop Trace Uses)
open Protocol
open Crypto (NonceCounter NonceReceiver NonceSender)

/-! ## Environments that answer -/

variable {W : Type}

/-- The bytes of a message that the daemon writes. -/
def responseBytes (nonce : UInt64) (frame : DaemonFrame) : Bytes :=
  wireBytes ⟨protocolVersion, nonce, DaemonFrame.format.encode frame⟩

theorem encodeEnvelope_response (nonce : UInt64) (frame : DaemonFrame) :
    encodeEnvelope ⟨protocolVersion, nonce, DaemonFrame.format.encode frame⟩ =
      .ok (responseBytes nonce frame) := by
  apply encodeEnvelope_ok
  have hle := frame.length_encode_le
  simp only [envelopeHeaderLen, maxFrameLen]
  omega

/-- Bytes are those of one message only. -/
theorem responseBytes_inj {nonce nonce' : UInt64} {frame frame' : DaemonFrame}
    (h : responseBytes nonce frame = responseBytes nonce' frame') : frame = frame' := by
  obtain ⟨wire, hwire, hdecode⟩ := frame.passesEnvelope nonce []
  obtain ⟨wire', hwire', hdecode'⟩ := frame'.passesEnvelope nonce' []
  rw [encodeEnvelope_response] at hwire hwire'
  rw [← Except.ok.inj hwire, h, Except.ok.inj hwire', hdecode'] at hdecode
  have hpayload : DaemonFrame.format.encode frame' = DaemonFrame.format.encode frame := by
    injection hdecode with hdecode
    injection hdecode with henvelope
    injection henvelope
  have hsame := decodePayload_encode DaemonFrame.format frame
  rw [← hpayload, decodePayload_encode] at hsame
  exact (Except.ok.inj hsame).symm

section Writing

variable (answer : W → (o : Op) → Ans o × W) (inb : Inbound) (w : W)

/-- An error outside the counted messages is one write and a close. -/
theorem exec_sendErrorAndClose (requestNonce : UInt64) (code : ProtocolError) :
    ∃ (written closed : Except IoError Unit) (w' : W),
      exec (withInbound (answering answer)) (sendErrorAndClose requestNonce code) (inb, w) =
        ⟨[⟨.send (responseBytes 1 (.error requestNonce code)), written⟩, ⟨.shutdown, closed⟩],
          some (.ok ()), (inb, w')⟩ := by
  simp only [sendErrorAndClose, encodeDaemonFrame_eq, encodeEnvelope_response]
  exact ⟨_, _, _, rfl⟩

/-- A counted message is one write with the next nonce. -/
theorem exec_writeFrame (nonces : NonceCounter) (hnonce : nonces.send.next.toNat + 1 < 2 ^ 64)
    (frame : DaemonFrame) :
    ∃ w' : W,
      (∃ e, exec (withInbound (answering answer)) (writeFrame nonces frame) (inb, w) =
        ⟨[⟨.send (responseBytes (nonces.send.next + 1) frame), Except.error e⟩],
          some (.error (.io e), { nonces with send := ⟨nonces.send.next + 1⟩ }), (inb, w')⟩) ∨
      exec (withInbound (answering answer)) (writeFrame nonces frame) (inb, w) =
        ⟨[⟨.send (responseBytes (nonces.send.next + 1) frame), Except.ok ()⟩],
          some (.ok true, { nonces with send := ⟨nonces.send.next + 1⟩ }), (inb, w')⟩ := by
  have hissue : nonces.send.issue = (some (nonces.send.next + 1), ⟨nonces.send.next + 1⟩) :=
    NonceSender.issue_of_lt hnonce
  simp only [writeFrame, hissue, encodeDaemonFrame_eq, encodeEnvelope_response]
  let bytes := responseBytes (nonces.send.next + 1) frame
  have hsend : withInbound (answering answer) (inb, w) (.send bytes) =
      some ((answer w (.send bytes)).1, (inb, (answer w (.send bytes)).2)) := rfl
  refine ⟨(answer w (.send bytes)).2, ?_⟩
  cases hwritten : (answer w (.send bytes)).1 with
  | error e =>
      rw [hwritten] at hsend
      exact .inl ⟨e, by rw [perform_bind, Prog.exec_call_some _ hsend]; rfl⟩
  | ok _ =>
      rw [hwritten] at hsend
      exact .inr (by rw [perform_bind, Prog.exec_call_some _ hsend]; rfl)

/-- A program of local operations returns, leaves the stream alone, and performs a
trace of itself. -/
theorem exec_local {α : Type} {p : Task α} (huses : p.Uses fun o => o.isLocal = true) :
    ∃ events a w',
      exec (withInbound (answering answer)) p (inb, w) = ⟨events, some a, (inb, w')⟩ ∧
      p.Trace events a := by
  have hlift := huses.exec_lift (answering answer) (withInbound (answering answer)) inb
    (fun w o ho => withInbound_other (answering answer) inb w (Op.not_isRecv_of_isLocal ho)) w
  obtain ⟨a, ha⟩ := huses.exec_returns (answering answer) (fun _ _ _ => rfl) w
  exact ⟨_, a, _, by rw [hlift, ha], Prog.exec_trace _ _ ha⟩

end Writing

/-! ## Exchanges -/

/-- One served request: the operations of its dispatch, its answer, and the write
of the answer. -/
structure Exchange where
  nonce : UInt64
  frame : ClientFrame
  events : List TaskEvent
  response : DaemonFrame
  sendNonce : UInt64
  written : Except IoError Unit

namespace Exchange

/-- The request of an exchange. -/
def request (x : Exchange) : UInt64 × ClientFrame :=
  (x.nonce, x.frame)

/-- The operations of an exchange: those of the dispatch, then one write. -/
def log (x : Exchange) : List TaskEvent :=
  x.events ++ [⟨.send (responseBytes x.sendNonce x.response), x.written⟩]

/-- The exchange dispatches its own request for the peer. -/
def Dispatches (x : Exchange) (peerSpki : SpkiHash) : Prop :=
  (dispatch peerSpki x.frame x.nonce).Trace x.events x.response

/-- The exchange serves an envelope after nonces up to `lastSeen` were accepted
and `sent` messages were written. -/
structure Serves (x : Exchange) (peerSpki : SpkiHash) (lastSeen sent : UInt64)
    (envelope : Envelope) : Prop where
  fresh : lastSeen < envelope.nonce
  nonce_eq : x.nonce = envelope.nonce
  decodes : decodeClientFrame envelope.payload = .ok x.frame
  sendNonce_eq : x.sendNonce = sent + 1
  dispatches : x.Dispatches peerSpki

/-- The operations of a dispatch are local. -/
theorem events_local {x : Exchange} {peerSpki : SpkiHash} (h : x.Dispatches peerSpki) :
    ∀ e ∈ x.events, e.op.isLocal = true :=
  (dispatch_uses peerSpki x.frame x.nonce).trace h

end Exchange

/-- The operations of the error that ends a session. -/
def errorAndClose (requestNonce : UInt64) (code : ProtocolError)
    (written closed : Except IoError Unit) : List TaskEvent :=
  [⟨.send (responseBytes 1 (.error requestNonce code)), written⟩, ⟨.shutdown, closed⟩]

/-- What a session does on a list of envelopes, after nonces up to `lastSeen` were
accepted and `sent` messages were written: its exchanges, and its closing part. -/
inductive Session (peerSpki : SpkiHash) :
    UInt64 → UInt64 → List Envelope → List Exchange → List TaskEvent → Prop where
  | finished (lastSeen sent : UInt64) : Session peerSpki lastSeen sent [] [] []
  | replayed {lastSeen : UInt64} (sent : UInt64) {e : Envelope} (es : List Envelope)
      (h : e.nonce ≤ lastSeen) (written closed : Except IoError Unit) :
      Session peerSpki lastSeen sent (e :: es) []
        (errorAndClose e.nonce .nonceReplay written closed)
  | undecodable {lastSeen : UInt64} (sent : UInt64) {e : Envelope} (es : List Envelope)
      {err : Protocol.Error} (h : lastSeen < e.nonce)
      (hdecode : decodeClientFrame e.payload = .error err)
      (written closed : Except IoError Unit) :
      Session peerSpki lastSeen sent (e :: es) []
        (errorAndClose e.nonce err.toWireCode written closed)
  | writeFailed {lastSeen sent : UInt64} {e : Envelope} (es : List Envelope) {x : Exchange}
      (h : x.Serves peerSpki lastSeen sent e) {err : IoError} (hwritten : x.written = .error err) :
      Session peerSpki lastSeen sent (e :: es) [x] []
  | closed {lastSeen sent : UInt64} {e : Envelope} (es : List Envelope) {x : Exchange}
      (h : x.Serves peerSpki lastSeen sent e) (hwritten : x.written = .ok ())
      (hpair : isPair x.frame = true) (result : Except IoError Unit) :
      Session peerSpki lastSeen sent (e :: es) [x] [⟨.shutdown, result⟩]
  | next {lastSeen sent : UInt64} {e : Envelope} {es : List Envelope} {x : Exchange}
      {xs : List Exchange} {tail : List TaskEvent} (h : x.Serves peerSpki lastSeen sent e)
      (hwritten : x.written = .ok ()) (hpair : isPair x.frame = false)
      (hrest : Session peerSpki x.nonce x.sendNonce es xs tail) :
      Session peerSpki lastSeen sent (e :: es) (x :: xs) tail

/-! ## Serving one envelope -/

section Serving

variable (answer : W → (o : Op) → Ans o × W) (inb : Inbound) (w : W) (peerSpki : SpkiHash)
  (s : LoopState) {envelope : Envelope}

theorem exec_serveEnvelope_replay (h : envelope.nonce ≤ s.nonces.recv.lastSeen) :
    ∃ written closed w',
      exec (withInbound (answering answer)) (serveEnvelope peerSpki s envelope) (inb, w) =
        ⟨errorAndClose envelope.nonce .nonceReplay written closed, some (.inr (.ok ())),
          (inb, w')⟩ := by
  obtain ⟨written, closed, w', hexec⟩ :=
    exec_sendErrorAndClose answer inb w envelope.nonce .nonceReplay
  refine ⟨written, closed, w', ?_⟩
  simp only [serveEnvelope, NonceReceiver.accept_of_le h]
  rw [Prog.exec_bind, hexec]
  rfl

theorem exec_serveEnvelope_undecodable (h : s.nonces.recv.lastSeen < envelope.nonce)
    {err : Protocol.Error} (hdecode : decodeClientFrame envelope.payload = .error err) :
    ∃ written closed w',
      exec (withInbound (answering answer)) (serveEnvelope peerSpki s envelope) (inb, w) =
        ⟨errorAndClose envelope.nonce err.toWireCode written closed, some (.inr (.ok ())),
          (inb, w')⟩ := by
  obtain ⟨written, closed, w', hexec⟩ :=
    exec_sendErrorAndClose answer inb w envelope.nonce err.toWireCode
  refine ⟨written, closed, w', ?_⟩
  simp only [serveEnvelope, NonceReceiver.accept_of_lt h, hdecode]
  rw [Prog.exec_bind, hexec]
  rfl

/-- A fresh envelope that decodes is served by one exchange, and the session goes
on unless the write failed or the message was `Pair`. -/
theorem exec_serveEnvelope (h : s.nonces.recv.lastSeen < envelope.nonce) {frame : ClientFrame}
    (hdecode : decodeClientFrame envelope.payload = .ok frame)
    (hnonce : s.nonces.send.next.toNat + 1 < 2 ^ 64) :
    ∃ (x : Exchange) (w' : W),
      x.Serves peerSpki s.nonces.recv.lastSeen s.nonces.send.next envelope ∧
      ((∃ err, x.written = .error err ∧
          exec (withInbound (answering answer)) (serveEnvelope peerSpki s envelope) (inb, w) =
            ⟨x.log, some (.inr (.error (.io err))), (inb, w')⟩) ∨
        (x.written = .ok () ∧ isPair x.frame = true ∧ ∃ result : Except IoError Unit,
          exec (withInbound (answering answer)) (serveEnvelope peerSpki s envelope) (inb, w) =
            ⟨x.log ++ [⟨.shutdown, result⟩], some (.inr (.ok ())), (inb, w')⟩) ∨
        (x.written = .ok () ∧ isPair x.frame = false ∧
          exec (withInbound (answering answer)) (serveEnvelope peerSpki s envelope) (inb, w) =
            ⟨x.log, some (.inl ⟨⟨⟨x.sendNonce⟩, ⟨x.nonce⟩⟩, s.buf⟩), (inb, w')⟩)) := by
  obtain ⟨events, response, w₁, hdispatch, htrace⟩ :=
    exec_local answer inb w (dispatch_uses peerSpki frame envelope.nonce)
  let nonces : NonceCounter := { s.nonces with recv := ⟨envelope.nonce⟩ }
  obtain ⟨w₂, hwrite⟩ := exec_writeFrame answer inb w₁ nonces hnonce response
  have hcloses : responseClosesConnection response = isPair frame := by
    obtain ⟨_, _, _, -, hanswered⟩ := dispatch_answered htrace
    exact responseClosesConnection_eq hanswered
  let x (written : Except IoError Unit) : Exchange :=
    ⟨envelope.nonce, frame, events, response, s.nonces.send.next + 1, written⟩
  have hserves (written : Except IoError Unit) :
      (x written).Serves peerSpki s.nonces.recv.lastSeen s.nonces.send.next envelope :=
    ⟨h, rfl, hdecode, rfl, htrace⟩
  simp only [serveEnvelope, NonceReceiver.accept_of_lt h, hdecode]
  rw [Prog.exec_bind, hdispatch]
  simp only [Prog.andThen]
  rw [Prog.exec_bind]
  rcases hwrite with ⟨err, hwrite⟩ | hwrite
  · refine ⟨x (.error err), w₂, hserves _, .inl ⟨err, rfl, ?_⟩⟩
    rw [hwrite]
    rfl
  · cases hpair : isPair frame with
    | true =>
        refine ⟨x (.ok ()), (answer w₂ .shutdown).2, hserves _,
          .inr (.inl ⟨rfl, hpair, (answer w₂ .shutdown).1, ?_⟩)⟩
        rw [hwrite]
        simp only [Prog.andThen, hcloses, hpair, Exchange.log, List.append_assoc]
        rfl
    | false =>
        refine ⟨x (.ok ()), w₂, hserves _, .inr (.inr ⟨rfl, hpair, ?_⟩)⟩
        rw [hwrite]
        simp only [Prog.andThen, hcloses, hpair, Exchange.log]
        rfl

end Serving

/-! ## The protocol loop -/

/-- The bytes of a peer in the reads that they arrive in. -/
structure PeerStream where
  reads : List Bytes
  ending : StreamEnd
  nonempty : ∀ r ∈ reads, r ≠ []
  small : ∀ r ∈ reads, r.length ≤ readChunk

namespace PeerStream

/-- The reads before the first one. -/
def inbound (stream : PeerStream) : Inbound :=
  ⟨stream.reads, stream.ending⟩

/-- The envelopes that are framed from the stream. -/
def envelopes (stream : PeerStream) : List Envelope :=
  (envelopeFramer.split stream.reads.flatten).1

end PeerStream

/-- The events of a run other than its reads. -/
def withoutReads (events : List TaskEvent) : List TaskEvent :=
  events.filter fun e => !e.op.isRecv

@[simp]
theorem withoutReads_append (front back : List TaskEvent) :
    withoutReads (front ++ back) = withoutReads front ++ withoutReads back :=
  List.filter_append front back

theorem withoutReads_cons (e : TaskEvent) (events : List TaskEvent) :
    withoutReads (e :: events) =
      if e.op.isRecv then withoutReads events else e :: withoutReads events := by
  cases h : e.op.isRecv <;> simp [withoutReads, h]

theorem withoutReads_of_onlyReads {events : List TaskEvent} (h : OnlyReads events) :
    withoutReads events = [] := by
  rw [withoutReads, List.filter_eq_nil_iff]
  intro e he
  simp [h e he]

theorem withoutReads_log {x : Exchange} {peerSpki : SpkiHash} (h : x.Dispatches peerSpki) :
    withoutReads x.log = x.log := by
  rw [withoutReads, List.filter_eq_self]
  intro e he
  rcases List.mem_append.mp he with hlocal | hsend
  · simp [Op.not_isRecv_of_isLocal (Exchange.events_local h e hlocal)]
  · obtain rfl := List.mem_singleton.mp hsend
    rfl

@[simp]
theorem withoutReads_errorAndClose (requestNonce : UInt64) (code : ProtocolError)
    (written closed : Except IoError Unit) :
    withoutReads (errorAndClose requestNonce code written closed) =
      errorAndClose requestNonce code written closed :=
  rfl

section Loop

variable (answer : W → (o : Op) → Ans o × W) (peerSpki : SpkiHash) {m : ℕ}

/-- What a round does with the result of its read. -/
private def afterRead (s : LoopState) :
    Except RunError (Option Envelope × Bytes) → Task (LoopState ⊕ Except RunError Unit)
  | .error e => return .inr (.error e)
  | .ok (none, _) => return .inr (.ok ())
  | .ok (some envelope, buf) => serveEnvelope peerSpki { s with buf } envelope

private theorem protocolRound_eq (s : LoopState) :
    protocolRound m peerSpki s = readEnvelope m s.buf >>= afterRead peerSpki s := by
  unfold protocolRound
  congr 1

/-- A round on remaining bytes that start with no whole frame stops the loop, or
never returns. -/
private theorem exec_protocolRound_idle (w : W) {s : LoopState} {reads : List Bytes}
    (ending : StreamEnd) (hne : ∀ r ∈ reads, r ≠ []) (hm : reads.length < m)
    (h : ∀ e rest, envelopeFramer.next (s.buf ++ reads.flatten) ≠ .frame e rest) :
    let out := exec (withInbound (answering answer)) (protocolRound m peerSpki s)
      (⟨reads, ending⟩, w)
    OnlyReads out.events ∧ (out.value = none ∨ ∃ result, out.value = some (.inr result)) := by
  intro out
  cases hnext : envelopeFramer.next (s.buf ++ reads.flatten) with
  | frame e rest => exact absurd hnext (h e rest)
  | bad e =>
      obtain ⟨events, inb, honly, hexec⟩ :=
        exec_reader_bad readEnvelopeRound_reads (answering answer) w ending hne hm hnext
      have hout : out = ⟨events, some (.inr (.error (.malformedFraming e))), (inb, w)⟩ := by
        simp only [out, protocolRound_eq, readEnvelope]
        rw [Prog.exec_bind, hexec]
        simp [Prog.andThen, afterRead]
      rw [hout]
      exact ⟨honly, .inr ⟨_, rfl⟩⟩
  | more =>
      obtain ⟨events, inb, honly, hexec⟩ :=
        exec_reader_more readEnvelopeRound_reads (answering answer) w ending hne hm hnext
      have hout : out = Prog.andThen
          (exec (withInbound (answering answer)) (readEnvelope m s.buf) (⟨reads, ending⟩, w))
          (fun result w =>
            exec (withInbound (answering answer)) (afterRead peerSpki s result) w) := by
        simp only [out, protocolRound_eq]
        rw [Prog.exec_bind]
      rw [hout, readEnvelope, hexec]
      rcases endOfStream_cases ending (s.buf ++ reads.flatten) with hend | ⟨e, hend⟩ | ⟨rest, hend⟩
      · rw [hend]
        exact ⟨honly, .inl rfl⟩
      · rw [hend]
        exact ⟨by simpa [Prog.andThen, afterRead] using honly, .inr ⟨_, rfl⟩⟩
      · rw [hend]
        exact ⟨by simpa [Prog.andThen, afterRead] using honly, .inr ⟨_, rfl⟩⟩

/-- A round on remaining bytes that start with a frame serves it. -/
private theorem exec_protocolRound_frame (w : W) {s : LoopState} {reads : List Bytes}
    (ending : StreamEnd) (hne : ∀ r ∈ reads, r ≠ []) (hm : reads.length < m)
    {envelope : Envelope} {rest : Bytes}
    (h : envelopeFramer.next (s.buf ++ reads.flatten) = .frame envelope rest) :
    ∃ events buf' reads', OnlyReads events ∧ buf' ++ reads'.flatten = rest ∧ reads' <:+ reads ∧
      exec (withInbound (answering answer)) (protocolRound m peerSpki s) (⟨reads, ending⟩, w) =
        let served := exec (withInbound (answering answer))
          (serveEnvelope peerSpki { s with buf := buf' } envelope) (⟨reads', ending⟩, w)
        ⟨events ++ served.events, served.value, served.world⟩ := by
  obtain ⟨events, buf', reads', honly, hexec, hrest, hsuffix⟩ :=
    exec_reader_frame readEnvelopeRound_reads (answering answer) w ending hne hm h
  refine ⟨events, buf', reads', honly, hrest, hsuffix, ?_⟩
  rw [protocolRound_eq, readEnvelope, Prog.exec_bind, hexec]
  rfl

/-- The counters stay apart: one more message fits below the next nonce. -/
theorem sent_lt {sent lastSeen nonce : UInt64} (hsent : sent ≤ lastSeen)
    (hfresh : lastSeen < nonce) : sent.toNat + 1 < 2 ^ 64 ∧ sent + 1 ≤ nonce := by
  rw [UInt64.le_iff_toNat_le] at hsent ⊢
  rw [UInt64.lt_iff_toNat_lt] at hfresh
  have hlt := nonce.toNat_lt
  have hone : (1 : UInt64).toNat = 1 := rfl
  refine ⟨by omega, ?_⟩
  rw [UInt64.toNat_add, hone]
  omega

/-- The log of a run of the loop is related to the envelopes of the remaining
bytes by `Session`. -/
theorem exec_loop_session {envs : List Envelope} (w : W) (s : LoopState) (reads : List Bytes)
    (ending : StreamEnd) (n : ℕ)
    (hsplit : (envelopeFramer.split (s.buf ++ reads.flatten)).1 = envs)
    (hne : ∀ r ∈ reads, r ≠ []) (hm : reads.length < m) (hn : envs.length < n)
    (hsent : s.nonces.send.next ≤ s.nonces.recv.lastSeen) :
    ∃ xs tail,
      Session peerSpki s.nonces.recv.lastSeen s.nonces.send.next envs xs tail ∧
      withoutReads (exec (withInbound (answering answer)) (loop (protocolRound m peerSpki) n s)
        (⟨reads, ending⟩, w)).events = xs.flatMap Exchange.log ++ tail := by
  induction envs generalizing s reads w n with
  | nil =>
      obtain ⟨n, rfl⟩ : ∃ k, n = k + 1 := ⟨n - 1, by simp at hn; omega⟩
      have hidle : ∀ e rest, envelopeFramer.next (s.buf ++ reads.flatten) ≠ .frame e rest := by
        intro e rest hframe
        simp [envelopeFramer.split_frame hframe] at hsplit
      obtain ⟨honly, hnone | ⟨result, hresult⟩⟩ :=
        exec_protocolRound_idle answer peerSpki w ending hne hm hidle
      · refine ⟨[], [], .finished _ _, ?_⟩
        rw [Prog.exec_loop_none n hnone]
        exact withoutReads_of_onlyReads honly
      · refine ⟨[], [], .finished _ _, ?_⟩
        rw [Prog.exec_loop_inr n hresult]
        exact withoutReads_of_onlyReads honly
  | cons e es ih =>
      obtain ⟨n, rfl⟩ : ∃ k, n = k + 1 := ⟨n - 1, by simp at hn; omega⟩
      obtain ⟨rest, hframe, hrest⟩ := envelopeFramer.split_cons hsplit
      obtain ⟨reading, buf', reads', honly, hbytes, hsuffix, hround⟩ :=
        exec_protocolRound_frame answer peerSpki w ending hne hm hframe
      have hreads : withoutReads reading = [] := withoutReads_of_onlyReads honly
      rcases UInt64.lt_or_le s.nonces.recv.lastSeen e.nonce with hfresh | hreplay
      swap
      · obtain ⟨written, closed, w', hserve⟩ := exec_serveEnvelope_replay answer
          ⟨reads', ending⟩ w peerSpki { s with buf := buf' } hreplay
        refine ⟨[], _, .replayed _ es hreplay written closed, ?_⟩
        rw [Prog.exec_loop_inr n (by rw [hround, hserve]), hround, hserve]
        simp [hreads]
      cases hdecode : decodeClientFrame e.payload with
      | error err =>
          obtain ⟨written, closed, w', hserve⟩ := exec_serveEnvelope_undecodable answer
            ⟨reads', ending⟩ w peerSpki { s with buf := buf' } hfresh hdecode
          refine ⟨[], _, .undecodable _ es hfresh hdecode written closed, ?_⟩
          rw [Prog.exec_loop_inr n (by rw [hround, hserve]), hround, hserve]
          simp [hreads]
      | ok frame =>
          obtain ⟨hcount, hsent'⟩ := sent_lt hsent hfresh
          obtain ⟨x, w', hserves, ⟨err, hwritten, hserve⟩ | ⟨hwritten, hpair, result, hserve⟩ |
              ⟨hwritten, hpair, hserve⟩⟩ := exec_serveEnvelope answer ⟨reads', ending⟩ w peerSpki
            { s with buf := buf' } hfresh hdecode hcount
          · refine ⟨[x], [], .writeFailed es hserves hwritten, ?_⟩
            rw [Prog.exec_loop_inr n (by rw [hround, hserve]), hround, hserve]
            simp [hreads, withoutReads_log hserves.dispatches]
          · refine ⟨[x], _, .closed es hserves hwritten hpair result, ?_⟩
            rw [Prog.exec_loop_inr n (by rw [hround, hserve]), hround, hserve]
            simp [hreads, withoutReads_log hserves.dispatches]
            rfl
          · have hne' : ∀ r ∈ reads', r ≠ [] := fun r hr => hne r (hsuffix.subset hr)
            have hm' : reads'.length < m := Nat.lt_of_le_of_lt hsuffix.length_le hm
            obtain ⟨xs, tail, hsession, hlog⟩ := ih w' ⟨⟨⟨x.sendNonce⟩, ⟨x.nonce⟩⟩, buf'⟩ reads' n
              (by rw [← hrest, ← hbytes]) hne' hm' (by simpa using hn)
              (by
                rw [hserves.sendNonce_eq, hserves.nonce_eq]
                exact hsent')
            refine ⟨x :: xs, tail, .next hserves hwritten hpair hsession, ?_⟩
            rw [Prog.exec_loop_inl n (by rw [hround, hserve]), hround, hserve]
            simp only [withoutReads_append, hreads, withoutReads_log hserves.dispatches, hlog]
            simp

/-- The log of the protocol loop on the stream of a peer is related to the
envelopes of the stream by `Session`. -/
theorem exec_protocolLoop (stream : PeerStream) (w : W) (rounds reads : ℕ) :
    ∃ xs tail,
      Session peerSpki 0 0 stream.envelopes xs tail ∧
      withoutReads (exec (withInbound (answering answer))
        (protocolLoop (stream.envelopes.length + 1 + rounds) (stream.reads.length + 1 + reads)
          peerSpki) (stream.inbound, w)).events = xs.flatMap Exchange.log ++ tail :=
  exec_loop_session answer peerSpki w ⟨NonceCounter.new, []⟩ stream.reads stream.ending _ rfl
    stream.nonempty (by omega) (by omega) (UInt64.le_refl _)

end Loop

/-! ## One request -/

/-- A request to lock the PC. -/
def lockRequest : Envelope :=
  ⟨protocolVersion, 1, ClientFrame.format.encode .lock⟩

/-- A phone that sends this request and closes. -/
def lockOnce : PeerStream where
  reads := [wireBytes lockRequest]
  ending := .eof
  nonempty := by decide
  small := by decide

end Daemon
end WakeMyPc
