import WakeMyPc.Daemon.Outbound

/-!
# Framing errors

The reader returns a refused frame to the connection task as an error, and the task
returns it in turn.  The peer gets the answers to the envelopes before the refused
frame, and no word of the refusal.

Main results:

- Theorem `exec_run_session`: a connection of a peer that passes the check is a
  session.
- Theorem `Session.error_written`: an error that is written is the answer of a
  dispatch, or ends the session.
- Theorem `framing_error_unreported`: no framing error is reported to the peer.
-/

namespace WakeMyPc
namespace Daemon

open Foundations
open Foundations.Prog (exec)
open Protocol

/-! ## Errors that a session writes -/

/-- The code of an error with which a dispatch answers. -/
def isAnswerCode : ProtocolError → Bool
  | .notPaired => true
  | .requiresReauth => true
  | .internal => true
  | _ => false

theorem Answered.isAnswerCode {peerSpki : SpkiHash} {nonce : UInt64} {snap : KeystoreContents}
    {reauthState : ReauthState} {frame : ClientFrame} {rest : List TaskEvent}
    {response : DaemonFrame} (h : Answered peerSpki nonce snap reauthState frame rest response)
    {requestNonce : UInt64} {code : ProtocolError}
    (hresponse : response = .error requestNonce code) : isAnswerCode code = true := by
  cases h with
  | pair | blocked | probeFailed | configFailed =>
      cases hresponse
      rfl
  | sleep hstate result | lock hstate result | powerOff hstate result =>
      cases result <;> cases hresponse
      rfl
  | _ => cases hresponse

theorem Exchange.Dispatches.isAnswerCode {x : Exchange} {peerSpki : SpkiHash}
    (h : x.Dispatches peerSpki) {requestNonce : UInt64} {code : ProtocolError}
    (hresponse : x.response = .error requestNonce code) : isAnswerCode code = true := by
  obtain ⟨_, _, _, -, hanswered⟩ := dispatch_answered h
  exact hanswered.isAnswerCode hresponse

/-- The only write of an exchange is its answer. -/
theorem Exchange.Dispatches.send_eq {x : Exchange} {peerSpki : SpkiHash}
    (h : x.Dispatches peerSpki) {e : TaskEvent} (he : e ∈ x.log) {bytes : Bytes}
    (hop : e.op = .send bytes) : bytes = responseBytes x.sendNonce x.response := by
  rcases List.mem_append.mp he with hlocal | hanswer
  · have hcontra := Exchange.events_local h e hlocal
    simp [hop, Op.isLocal] at hcontra
  · obtain rfl := List.mem_singleton.mp hanswer
    exact (Op.send.inj hop).symm

/-- An event that is no write sends nothing. -/
theorem op_ne_send {e : TaskEvent} (h : writeOutcome e = none) (bytes : Bytes) :
    e.op ≠ .send bytes := by
  intro hop
  obtain ⟨op, result⟩ := e
  cases hop
  cases h

section Sessions

variable {peerSpki : SpkiHash} {lastSeen sent nonce requestNonce : UInt64} {es : List Envelope}
  {xs : List Exchange} {tail : List TaskEvent} {code : ProtocolError}

/-- The closing part of a session writes nothing but the error that it ends with. -/
theorem Session.error_in_tail (h : Session peerSpki lastSeen sent es xs tail) {e : TaskEvent}
    (he : e ∈ tail) (hop : e.op = .send (responseBytes nonce (.error requestNonce code))) :
    ∃ written closed, tail = errorAndClose requestNonce code written closed := by
  have hends : ∀ {refused : UInt64} {reason : ProtocolError} {written closed : Except IoError Unit},
      e ∈ errorAndClose refused reason written closed →
        ∃ written' closed', errorAndClose refused reason written closed =
          errorAndClose requestNonce code written' closed' := by
    intro refused reason written closed hmem
    rcases List.mem_cons.mp hmem with rfl | hclose
    · cases responseBytes_inj (Op.send.inj hop)
      exact ⟨written, closed, rfl⟩
    · obtain rfl := List.mem_singleton.mp hclose
      cases hop
  induction h with
  | finished lastSeen sent => simp at he
  | replayed sent es hreplay written closed => exact hends he
  | undecodable sent es hfresh hdecode written closed => exact hends he
  | writeFailed es hserves hwritten => simp at he
  | closed es hserves hwritten hpair result =>
      obtain rfl := List.mem_singleton.mp he
      cases hop
  | next hserves hwritten hpair hrest ih => exact ih he

/-- An error that a session writes is the answer of a dispatch, or ends the session;
events before the session that are no writes change nothing. -/
theorem Session.error_written (h : Session peerSpki lastSeen sent es xs tail)
    {front : List TaskEvent} (hfront : ∀ e ∈ front, writeOutcome e = none) {e : TaskEvent}
    (he : e ∈ front ++ (xs.flatMap Exchange.log ++ tail))
    (hop : e.op = .send (responseBytes nonce (.error requestNonce code))) :
    isAnswerCode code = true ∨
      ∃ written closed, tail = errorAndClose requestNonce code written closed := by
  rcases List.mem_append.mp he with hquiet | hsession
  · exact absurd hop (op_ne_send (hfront e hquiet) _)
  rcases List.mem_append.mp hsession with hanswer | htail
  · obtain ⟨x, hx, hlog⟩ := List.mem_flatMap.mp hanswer
    have hdispatches := h.dispatches x hx
    exact .inl (hdispatches.isAnswerCode (responseBytes_inj (hdispatches.send_eq hlog hop)).symm)
  · exact .inr (h.error_in_tail htail hop)

/-- A servable list is its own longest servable prefix. -/
theorem IsServable.servable_eq (h : IsServable lastSeen es) : servable lastSeen es = es := by
  have hprefix := servable_prefix lastSeen es
  have hlongest := (servable_longest lastSeen es).longest es (List.prefix_refl es) h
  exact hprefix.eq_of_length (Nat.le_antisymm hprefix.length_le hlongest)

/-- A session on envelopes that are all servable does not end with an error. -/
theorem Session.not_refused (h : Session peerSpki lastSeen sent es xs tail)
    (hes : IsServable lastSeen es) (written closed : Except IoError Unit) :
    tail ≠ errorAndClose requestNonce code written closed := by
  intro htail
  obtain ⟨-, hrefused, -⟩ := h.refuses_iff.mp ⟨_, _, _, _, htail⟩
  exact hrefused hes.servable_eq

end Sessions

/-! ## Connections of an admitted peer -/

section Connection

-- the hash of the public key of a certificate, by the X.509 parser and SHA-256
variable {W : Type} (extractSpkiHash : Bytes → Except Crypto.Error SpkiHash)
  (answer : W → (o : Op) → Ans o × W) (w : W) (stream : PeerStream) (rounds reads : ℕ)
  (peerAddr : SocketAddr)

/-- What a connection task does on the stream of a peer. -/
def connectionLog : List TaskEvent :=
  withoutReads (exec (withInbound (answering answer))
    (run extractSpkiHash (stream.envelopes.length + 1 + rounds) (stream.reads.length + 1 + reads)
      peerAddr) (stream.inbound, w)).events

/-- A connection of a peer that passes the check writes nothing before its session. -/
theorem exec_run_session {peerSpki : SpkiHash}
    (h : admittedPeer extractSpkiHash answer w = some peerSpki) :
    ∃ front xs tail, (∀ e ∈ front, writeOutcome e = none) ∧
      Session peerSpki 0 0 stream.envelopes xs tail ∧
      connectionLog extractSpkiHash answer w stream rounds reads peerAddr =
        front ++ (xs.flatMap Exchange.log ++ tail) := by
  obtain ⟨front, hfront, hrun⟩ := exec_run extractSpkiHash answer stream.inbound w
    (stream.envelopes.length + 1 + rounds) (stream.reads.length + 1 + reads) peerAddr
  simp only [h] at hrun
  obtain ⟨w', hevents⟩ := hrun
  obtain ⟨xs, tail, hsession, hlog⟩ := exec_protocolLoop answer peerSpki stream w' rounds reads
  refine ⟨withoutReads front, xs, tail, ?_, hsession, ?_⟩
  · exact fun e he => hfront e (List.mem_of_mem_filter he)
  · rw [connectionLog, hevents, withoutReads_append, hlog]

end Connection

/-! ## Frames that are refused -/

/-- The bytes of a stream after the envelopes that are framed from it. -/
def PeerStream.unframed (stream : PeerStream) : Bytes :=
  (envelopeFramer.split stream.reads.flatten).2

/-- The first bad frame of a stream is one that the parser refuses: the envelopes
before it are all served. -/
structure FramingFails (stream : PeerStream) (e : Protocol.Error) : Prop where
  good : IsServable 0 stream.envelopes
  refused : decodeEnvelope stream.unframed = .error e

/-- A framing error is reported: after the answers to the envelopes before it, the
last message is the only one with its code, and the connection is closed.  The bytes
from the refused frame on have no other effect. -/
def FramingErrorReported (peerSpki : SpkiHash) (good : List Envelope) (code : ProtocolError)
    (log : List TaskEvent) : Prop :=
  ∃ (front : List TaskEvent) (xs : List Exchange) (nonce requestNonce : UInt64)
      (written closed : Except IoError Unit),
    (∀ e ∈ front, writeOutcome e = none) ∧
    (∀ x ∈ xs, x.Dispatches peerSpki ∧ ∀ n, x.response ≠ .error n code) ∧
    xs.map Exchange.request = requests good ∧
    log = front ++ xs.flatMap Exchange.log ++
      [⟨.send (responseBytes nonce (.error requestNonce code)), written⟩, ⟨.shutdown, closed⟩]

/-- The code of a refused frame is not one of those that a dispatch answers with. -/
theorem FramingFails.not_answerCode {stream : PeerStream} {e : Protocol.Error}
    (h : FramingFails stream e) : isAnswerCode e.toWireCode = false := by
  obtain ⟨-, ⟨-, rfl⟩ | ⟨-, rfl⟩ | ⟨-, -, -, -, rfl⟩⟩ := decodeEnvelope_error_iff.mp h.refused <;>
    rfl

section Refused

variable {W : Type} (extractSpkiHash : Bytes → Except Crypto.Error SpkiHash)
  (answer : W → (o : Op) → Ans o × W) (w : W) (stream : PeerStream) (rounds reads : ℕ)
  (peerAddr : SocketAddr) {peerSpki : SpkiHash} {e : Protocol.Error}

/-- A connection writes no error with the code of a refused frame. -/
theorem framing_error_unwritten (hpeer : admittedPeer extractSpkiHash answer w = some peerSpki)
    (hfails : FramingFails stream e) (nonce requestNonce : UInt64) :
    ∀ event ∈ connectionLog extractSpkiHash answer w stream rounds reads peerAddr,
      event.op ≠ .send (responseBytes nonce (.error requestNonce e.toWireCode)) := by
  intro event hevent hop
  obtain ⟨front, xs, tail, hfront, hsession, hlog⟩ :=
    exec_run_session extractSpkiHash answer w stream rounds reads peerAddr hpeer
  rw [hlog] at hevent
  rcases hsession.error_written hfront hevent hop with hcode | ⟨written, closed, htail⟩
  · simp [hfails.not_answerCode] at hcode
  · exact hsession.not_refused hfails.good written closed htail

/-- A report is a write of its error. -/
theorem not_reported_of_unwritten {good : List Envelope} {code : ProtocolError}
    {log : List TaskEvent}
    (h : ∀ nonce requestNonce, ∀ event ∈ log,
      event.op ≠ .send (responseBytes nonce (.error requestNonce code))) :
    ¬ FramingErrorReported peerSpki good code log := by
  rintro ⟨front, xs, nonce, requestNonce, written, closed, -, -, -, rfl⟩
  exact h nonce requestNonce ⟨.send (responseBytes nonce (.error requestNonce code)), written⟩
    (by simp) rfl

/-- No framing error is reported, whatever comes before the refused frame and after it. -/
theorem framing_error_unreported
    (hpeer : admittedPeer extractSpkiHash answer w = some peerSpki)
    (hfails : FramingFails stream e) :
    ¬ FramingErrorReported peerSpki stream.envelopes e.toWireCode
      (connectionLog extractSpkiHash answer w stream rounds reads peerAddr) :=
  not_reported_of_unwritten
    (framing_error_unwritten extractSpkiHash answer w stream rounds reads peerAddr hpeer hfails)

end Refused

/-! ## A bad frame after a request -/

/-- A phone whose request is followed by an envelope of another version. -/
def lockThenVersionTwo : PeerStream where
  reads := [wireBytes lockRequest ++ wireBytes { lockRequest with version := 2, nonce := 2 }]
  ending := .eof
  nonempty := by decide
  small := by decide

/-- A phone whose request is followed by a length that is too small. -/
def lockThenShort : PeerStream where
  reads := [wireBytes lockRequest, [0, 0, 0, 9]]
  ending := .eof
  nonempty := by decide
  small := by decide

private theorem framingFails_after_lock {stream : PeerStream} (bad : Bytes) {e : Protocol.Error}
    (hbytes : stream.reads.flatten = [lockRequest].flatMap wireBytes ++ bad)
    (h : decodeEnvelope bad = .error e) : FramingFails stream e := by
  have hbad : envelopeFramer.next bad = .bad e := by
    rw [envelopeFramer_next, h]
    rfl
  have hsplit : envelopeFramer.split stream.reads.flatten = ([lockRequest], bad) := by
    rw [hbytes, split_wireBytes_append (by decide), envelopeFramer.split_bad hbad]
    rfl
  refine ⟨?_, ?_⟩
  · rw [PeerStream.envelopes, hsplit]
    exact isServable_singleton (by decide) (decodePayload_encode ClientFrame.format .lock)
  · rw [PeerStream.unframed, hsplit, h]

/-- A phone that goes on with another version after its first request is not told. -/
theorem version_two_unreported :
    ¬ FramingErrorReported phoneKey lockThenVersionTwo.envelopes .versionMismatch
      (connectionLog (fun _ => .ok phoneKey) (fun w o => (succeeding pairedContents o, w)) ()
        lockThenVersionTwo 0 0 phoneAddress) := by
  have hfails : FramingFails lockThenVersionTwo (.versionMismatch 2 protocolVersion) :=
    framingFails_after_lock (wireBytes { lockRequest with version := 2, nonce := 2 })
      (by decide) (by decide)
  have hunwritten := framing_error_unwritten (fun _ => .ok phoneKey)
    (fun w o => (succeeding pairedContents o, w)) () lockThenVersionTwo 0 0 phoneAddress
    phone_admitted hfails
  exact not_reported_of_unwritten hunwritten

/-- Nor is a phone that goes on with a length that is too small. -/
theorem short_length_unreported :
    ¬ FramingErrorReported phoneKey lockThenShort.envelopes .malformedFrame
      (connectionLog (fun _ => .ok phoneKey) (fun w o => (succeeding pairedContents o, w)) ()
        lockThenShort 0 0 phoneAddress) := by
  have hfails : FramingFails lockThenShort (.undersizedFrame 9 minFrameLen) :=
    framingFails_after_lock [0, 0, 0, 9] (by decide) (by decide)
  exact framing_error_unreported _ _ () lockThenShort 0 0 phoneAddress phone_admitted hfails

end Daemon
end WakeMyPc
