import WakeMyPc.Daemon.Dispatch
import WakeMyPc.Daemon.Reader
import WakeMyPc.Foundations.History

/-!
# What a connection does, and after what

What a connection may do depends on what it has done: it changes the contents only
after both checks of its peer, and calls a handler only for the message it is serving,
right after it has read the clock and the contents.

Main results:

- Definition `ConnectionOp`: the operations that fit a history.
- Theorem `acceptConnection_safe`: all operations of a connection fit its history.
-/

namespace WakeMyPc
namespace Daemon

open Foundations
open Foundations.Prog (safe_bind safe_loop)
open Protocol
open Crypto (NonceCounter)

/-! ## The message that is being served -/

/-- The bytes that an operation read. -/
def receivedBytes : TaskEvent → Bytes
  | ⟨.recv, result⟩ =>
      match (result : Except IoError Bytes) with
      | .ok chunk => chunk
      | .error _ => []
  | _ => []

/-- The bytes that a history has read. -/
def received (h : List TaskEvent) : Bytes :=
  h.flatMap receivedBytes

/-- The operation writes to the peer. -/
def Op.isSend : Op → Bool
  | .send _ => true
  | _ => false

/-- The number of messages that a history has written. -/
def sentCount (h : List TaskEvent) : ℕ :=
  h.countP (·.op.isSend)

/-- The first message without an answer, among those read so far, is `frame`. -/
def Serving (h : List TaskEvent) (frame : ClientFrame) : Prop :=
  ∃ envelope, (envelopeFramer.split (received h)).1[sentCount h]? = some envelope ∧
    decodeClientFrame envelope.payload = .ok frame

/-- The buffer holds what was read after the messages that were answered. -/
def BufferAt (h : List TaskEvent) (buf : Bytes) : Prop :=
  ∃ served : List Envelope, served.length = sentCount h ∧
    ∀ t, (envelopeFramer.split (received h ++ t)).1 = served ++ (envelopeFramer.split (buf ++ t)).1

/-- All operations are local. -/
def OnlyLocal (events : List TaskEvent) : Prop :=
  ∀ e ∈ events, e.op.isLocal = true

theorem onlyLocal_nil : OnlyLocal [] := by
  simp [OnlyLocal]

theorem OnlyLocal.cons {e : TaskEvent} {events : List TaskEvent} (he : e.op.isLocal = true)
    (h : OnlyLocal events) : OnlyLocal (e :: events) :=
  List.forall_mem_cons.mpr ⟨he, h⟩

theorem received_local {h events : List TaskEvent} (hlocal : OnlyLocal events) :
    received (h ++ events) = received h := by
  have hnil : events.flatMap receivedBytes = [] := by
    rw [List.flatMap_eq_nil_iff]
    intro e he
    have helocal := hlocal e he
    obtain ⟨o, r⟩ := e
    cases o <;> first | rfl | simp [Op.isLocal] at helocal
  rw [received, List.flatMap_append, hnil, List.append_nil, received]

theorem sentCount_local {h events : List TaskEvent} (hlocal : OnlyLocal events) :
    sentCount (h ++ events) = sentCount h := by
  have hzero : events.countP (·.op.isSend) = 0 := by
    rw [List.countP_eq_zero]
    intro e he
    have helocal := hlocal e he
    obtain ⟨o, r⟩ := e
    cases o <;> simp_all [Op.isLocal, Op.isSend]
  rw [sentCount, List.countP_append, hzero, Nat.add_zero, sentCount]

theorem Serving.local {h events : List TaskEvent} {frame : ClientFrame} (hserving : Serving h frame)
    (hlocal : OnlyLocal events) : Serving (h ++ events) frame := by
  rw [Serving, received_local hlocal, sentCount_local hlocal]
  exact hserving

theorem BufferAt.local {h events : List TaskEvent} {buf : Bytes} (hbuf : BufferAt h buf)
    (hlocal : OnlyLocal events) : BufferAt (h ++ events) buf := by
  rw [BufferAt, received_local hlocal, sentCount_local hlocal]
  exact hbuf

/-- A piece that is read goes to the end of the buffer. -/
theorem BufferAt.recv {h : List TaskEvent} {buf : Bytes} (hbuf : BufferAt h buf) (chunk : Bytes) :
    BufferAt (h ++ [⟨.recv, Except.ok chunk⟩]) (buf ++ chunk) := by
  obtain ⟨served, hlen, hsplit⟩ := hbuf
  refine ⟨served, by simpa [sentCount, Op.isSend] using hlen, fun t => ?_⟩
  have hreceived : received (h ++ [⟨.recv, Except.ok chunk⟩]) = received h ++ chunk := by
    simp [received, receivedBytes]
  rw [hreceived, List.append_assoc, List.append_assoc]
  exact hsplit (chunk ++ t)

/-- The message at the front of the buffer is the one that is served next. -/
theorem BufferAt.front {h : List TaskEvent} {buf rest : Bytes} {envelope : Envelope}
    (hbuf : BufferAt h buf) (hnext : envelopeFramer.next buf = .frame envelope rest) :
    (envelopeFramer.split (received h)).1[sentCount h]? = some envelope := by
  obtain ⟨served, hlen, hsplit⟩ := hbuf
  have hall := hsplit []
  rw [List.append_nil, List.append_nil, envelopeFramer.split_frame hnext] at hall
  rw [hall, ← hlen, List.getElem?_append_right (Nat.le_refl _), Nat.sub_self]
  rfl

/-- An answer moves on to what follows the message. -/
theorem BufferAt.answered {h : List TaskEvent} {buf rest bytes : Bytes} {envelope : Envelope}
    (hbuf : BufferAt h buf) (hnext : envelopeFramer.next buf = .frame envelope rest)
    (result : Except IoError Unit) : BufferAt (h ++ [⟨.send bytes, result⟩]) rest := by
  obtain ⟨served, hlen, hsplit⟩ := hbuf
  refine ⟨served ++ [envelope], by simpa [sentCount, Op.isSend] using hlen, fun t => ?_⟩
  have hreceived : received (h ++ [⟨.send bytes, result⟩]) = received h := by
    simp [received, receivedBytes]
  rw [hreceived, hsplit t, envelopeFramer.split_frame (envelopeFramer.frame_append t hnext)]
  simp

/-! ## Operations that fit a history -/

section History

-- the hash of the public key of a certificate, by the X.509 parser and SHA-256
variable (extractSpkiHash : Bytes → Except Crypto.Error SpkiHash)

/-- Both checks of the peer have passed: the TLS handshake against the pins of the
contents `pinned`, and the one against the contents `checked`. -/
def AdmittedBy (peerSpki : SpkiHash) (pinned checked : KeystoreContents)
    (h : List TaskEvent) : Prop :=
  ∃ certs rest,
    h = [⟨.snapshot, pinned⟩, ⟨.handshake (.pinned (activePins pinned)), Except.ok ()⟩,
      ⟨.peerCertificates, certs⟩, ⟨.snapshot, checked⟩] ++ rest ∧
    leafSpki extractSpkiHash certs = .ok peerSpki ∧ checked.HasActive peerSpki

/-- Both checks of the peer have passed. -/
def Admitted (h : List TaskEvent) : Prop :=
  ∃ peerSpki pinned checked, AdmittedBy extractSpkiHash peerSpki pinned checked h

/-- The command is the one of the message that is being served, and the re-auth window
is open by the clock and the contents read for it. -/
def Commanded (h : List TaskEvent) (o : Op) : Prop :=
  ∃ (front : List TaskEvent) (nowMs : UInt64) (snap : KeystoreContents) (frame : ClientFrame),
    h = front ++ [⟨.clock, nowMs⟩, ⟨.snapshot, snap⟩] ∧
    evaluate nowMs snap.lastAuthenticatedAtUnixMs snap.reauthIntervalDays = .active ∧
    Serving h frame ∧ commandOf frame = some o

/-- The operations of a connection that fit its history. -/
def ConnectionOp (h : List TaskEvent) : Op → Prop
  | .write _ => Admitted extractSpkiHash h
  | .saveFile contents => Admitted extractSpkiHash h ∧ ∃ front, h = front ++ [⟨.snapshot, contents⟩]
  | .sleep => Admitted extractSpkiHash h ∧ Commanded h .sleep
  | .lock => Admitted extractSpkiHash h ∧ Commanded h .lock
  | .powerOff => Admitted extractSpkiHash h ∧ Commanded h .powerOff
  | .currentSessionState => Admitted extractSpkiHash h ∧ Serving h .stateProbe
  | .load => False
  | _ => True

variable {extractSpkiHash}

theorem Admitted.append {h : List TaskEvent} (hadmitted : Admitted extractSpkiHash h)
    (events : List TaskEvent) : Admitted extractSpkiHash (h ++ events) := by
  obtain ⟨peerSpki, pinned, checked, certs, rest, rfl, hleaf, hactive⟩ := hadmitted
  exact ⟨peerSpki, pinned, checked, certs, rest ++ events, by simp, hleaf, hactive⟩

/-! ## Saving -/

/-- A save stores the contents it has just read. -/
theorem save_safe {h : List TaskEvent} (hadmitted : Admitted extractSpkiHash h) :
    save.Safe (ConnectionOp extractSpkiHash) h fun h' _ =>
      ∃ events, h' = h ++ events ∧ OnlyLocal events := by
  refine ⟨trivial, fun snap => ⟨⟨hadmitted.append _, h, rfl⟩, fun result => ?_⟩⟩
  exact ⟨[⟨.snapshot, snap⟩, ⟨.saveFile snap, result⟩], by simp,
    .cons rfl (.cons rfl onlyLocal_nil)⟩

/-- Recording an address. -/
theorem recordAddress_safe {h : List TaskEvent} (hadmitted : Admitted extractSpkiHash h)
    (peerSpki : SpkiHash) (peerAddr : SocketAddr) :
    (recordAddress peerSpki peerAddr).Safe (ConnectionOp extractSpkiHash) h fun h' _ =>
      ∃ events, h' = h ++ events ∧ OnlyLocal events := by
  refine ⟨hadmitted, fun (changed : Bool) => ?_⟩
  cases changed with
  | false => exact ⟨_, rfl, .cons rfl onlyLocal_nil⟩
  | true =>
      change (save >>= fun _ => return () : Task Unit).Safe _ _ _
      refine (safe_bind _ _ _ _).mpr ((save_safe (hadmitted.append _)).mono ?_)
      rintro h' result ⟨events, rfl, hlocal⟩
      exact ⟨_, List.append_assoc _ _ _, .cons rfl hlocal⟩

/-! ## Dispatching -/

/-- A command, when the window is open. -/
private theorem stateChange_safe {h : List TaskEvent} (hadmitted : Admitted extractSpkiHash h)
    {nowMs : UInt64} {snap : KeystoreContents} {frame : ClientFrame} {o : Op}
    (hserving : Serving h frame) (hcommand : commandOf frame = some o)
    {handler : Task (Except OsHandlerError Unit)} (requestNonce : UInt64)
    (hhandler : ∀ h' : List TaskEvent, Admitted extractSpkiHash h' → Commanded h' o →
      handler.Safe (ConnectionOp extractSpkiHash) h' fun h'' _ =>
        ∃ events, h'' = h' ++ events ∧ OnlyLocal events) :
    (stateChange (evaluate nowMs snap.lastAuthenticatedAtUnixMs snap.reauthIntervalDays)
      requestNonce handler).Safe (ConnectionOp extractSpkiHash)
        (h ++ [⟨.clock, nowMs⟩, ⟨.snapshot, snap⟩]) fun h' _ =>
          ∃ events, h' = h ++ events ∧ OnlyLocal events := by
  have hread : OnlyLocal [⟨.clock, nowMs⟩, ⟨.snapshot, snap⟩] :=
    .cons rfl (.cons rfl onlyLocal_nil)
  cases hstate : evaluate nowMs snap.lastAuthenticatedAtUnixMs snap.reauthIntervalDays with
  | needsReauth => exact ⟨_, rfl, hread⟩
  | active =>
      refine (safe_bind _ _ _ _).mpr ((hhandler _ (hadmitted.append _)
        ⟨h, nowMs, snap, frame, rfl, hstate, hserving.local hread, hcommand⟩).mono ?_)
      rintro h' result ⟨events, rfl, hlocal⟩
      exact ⟨_ ++ events, List.append_assoc _ _ _, List.forall_mem_append.mpr ⟨hread, hlocal⟩⟩

/-- A dispatch of the message that is being served. -/
theorem dispatch_safe {h : List TaskEvent} (hadmitted : Admitted extractSpkiHash h)
    (peerSpki : SpkiHash) {frame : ClientFrame} (hserving : Serving h frame)
    (requestNonce : UInt64) :
    (dispatch peerSpki frame requestNonce).Safe (ConnectionOp extractSpkiHash) h fun h' _ =>
      ∃ events, h' = h ++ events ∧ OnlyLocal events := by
  refine ⟨trivial, fun nowMs => ⟨trivial, fun snap => ?_⟩⟩
  rw [List.append_assoc]
  change Prog.Safe _ _ (h ++ [⟨.clock, nowMs⟩, ⟨.snapshot, snap⟩]) _
  have hread : OnlyLocal [⟨.clock, nowMs⟩, ⟨.snapshot, snap⟩] :=
    .cons rfl (.cons rfl onlyLocal_nil)
  have hsave : ∀ (u : Update) (out : Ans (.write u)),
      save.Safe (ConnectionOp extractSpkiHash)
        (h ++ [⟨.clock, nowMs⟩, ⟨.snapshot, snap⟩] ++ [⟨.write u, out⟩]) fun h' _ =>
          ∃ events, h' = h ++ events ∧ OnlyLocal events := by
    intro u out
    refine (save_safe ((hadmitted.append _).append _)).mono ?_
    rintro h' result ⟨events, rfl, hlocal⟩
    exact ⟨⟨.clock, nowMs⟩ :: ⟨.snapshot, snap⟩ :: ⟨.write u, out⟩ :: events, by simp,
      .cons rfl (.cons rfl (.cons rfl hlocal))⟩
  cases frame with
  | pair phoneName pairingCode => exact ⟨_, rfl, hread⟩
  | sleep =>
      refine stateChange_safe hadmitted hserving rfl requestNonce fun h' hadmitted' hcommanded => ?_
      exact ⟨⟨hadmitted', hcommanded⟩, fun result => ⟨_, rfl, .cons rfl onlyLocal_nil⟩⟩
  | lock =>
      refine stateChange_safe hadmitted hserving rfl requestNonce fun h' hadmitted' hcommanded => ?_
      exact ⟨⟨hadmitted', hcommanded⟩, fun result => ⟨_, rfl, .cons rfl onlyLocal_nil⟩⟩
  | powerOff =>
      refine stateChange_safe hadmitted hserving rfl requestNonce fun h' hadmitted' hcommanded => ?_
      exact ⟨⟨hadmitted', hcommanded⟩, fun result => ⟨_, rfl, .cons rfl onlyLocal_nil⟩⟩
  | stateProbe =>
      refine ⟨⟨hadmitted.append _, hserving.local hread⟩, fun result => ?_⟩
      cases result <;>
        exact ⟨_, List.append_assoc _ _ _, .cons rfl (.cons rfl (.cons rfl onlyLocal_nil))⟩
  | reauthStatus => exact ⟨_, rfl, hread⟩
  | reauthConfig interval =>
      refine ⟨hadmitted.append _, fun out => ?_⟩
      refine (safe_bind save _ _ _).mpr ((hsave (.reauthInterval _) out).mono ?_)
      intro h' result hevents
      cases result <;> exact hevents
  | revokeAck =>
      refine ⟨hadmitted.append _, fun (removed : ℕ) => ?_⟩
      change (if removed > 0 then _ else _ : Task DaemonFrame).Safe _ _ _
      split
      · refine (safe_bind save _ _ _).mpr ((hsave (.removeRevoked peerSpki) removed).mono ?_)
        exact fun h' result hevents => hevents
      · exact ⟨_, List.append_assoc _ _ _, .cons rfl (.cons rfl (.cons rfl onlyLocal_nil))⟩

/-! ## The protocol loop -/

/-- A message that is written is the next operation. -/
theorem writeFrame_safe (nonces : NonceCounter) (frame : DaemonFrame) (h : List TaskEvent) :
    (writeFrame nonces frame).Safe (ConnectionOp extractSpkiHash) h fun h' result =>
      ∀ written, result.1 = .ok written →
        ∃ (bytes : Bytes) (sent : Except IoError Unit), h' = h ++ [⟨.send bytes, sent⟩] := by
  unfold writeFrame
  split
  · simp [Prog.Safe]
  · split
    · simp [Prog.Safe]
    · split
      · simp [Prog.Safe]
      · refine ⟨trivial, fun result => ?_⟩
        cases result <;> exact fun _ _ => ⟨_, _, rfl⟩

/-- An error outside the counted messages fits every history. -/
theorem sendErrorAndClose_safe (requestNonce : UInt64) (code : ProtocolError)
    (h : List TaskEvent) :
    (sendErrorAndClose requestNonce code).Safe (ConnectionOp extractSpkiHash) h
      fun _ _ => True := by
  unfold sendErrorAndClose
  split
  · trivial
  · split
    · trivial
    · exact ⟨trivial, fun _ => ⟨trivial, fun _ => trivial⟩⟩

/-- What the protocol loop keeps. -/
def LoopKeeps (extractSpkiHash : Bytes → Except Crypto.Error SpkiHash) (h : List TaskEvent)
    (buf : Bytes) : Prop :=
  Admitted extractSpkiHash h ∧ BufferAt h buf

/-- Reading an envelope leaves it at the front of the buffer. -/
theorem readEnvelope_safe (reads : ℕ) {h : List TaskEvent} {buf : Bytes}
    (hkeeps : LoopKeeps extractSpkiHash h buf) :
    (readEnvelope reads buf).Safe (ConnectionOp extractSpkiHash) h fun h' result =>
      ∀ envelope rest, result = .ok (some envelope, rest) →
        ∃ buf', LoopKeeps extractSpkiHash h' buf' ∧
          envelopeFramer.next buf' = .frame envelope rest := by
  refine safe_loop (LoopKeeps extractSpkiHash) ?_ reads hkeeps
  intro h buf hkeeps
  rw [readEnvelopeRound, parseBuffer_eq]
  cases hnext : envelopeFramer.next buf with
  | frame envelope rest =>
      intro envelope' rest' heq
      cases heq
      exact ⟨buf, hkeeps, hnext⟩
  | bad e =>
      intro envelope' rest' heq
      cases heq
  | more =>
      refine ⟨trivial, fun result => ?_⟩
      cases result with
      | error e =>
          intro envelope' rest' heq
          cases heq
      | ok chunk =>
          change (if _ then _ else _ : Task _).Safe _ _ _
          split_ifs
          · intro envelope' rest' heq
            cases heq
          · intro envelope' rest' heq
            cases heq
          · exact ⟨hkeeps.1.append _, hkeeps.2.recv chunk⟩

/-- Serving the envelope at the front of the buffer. -/
theorem serveEnvelope_safe (peerSpki : SpkiHash) (s : LoopState) {envelope : Envelope}
    {h : List TaskEvent} {buf : Bytes} (hkeeps : LoopKeeps extractSpkiHash h buf)
    (hnext : envelopeFramer.next buf = .frame envelope s.buf) :
    (serveEnvelope peerSpki s envelope).Safe (ConnectionOp extractSpkiHash) h fun h' result =>
      ∀ s', result = .inl s' → LoopKeeps extractSpkiHash h' s'.buf := by
  obtain ⟨hadmitted, hbuf⟩ := hkeeps
  have hrefused : ∀ code,
      (sendErrorAndClose envelope.nonce code >>= fun result => return .inr result :
        Task (LoopState ⊕ Except RunError Unit)).Safe (ConnectionOp extractSpkiHash) h
          fun h' result => ∀ s', result = .inl s' → LoopKeeps extractSpkiHash h' s'.buf := by
    intro code
    refine (safe_bind _ _ _ _).mpr ((sendErrorAndClose_safe envelope.nonce code h).mono ?_)
    intro h' result _ s' heq
    cases heq
  unfold serveEnvelope
  split
  · exact hrefused .nonceReplay
  · next recv _ =>
      cases hdecode : decodeClientFrame envelope.payload with
      | error e => exact hrefused e.toWireCode
      | ok frame =>
          have hserving : Serving h frame := ⟨envelope, hbuf.front hnext, hdecode⟩
          refine (safe_bind _ _ _ _).mpr
            ((dispatch_safe hadmitted peerSpki hserving envelope.nonce).mono ?_)
          rintro h₁ response ⟨events, rfl, hlocal⟩
          refine (safe_bind _ _ _ _).mpr ((writeFrame_safe _ response _).mono ?_)
          rintro h₂ ⟨written, nonces⟩ hwritten
          cases written with
          | error e =>
              intro s' heq
              cases heq
          | ok written =>
              obtain ⟨bytes, sent, rfl⟩ := hwritten written rfl
              change (if _ then _ else _ : Task _).Safe _ _ _
              split_ifs
              · intro s' heq
                cases heq
              · refine ⟨trivial, fun _ s' heq => ?_⟩
                cases heq
              · intro s' heq
                cases heq
                exact ⟨(hadmitted.append _).append _,
                  (hbuf.local hlocal).answered hnext sent⟩

/-- The protocol loop, once both checks have passed and before anything is read. -/
theorem protocolLoop_safe (rounds reads : ℕ) (peerSpki : SpkiHash) {h : List TaskEvent}
    (hkeeps : LoopKeeps extractSpkiHash h []) :
    (protocolLoop rounds reads peerSpki).Safe (ConnectionOp extractSpkiHash) h
      fun _ _ => True := by
  refine safe_loop (fun h s => LoopKeeps extractSpkiHash h s.buf) ?_ rounds hkeeps
  intro h s hkeeps
  refine (safe_bind _ _ _ _).mpr ((readEnvelope_safe reads hkeeps).mono ?_)
  intro h' result hread
  match result with
  | .error e => trivial
  | .ok (none, rest) => trivial
  | .ok (some envelope, rest) =>
      obtain ⟨buf', hkeeps', hnext⟩ := hread envelope rest rfl
      refine (serveEnvelope_safe peerSpki { s with buf := rest } hkeeps' hnext).mono ?_
      intro h'' result hserved
      cases result with
      | inl s' => exact hserved s' rfl
      | inr result => trivial

/-! ## The whole connection -/

/-- The task after the TLS handshake. -/
theorem run_safe (rounds reads : ℕ) (peerAddr : SocketAddr) (pinned : KeystoreContents) :
    (run extractSpkiHash rounds reads peerAddr).Safe (ConnectionOp extractSpkiHash)
      [⟨.snapshot, pinned⟩, ⟨.handshake (.pinned (activePins pinned)), Except.ok ()⟩]
      fun _ _ => True := by
  let h : List TaskEvent :=
    [⟨.snapshot, pinned⟩, ⟨.handshake (.pinned (activePins pinned)), Except.ok ()⟩]
  have hleaf : (peerSpkiFromTls extractSpkiHash).Safe (ConnectionOp extractSpkiHash) h
      fun h' result => ∃ certs, h' = h ++ [⟨.peerCertificates, certs⟩] ∧
        leafSpki extractSpkiHash certs = result :=
    ⟨trivial, fun certs => ⟨certs, rfl, rfl⟩⟩
  refine (safe_bind _ _ _ _).mpr (hleaf.mono ?_)
  rintro h₁ result ⟨certs, rfl, hleaf⟩
  cases result with
  | error e => trivial
  | ok peerSpki =>
      refine ⟨trivial, fun checked => ?_⟩
      change (if _ then _ else _ : Task _).Safe _ _ _
      split
      · next hactive =>
          have hadmitted : Admitted extractSpkiHash
              (h ++ [⟨.peerCertificates, certs⟩] ++ [⟨.snapshot, checked⟩]) :=
            ⟨peerSpki, pinned, checked, certs, [], rfl, hleaf,
              (checked.activePairing_isSome_iff peerSpki).mp hactive⟩
          refine (safe_bind _ _ _ _).mpr ((recordAddress_safe hadmitted peerSpki peerAddr).mono ?_)
          rintro h₂ _ ⟨events, rfl, hlocal⟩
          refine protocolLoop_safe rounds reads peerSpki ⟨hadmitted.append events, ?_⟩
          exact BufferAt.local ⟨[], rfl, fun t => rfl⟩ hlocal
      · exact sendErrorAndClose_safe 0 .revoked _

/-- All operations of a connection fit its history. -/
theorem acceptConnection_safe (rounds reads : ℕ) (peerAddr : SocketAddr) :
    (acceptConnection extractSpkiHash rounds reads peerAddr).Safe (ConnectionOp extractSpkiHash)
      [] fun _ _ => True := by
  refine ⟨trivial, fun pinned => ⟨trivial, fun result => ?_⟩⟩
  cases result with
  | error e => trivial
  | ok _ => exact run_safe rounds reads peerAddr pinned

end History

end Daemon
end WakeMyPc
