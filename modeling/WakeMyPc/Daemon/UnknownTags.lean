import WakeMyPc.Daemon.FramingErrors

/-!
# Unknown tags

A payload starts with the index of its message.  The parser has one error for an
index that no message has and for other refusals of the deserialiser, and that error
travels as `MalformedFrame`.

Main results:

- Theorem `decodeClientFrame_of_not_knownTag`: a payload without a known tag is
  refused as one that does not deserialise.
- Theorem `Session.after`: a session goes on after the envelopes that it has served.
- Theorem `tags_handled_iff`: a fresh envelope is handled as its tag requires exactly
  when the tag is known.
-/

namespace WakeMyPc

/-! ## Tags of payloads -/

namespace Protocol

open Foundations

/-- The number of client messages. -/
def clientFrameTags : ℕ := 8

/-- The payload starts with the tag of a client message. -/
def KnownTag (payload : Bytes) : Prop :=
  ∃ tag body, decodeTag payload = .ok (tag, body) ∧ tag < clientFrameTags

/-- The payload starts with a tag that no client message has. -/
def UnknownTag (payload : Bytes) : Prop :=
  ∃ tag body, decodeTag payload = .ok (tag, body) ∧ clientFrameTags ≤ tag

/-- The body of the payload does not deserialise, or bytes follow it. -/
def BadBody (payload : Bytes) : Prop :=
  (∃ cause, decodeClientFrame payload = .error (.decoding cause)) ∨
    ∃ trailing, decodeClientFrame payload = .error (.trailingBytes trailing)

theorem UnknownTag.not_knownTag {payload : Bytes} (h : UnknownTag payload) :
    ¬ KnownTag payload := by
  rintro ⟨tag, body, htag, hlt⟩
  obtain ⟨tag', body', htag', hle⟩ := h
  rw [htag] at htag'
  cases htag'
  omega

/-- A message is one of the first ones, or its tag is refused. -/
private theorem decode_of_tag {payload body : Bytes} {tag : ℕ}
    (h : decodeTag payload = .ok (tag, body)) (hle : clientFrameTags ≤ tag) :
    ClientFrame.format.decode payload = .error .serdeDeCustom := by
  obtain ⟨k, rfl⟩ := Nat.exists_eq_add_of_le' hle
  simp only [ClientFrame.format, Decoder.bind_apply, h]
  rfl

/-- A payload without a known tag is refused as one that does not deserialise. -/
theorem decodeClientFrame_of_not_knownTag {payload : Bytes} (h : ¬ KnownTag payload) :
    ∃ cause, decodeClientFrame payload = .error (.decoding cause) := by
  have hrefused : ∃ cause, ClientFrame.format.decode payload = .error cause := by
    cases htag : decodeTag payload with
    | error cause => exact ⟨cause, by simp only [ClientFrame.format, Decoder.bind_apply, htag]⟩
    | ok result =>
        obtain ⟨tag, body⟩ := result
        by_cases hlt : tag < clientFrameTags
        · exact absurd ⟨tag, body, htag, hlt⟩ h
        · exact ⟨_, decode_of_tag htag (Nat.not_lt.mp hlt)⟩
  obtain ⟨cause, hdecode⟩ := hrefused
  exact ⟨cause, by simp only [decodeClientFrame, decodePayload, Postcard.takeFromBytes, hdecode]⟩

/-- A payload that is refused has a bad body. -/
theorem badBody_of_error {payload : Bytes} {err : Error}
    (h : decodeClientFrame payload = .error err) : BadBody payload := by
  have hcases := h
  simp only [decodeClientFrame, decodePayload] at hcases
  split at hcases
  · next cause _ =>
      cases hcases
      exact .inl ⟨cause, h⟩
  · split at hcases
    · cases hcases
      exact .inr ⟨_, h⟩
    · cases hcases

end Protocol

namespace Daemon

open Foundations
open Protocol

/-! ## The envelope after the served ones -/

/-- After nonces up to `lastSeen`, some envelopes are served and leave the connection
open, and the envelope after them is fresh. -/
structure ServedBefore (lastSeen : UInt64) (good : List Envelope) (e : Envelope) : Prop where
  increasing : (lastSeen :: (good ++ [e]).map (·.nonce)).Pairwise (· < ·)
  decodes : ∀ g ∈ good, ∃ frame, decodeClientFrame g.payload = .ok frame
  staysOpen : ∀ g ∈ good, offersPair g = false

theorem ServedBefore.tail {lastSeen : UInt64} {g e : Envelope} {good : List Envelope}
    (h : ServedBefore lastSeen (g :: good) e) : ServedBefore g.nonce good e where
  increasing := (List.pairwise_cons.mp h.increasing).2
  decodes g' hg' := h.decodes g' (List.mem_cons_of_mem g hg')
  staysOpen g' hg' := h.staysOpen g' (List.mem_cons_of_mem g hg')

theorem ServedBefore.first_fresh {lastSeen : UInt64} {g e : Envelope} {good : List Envelope}
    (h : ServedBefore lastSeen (g :: good) e) : lastSeen < g.nonce :=
  (List.pairwise_cons.mp h.increasing).1 g.nonce (by simp)

/-- The error that ends a session is about one envelope. -/
theorem errorAndClose_inj {requestNonce requestNonce' : UInt64} {code code' : ProtocolError}
    {written written' closed closed' : Except IoError Unit}
    (h : errorAndClose requestNonce code written closed =
      errorAndClose requestNonce' code' written' closed') :
    requestNonce = requestNonce' ∧ code = code' := by
  have hop := congrArg (fun event : TaskEvent => event.op) (List.cons.inj h).1
  cases responseBytes_inj (Op.send.inj hop)
  exact ⟨rfl, rfl⟩

section Sessions

variable {peerSpki : SpkiHash} {lastSeen sent requestNonce : UInt64} {good later es : List Envelope}
  {e : Envelope} {xs : List Exchange} {tail : List TaskEvent}

/-- A session goes on with a fresh envelope after those that it has served. -/
theorem Session.after (h : Session peerSpki lastSeen sent (good ++ e :: later) xs tail)
    (hgood : ServedBefore lastSeen good e)
    (hwritten : ∀ i < good.length, ∀ x, xs[i]? = some x → x.written = .ok ()) :
    ∃ served rest lastSeen' sent', xs = served ++ rest ∧ lastSeen' < e.nonce ∧
      Session peerSpki lastSeen' sent' (e :: later) rest tail := by
  induction good generalizing lastSeen sent xs with
  | nil =>
      have hfresh : lastSeen < e.nonce :=
        (List.pairwise_cons.mp hgood.increasing).1 e.nonce (by simp)
      exact ⟨[], xs, lastSeen, sent, rfl, hfresh, h⟩
  | cons g good ih =>
      obtain ⟨frame, hdecode⟩ := hgood.decodes g List.mem_cons_self
      have hopen := hgood.staysOpen g List.mem_cons_self
      have hfirst (x : Exchange) (hx : xs[0]? = some x) : x.written = .ok () :=
        hwritten 0 (by simp) x hx
      cases h with
      | replayed sent es hreplay written closed =>
          exact absurd hgood.first_fresh (UInt64.not_lt.mpr hreplay)
      | undecodable sent es hfresh herror written closed => simp [hdecode] at herror
      | writeFailed es hserves herror => simp [hfirst _ rfl] at herror
      | closed es hserves hok hpair result =>
          simp [offersPair, hserves.decodes, hpair] at hopen
      | @next _ _ _ _ x xs _ hserves hok hpair hrest =>
          have hnext : ServedBefore x.nonce good e := hserves.nonce_eq ▸ hgood.tail
          obtain ⟨served, rest, lastSeen', sent', rfl, hfresh, hafter⟩ := ih hrest hnext
            fun i hi y hy => hwritten (i + 1) (Nat.succ_lt_succ hi) y (by simpa using hy)
          exact ⟨x :: served, rest, lastSeen', sent', rfl, hfresh, hafter⟩

/-- The error that ends a session with a code other than `NonceReplay` is about a
fresh envelope. -/
theorem Session.ends_fresh (h : Session peerSpki lastSeen sent es xs tail) {code : ProtocolError}
    (hcode : code ≠ .nonceReplay) {written closed : Except IoError Unit}
    (htail : tail = errorAndClose requestNonce code written closed) : lastSeen < requestNonce := by
  induction h with
  | finished lastSeen sent => simp [errorAndClose] at htail
  | replayed sent es hreplay written' closed' =>
      obtain ⟨-, rfl⟩ := errorAndClose_inj htail
      exact absurd rfl hcode
  | undecodable sent es hfresh hdecode written' closed' =>
      obtain ⟨rfl, -⟩ := errorAndClose_inj htail
      exact hfresh
  | writeFailed es hserves hwritten => simp [errorAndClose] at htail
  | closed es hserves hwritten hpair result => simp [errorAndClose] at htail
  | next hserves hwritten hpair hrest ih =>
      have hlater := ih htail
      rw [hserves.nonce_eq] at hlater
      exact UInt64.lt_trans hserves.fresh hlater

/-- A session that starts with a fresh envelope that decodes does not end with an
error about this envelope. -/
theorem Session.not_about_served (h : Session peerSpki lastSeen sent (e :: es) xs tail)
    (hfresh : lastSeen < e.nonce) {frame : ClientFrame}
    (hdecode : decodeClientFrame e.payload = .ok frame) {code : ProtocolError}
    (hcode : code ≠ .nonceReplay) {written closed : Except IoError Unit} :
    tail ≠ errorAndClose e.nonce code written closed := by
  intro htail
  cases h with
  | replayed sent es hreplay written' closed' => exact absurd hfresh (UInt64.not_lt.mpr hreplay)
  | undecodable sent es hfresh herror written' closed' => simp [hdecode] at herror
  | writeFailed es hserves hwritten => simp [errorAndClose] at htail
  | closed es hserves hwritten hpair result => simp [errorAndClose] at htail
  | next hserves hwritten hpair hrest =>
      have hlater := hrest.ends_fresh hcode htail
      rw [hserves.nonce_eq] at hlater
      exact absurd hlater (UInt64.lt_irrefl _)

/-- A fresh envelope that does not deserialise ends the session as malformed. -/
theorem Session.closed_malformed (h : Session peerSpki lastSeen sent (e :: es) xs tail)
    (hfresh : lastSeen < e.nonce) {cause : Postcard.Error}
    (hdecode : decodeClientFrame e.payload = .error (.decoding cause)) :
    xs = [] ∧ ∃ written closed, tail = errorAndClose e.nonce .malformedFrame written closed := by
  cases h with
  | replayed sent es hreplay written closed => exact absurd hfresh (UInt64.not_lt.mpr hreplay)
  | undecodable sent es hfresh herror written closed =>
      rw [hdecode] at herror
      cases herror
      exact ⟨rfl, written, closed, rfl⟩
  | writeFailed es hserves hwritten => simp [hserves.decodes] at hdecode
  | closed es hserves hwritten hpair result => simp [hserves.decodes] at hdecode
  | next hserves hwritten hpair hrest => simp [hserves.decodes] at hdecode

end Sessions

/-! ## How tags are handled -/

/-- An envelope is answered `Unsupported`, and those after it are served as usual. -/
def AnsweredUnsupported (peerSpki : SpkiHash) (e : Envelope) (later : List Envelope)
    (log : List TaskEvent) : Prop :=
  ∃ (front back : List TaskEvent) (nonce : UInt64) (written : Except IoError Unit),
    log = front ++ ⟨.send (responseBytes nonce (.error e.nonce .unsupported)), written⟩ :: back ∧
    (written = .ok () → ∃ xs tail, Session peerSpki e.nonce nonce later xs tail ∧
      back = xs.flatMap Exchange.log ++ tail)

/-- A connection ends with the code `MalformedFrame` for an envelope. -/
def ClosedAsMalformed (e : Envelope) (log : List TaskEvent) : Prop :=
  ∃ front written closed, log = front ++ errorAndClose e.nonce .malformedFrame written closed

/-- An unknown tag is answered `Unsupported` and the session goes on; the code
`MalformedFrame` and a close are for a known tag with a bad body. -/
structure TagsHandled (peerSpki : SpkiHash) (e : Envelope) (later : List Envelope)
    (log : List TaskEvent) : Prop where
  unsupported : UnknownTag e.payload → AnsweredUnsupported peerSpki e later log
  malformed : ClosedAsMalformed e log → KnownTag e.payload ∧ BadBody e.payload

/-- A connection gets to a fresh envelope of its stream: the envelopes before it are
answered and leave the connection open. -/
structure Reaches (writes : ℕ → Except IoError Unit) (stream : PeerStream)
    (good : List Envelope) (e : Envelope) (later : List Envelope) : Prop where
  envelopes_eq : stream.envelopes = good ++ e :: later
  served : ServedBefore 0 good e
  written : ∀ i < good.length, writes i = .ok ()

section Connection

-- the hash of the public key of a certificate, by the X.509 parser and SHA-256
variable {W : Type} (extractSpkiHash : Bytes → Except Crypto.Error SpkiHash)
  (writes : ℕ → Except IoError Unit) (answer : W → (o : Op) → Ans o × W) (w : W)
  (stream : PeerStream) (rounds reads : ℕ) (peerAddr : SocketAddr) {peerSpki : SpkiHash}
  {good later : List Envelope} {e : Envelope}

/-- The log of a connection that gets to an envelope ends with a session on this
envelope and the later ones; an error in it is the answer of a dispatch, or its end. -/
private theorem exec_run_reaches
    (hpeer : admittedPeer extractSpkiHash answer w = some peerSpki)
    (hreaches : Reaches writes stream good e later) :
    let log := connectionLog extractSpkiHash (withWrites writes answer) (0, w) stream rounds reads
      peerAddr
    ∃ front xs tail lastSeen sent, lastSeen < e.nonce ∧
      Session peerSpki lastSeen sent (e :: later) xs tail ∧
      log = front ++ (xs.flatMap Exchange.log ++ tail) ∧
      ∀ event ∈ log, ∀ {nonce requestNonce code},
        event.op = .send (responseBytes nonce (.error requestNonce code)) →
          isAnswerCode code = true ∨
            ∃ written closed, tail = errorAndClose requestNonce code written closed := by
  intro log
  obtain ⟨front, xs, tail, hfront, hsession, hlog⟩ :=
    exec_run_session extractSpkiHash (withWrites writes answer) (0, w) stream rounds reads peerAddr
      hpeer
  obtain ⟨n, hwrites⟩ := exec_writeOutcomes writes answer
    (run extractSpkiHash (stream.envelopes.length + 1 + rounds)
      (stream.reads.length + 1 + reads) peerAddr) stream.inbound 0 w
  have hquiet : front.filterMap writeOutcome = [] := List.filterMap_eq_nil_iff.mpr hfront
  have hsent : (xs.flatMap Exchange.log ++ tail).filterMap writeOutcome =
      (List.range' 0 n).map writes := by
    have hall := congrArg (List.filterMap writeOutcome) hlog
    rw [connectionLog, filterMap_writeOutcome_withoutReads, hwrites, List.filterMap_append, hquiet,
      List.nil_append] at hall
    exact hall.symm
  rw [hreaches.envelopes_eq] at hsession
  have hwritten : ∀ i < good.length, ∀ x, xs[i]? = some x → x.written = .ok () := by
    intro i hi x hx
    rw [← hreaches.written i hi]
    refine (hsession.written_eq hsent ?_).symm
    rw [List.getElem?_append_left (by simpa using (List.getElem?_eq_some_iff.mp hx).1),
      List.getElem?_map, hx, Option.map_some]
  have herror (event : TaskEvent) (hevent : event ∈ log) {nonce requestNonce code}
      (hop : event.op = .send (responseBytes nonce (.error requestNonce code))) :=
    hsession.error_written hfront (hlog ▸ hevent) hop
  obtain ⟨served, rest, lastSeen, sent, rfl, hfresh, hafter⟩ :=
    hsession.after hreaches.served hwritten
  refine ⟨front ++ served.flatMap Exchange.log, rest, tail, lastSeen, sent, hfresh, hafter, ?_,
    herror⟩
  simp only [log, hlog, List.flatMap_append, List.append_assoc]

/-- A connection that gets to an envelope without a known tag closes as malformed. -/
theorem closed_of_not_knownTag (hpeer : admittedPeer extractSpkiHash answer w = some peerSpki)
    (hreaches : Reaches writes stream good e later) (htag : ¬ KnownTag e.payload) :
    ClosedAsMalformed e
      (connectionLog extractSpkiHash (withWrites writes answer) (0, w) stream rounds reads
        peerAddr) := by
  obtain ⟨front, xs, tail, lastSeen, sent, hfresh, hsession, hlog, -⟩ :=
    exec_run_reaches extractSpkiHash writes answer w stream rounds reads peerAddr hpeer hreaches
  obtain ⟨cause, hdecode⟩ := decodeClientFrame_of_not_knownTag htag
  obtain ⟨rfl, written, closed, rfl⟩ := hsession.closed_malformed hfresh hdecode
  exact ⟨front, written, closed, hlog⟩

/-- A connection that gets to an unknown tag does not answer `Unsupported`. -/
theorem unknown_tag_unanswered (hpeer : admittedPeer extractSpkiHash answer w = some peerSpki)
    (hreaches : Reaches writes stream good e later) (htag : UnknownTag e.payload) :
    ¬ AnsweredUnsupported peerSpki e later
      (connectionLog extractSpkiHash (withWrites writes answer) (0, w) stream rounds reads
        peerAddr) := by
  rintro ⟨before, back, nonce, written, hanswer, -⟩
  obtain ⟨front, xs, tail, lastSeen, sent, hfresh, hsession, -, herror⟩ :=
    exec_run_reaches extractSpkiHash writes answer w stream rounds reads peerAddr hpeer hreaches
  obtain ⟨cause, hdecode⟩ := decodeClientFrame_of_not_knownTag htag.not_knownTag
  obtain ⟨-, written', closed', htail⟩ := hsession.closed_malformed hfresh hdecode
  let event : TaskEvent := ⟨.send (responseBytes nonce (.error e.nonce .unsupported)), written⟩
  rcases herror event (by rw [hanswer]; simp [event]) rfl with hcode | ⟨written'', closed'', hends⟩
  · cases hcode
  · rw [htail] at hends
    cases (errorAndClose_inj hends).2

/-- A fresh envelope is handled as its tag requires exactly when it has a known tag. -/
theorem tags_handled_iff (hpeer : admittedPeer extractSpkiHash answer w = some peerSpki)
    (hreaches : Reaches writes stream good e later) :
    TagsHandled peerSpki e later
        (connectionLog extractSpkiHash (withWrites writes answer) (0, w) stream rounds reads
          peerAddr) ↔
      KnownTag e.payload := by
  constructor
  · intro hhandled
    by_contra htag
    exact htag (hhandled.malformed (closed_of_not_knownTag extractSpkiHash writes answer w stream
      rounds reads peerAddr hpeer hreaches htag)).1
  · intro htag
    refine ⟨fun hunknown => absurd htag hunknown.not_knownTag, ?_⟩
    rintro ⟨before, written, closed, hends⟩
    refine ⟨htag, ?_⟩
    cases hdecode : decodeClientFrame e.payload with
    | error err => exact badBody_of_error hdecode
    | ok frame =>
        -- the code is not that of an answer, and no later error is about this envelope
        obtain ⟨front, xs, tail, lastSeen, sent, hfresh, hsession, -, herror⟩ :=
          exec_run_reaches extractSpkiHash writes answer w stream rounds reads peerAddr hpeer
            hreaches
        let event : TaskEvent :=
          ⟨.send (responseBytes 1 (.error e.nonce .malformedFrame)), written⟩
        have hevent : event ∈ connectionLog extractSpkiHash (withWrites writes answer) (0, w) stream
            rounds reads peerAddr := by
          rw [hends]
          simp [event, errorAndClose]
        rcases herror event hevent rfl with hcode | ⟨written', closed', htail⟩
        · cases hcode
        · exact absurd htail (hsession.not_about_served hfresh hdecode (by decide))

end Connection

/-! ## A reserved tag after a request -/

/-- A request with the tag that is reserved for unlocking. -/
def unlockRequest : Envelope :=
  ⟨protocolVersion, 2, [0x10]⟩

/-- A request for the state. -/
def probeRequest : Envelope :=
  ⟨protocolVersion, 3, ClientFrame.format.encode .stateProbe⟩

/-- A request to lock with one more byte. -/
def longLockRequest : Envelope :=
  ⟨protocolVersion, 2, ClientFrame.format.encode .lock ++ [0]⟩

/-- A phone that sends the reserved tag between two requests. -/
def lockUnlockProbe : PeerStream where
  reads := [lockRequest, unlockRequest, probeRequest].map wireBytes
  ending := .eof
  nonempty := by decide
  small := by decide

/-- A phone whose second request is too long. -/
def lockThenLong : PeerStream where
  reads := [lockRequest, longLockRequest].map wireBytes
  ending := .eof
  nonempty := by decide
  small := by decide

private theorem reaches_second {stream : PeerStream} {e : Envelope} {later : List Envelope}
    (hbytes : stream.reads.flatten = (lockRequest :: e :: later).flatMap wireBytes ++ [])
    (hlegal : ∀ e' ∈ lockRequest :: e :: later, e'.version = protocolVersion ∧
      0 < e'.payload.length ∧ envelopeHeaderLen + e'.payload.length ≤ maxFrameLen)
    (hfresh : 1 < e.nonce) : Reaches (fun _ => .ok ()) stream [lockRequest] e later where
  envelopes_eq := by
    rw [PeerStream.envelopes, hbytes, split_wireBytes_append hlegal,
      envelopeFramer.split_more envelopeFramer.next_nil, List.append_nil]
    rfl
  served :=
    { increasing := by
        have hfirst : (0 : UInt64) < lockRequest.nonce := by decide
        have hsecond : lockRequest.nonce < e.nonce := hfresh
        simp [hfirst, hsecond, UInt64.lt_trans hfirst hsecond]
      decodes := by
        simpa using ⟨.lock, decodePayload_encode ClientFrame.format .lock⟩
      staysOpen := by decide }
  written _ _ := rfl

/-- A phone that sends the reserved tag is disconnected without `Unsupported`. -/
theorem reserved_tag_unhandled :
    ¬ TagsHandled phoneKey unlockRequest [probeRequest]
      (connectionLog (fun _ => .ok phoneKey)
        (withWrites (fun _ => .ok ()) fun w o => (succeeding pairedContents o, w)) (0, ())
        lockUnlockProbe 0 0 phoneAddress) := by
  have hreaches : Reaches (fun _ => .ok ()) lockUnlockProbe [lockRequest] unlockRequest
      [probeRequest] :=
    reaches_second (by decide) (by decide) (by decide)
  have hunknown : UnknownTag unlockRequest.payload := ⟨0x10, [], by decide, by decide⟩
  have hunanswered := unknown_tag_unanswered (fun _ => .ok phoneKey) (fun _ => .ok ())
    (fun w o => (succeeding pairedContents o, w)) () lockUnlockProbe 0 0 phoneAddress
    phone_admitted hreaches hunknown
  exact fun hhandled => hunanswered (hhandled.unsupported hunknown)

/-- A phone whose request has a byte too many is handled as its tag requires. -/
theorem trailing_byte_handled :
    TagsHandled phoneKey longLockRequest []
      (connectionLog (fun _ => .ok phoneKey)
        (withWrites (fun _ => .ok ()) fun w o => (succeeding pairedContents o, w)) (0, ())
        lockThenLong 0 0 phoneAddress) := by
  have hreaches : Reaches (fun _ => .ok ()) lockThenLong [lockRequest] longLockRequest [] :=
    reaches_second (by decide) (by decide) (by decide)
  have hknown : KnownTag longLockRequest.payload := ⟨2, [0], by decide, by decide⟩
  exact (tags_handled_iff (fun _ => .ok phoneKey) (fun _ => .ok ())
    (fun w o => (succeeding pairedContents o, w)) () lockThenLong 0 0 phoneAddress
    phone_admitted hreaches).mpr hknown

end Daemon
end WakeMyPc
