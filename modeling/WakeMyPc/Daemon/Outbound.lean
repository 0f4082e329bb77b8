import WakeMyPc.Daemon.ExactlyOnce

/-!
# Outbound nonces

The peer of a connection frames the bytes that were written to it and feeds the
nonce of each envelope to a fresh receiver.  Answers are counted up from one, but
the error that ends a session is always written with nonce one.

Main results:

- Theorem `exec_run`: what a connection task does before its protocol loop.
- Theorem `Session.refuses_iff`: when a session ends with such an error.
- Theorem `outbound_nonces_in_order_iff`: the nonces are in order unless an error is
  written after an answer.
-/

namespace WakeMyPc
namespace Daemon

open Foundations
open Foundations.Prog (exec)
open Protocol
open Crypto (NonceReceiver)

/-! ## What the peer receives -/

/-- The outcome of an event that is a write. -/
def writeOutcome : TaskEvent → Option (Except IoError Unit)
  | ⟨.send _, result⟩ => some result
  | _ => none

/-- The bytes that an event hands to the peer: those of a write that succeeds. -/
def delivered : TaskEvent → Bytes
  | ⟨.send bytes, result⟩ =>
      match (result : Except IoError Unit) with
      | .ok () => bytes
      | .error _ => []
  | _ => []

/-- The nonces of the envelopes that the peer frames. -/
def receivedNonces (events : List TaskEvent) : List UInt64 :=
  (envelopeFramer.split (events.flatMap delivered)).1.map (·.nonce)

/-- A receiver accepts all of some nonces in turn. -/
def AcceptsAll : NonceReceiver → List UInt64 → Prop
  | _, [] => True
  | r, nonce :: nonces => (r.accept nonce).1 = .ok () ∧ AcceptsAll (r.accept nonce).2 nonces

/-- The received nonces increase strictly from one, and a fresh receiver accepts
them all. -/
structure NoncesInOrder (events : List TaskEvent) : Prop where
  increasing : (receivedNonces events).Pairwise (· < ·)
  startsAtOne : receivedNonces events = [] ∨ (receivedNonces events).head? = some 1
  accepted : AcceptsAll NonceReceiver.new (receivedNonces events)

/-- A receiver accepts all of some nonces exactly when they increase strictly from
the last one it accepted. -/
theorem acceptsAll_iff (r : NonceReceiver) (nonces : List UInt64) :
    AcceptsAll r nonces ↔ (r.lastSeen :: nonces).Pairwise (· < ·) := by
  induction nonces generalizing r with
  | nil => simp [AcceptsAll]
  | cons nonce nonces ih =>
      rw [AcceptsAll, NonceReceiver.accept_ok_iff]
      constructor
      · rintro ⟨hlt, hrest⟩
        rw [NonceReceiver.accept_of_lt hlt, ih] at hrest
        refine List.pairwise_cons.mpr ⟨?_, hrest⟩
        intro later hlater
        rcases List.mem_cons.mp hlater with rfl | hlater
        · exact hlt
        · exact UInt64.lt_trans hlt ((List.pairwise_cons.mp hrest).1 later hlater)
      · intro h
        obtain ⟨hfirst, hrest⟩ := List.pairwise_cons.mp h
        have hlt : r.lastSeen < nonce := hfirst nonce List.mem_cons_self
        rw [NonceReceiver.accept_of_lt hlt, ih]
        exact ⟨hlt, hrest⟩

/-- Strictly increasing nonces from one are accepted by a fresh receiver. -/
theorem noncesInOrder_of_increasing {events : List TaskEvent}
    (h : (0 :: receivedNonces events).Pairwise (· < ·))
    (hstart : receivedNonces events = [] ∨ (receivedNonces events).head? = some 1) :
    NoncesInOrder events where
  increasing := (List.pairwise_cons.mp h).2
  startsAtOne := hstart
  accepted := (acceptsAll_iff NonceReceiver.new _).mpr h

theorem delivered_of_not_send {e : TaskEvent} (h : writeOutcome e = none) : delivered e = [] := by
  obtain ⟨op, ans⟩ := e
  cases op <;> first | rfl | simp [writeOutcome] at h

theorem flatMap_delivered_of_no_writes {events : List TaskEvent}
    (h : ∀ e ∈ events, writeOutcome e = none) : events.flatMap delivered = [] := by
  rw [List.flatMap_eq_nil_iff]
  exact fun e he => delivered_of_not_send (h e he)

theorem writeOutcome_of_isRecv {e : TaskEvent} (h : e.op.isRecv = true) :
    writeOutcome e = none := by
  obtain ⟨op, ans⟩ := e
  cases op <;> first | rfl | simp [Op.isRecv] at h

theorem writeOutcome_of_isLocal {e : TaskEvent} (h : e.op.isLocal = true) :
    writeOutcome e = none := by
  obtain ⟨op, ans⟩ := e
  cases op <;> first | rfl | simp [Op.isLocal] at h

/-- Reads deliver nothing. -/
theorem flatMap_delivered_withoutReads (events : List TaskEvent) :
    (withoutReads events).flatMap delivered = events.flatMap delivered := by
  induction events with
  | nil => rfl
  | cons e events ih =>
      rw [withoutReads_cons, List.flatMap_cons]
      split
      · next hrecv => rw [ih, delivered_of_not_send (writeOutcome_of_isRecv hrecv), List.nil_append]
      · rw [List.flatMap_cons, ih]

theorem filterMap_writeOutcome_withoutReads (events : List TaskEvent) :
    (withoutReads events).filterMap writeOutcome = events.filterMap writeOutcome := by
  induction events with
  | nil => rfl
  | cons e events ih =>
      rw [withoutReads_cons, List.filterMap_cons]
      split
      · next hrecv => rw [ih, writeOutcome_of_isRecv hrecv]
      · rw [List.filterMap_cons, ih]

/-! ## Writes with given outcomes -/

section Writes

variable {W : Type} (writes : ℕ → Except IoError Unit) (answer : W → (o : Op) → Ans o × W)

/-- Answers in which the outcomes of the writes are given by their number. -/
def withWrites : ℕ × W → (o : Op) → Ans o × (ℕ × W) :=
  fun w o =>
    match o with
    | .send _ => (writes w.1, (w.1 + 1, w.2))
    | o => ((answer w.2 o).1, (w.1, (answer w.2 o).2))

/-- The outcomes of the writes of a run are the given ones in turn. -/
theorem exec_writeOutcomes {α : Type} (p : Task α) (inb : Inbound) (i : ℕ) (w : W) :
    let out := exec (withInbound (answering (withWrites writes answer))) p (inb, (i, w))
    ∃ n, out.events.filterMap writeOutcome = (List.range' i n).map writes := by
  induction p generalizing inb i w with
  | ret a => exact ⟨0, rfl⟩
  | stall => exact ⟨0, rfl⟩
  | call o k ih =>
      cases hanswer : withInbound (answering (withWrites writes answer)) (inb, (i, w)) o with
      | none =>
          refine ⟨0, ?_⟩
          rw [Prog.exec_call_none k hanswer]
          rfl
      | some result =>
          obtain ⟨r, inb', i', w'⟩ := result
          obtain ⟨n, hn⟩ := ih r inb' i' w'
          rw [Prog.exec_call_some k hanswer]
          -- a write takes the next outcome, and no other operation takes one
          have hstep : (writeOutcome ⟨o, r⟩ = some (writes i) ∧ i' = i + 1) ∨
              (writeOutcome ⟨o, r⟩ = none ∧ i' = i) := by
            cases o with
            | send bytes =>
                cases hanswer
                exact .inl ⟨rfl, rfl⟩
            | recv =>
                obtain ⟨_, _, heq⟩ := Option.map_eq_some_iff.mp hanswer
                cases heq
                exact .inr ⟨rfl, rfl⟩
            | _ =>
                cases hanswer
                exact .inr ⟨rfl, rfl⟩
          rcases hstep with ⟨hwrite, rfl⟩ | ⟨hother, rfl⟩
          · refine ⟨n + 1, ?_⟩
            rw [List.filterMap_cons_some hwrite, hn, List.range'_succ, List.map_cons]
          · refine ⟨n, ?_⟩
            rw [List.filterMap_cons_none hother, hn]

end Writes

/-! ## Answers of a session -/

/-- The nonce and the message of an answer that was written. -/
def Exchange.reply (x : Exchange) : Option (UInt64 × DaemonFrame) :=
  match x.written with
  | .ok () => some (x.sendNonce, x.response)
  | .error _ => none

/-- The bytes of a written message. -/
def replyBytes (reply : UInt64 × DaemonFrame) : Bytes :=
  responseBytes reply.1 reply.2

theorem replyBytes_ne_nil (reply : UInt64 × DaemonFrame) : replyBytes reply ≠ [] := by
  rw [← List.length_pos_iff_ne_nil, replyBytes, responseBytes, length_wireBytes]
  simp only [lengthPrefixLen]
  omega

/-- The error that ends a session is delivered with nonce one. -/
theorem flatMap_delivered_errorAndClose (requestNonce : UInt64) (code : ProtocolError)
    (closed : Except IoError Unit) :
    (errorAndClose requestNonce code (.ok ()) closed).flatMap delivered =
      replyBytes (1, .error requestNonce code) := by
  simp [errorAndClose, delivered, replyBytes]

theorem filterMap_reply_of_ok {xs : List Exchange} (h : ∀ x ∈ xs, x.written = .ok ()) :
    xs.filterMap Exchange.reply = xs.map fun x => (x.sendNonce, x.response) := by
  induction xs with
  | nil => rfl
  | cons x xs ih =>
      rw [List.filterMap_cons, Exchange.reply, h x List.mem_cons_self,
        ih fun y hy => h y (List.mem_cons_of_mem x hy)]
      rfl

/-- The peer frames exactly the messages that were written to it. -/
theorem receivedNonces_of_replies {events : List TaskEvent}
    {replies : List (UInt64 × DaemonFrame)}
    (h : events.flatMap delivered = replies.flatMap replyBytes) :
    receivedNonces events = replies.map Prod.fst := by
  let envelopeOf (reply : UInt64 × DaemonFrame) : Envelope :=
    ⟨protocolVersion, reply.1, DaemonFrame.format.encode reply.2⟩
  have hlegal : ∀ e ∈ replies.map envelopeOf, e.version = protocolVersion ∧ 0 < e.payload.length ∧
      envelopeHeaderLen + e.payload.length ≤ maxFrameLen := by
    intro e he
    obtain ⟨reply, -, rfl⟩ := List.mem_map.mp he
    have hle := reply.2.length_encode_le
    refine ⟨rfl, reply.2.length_encode_pos, ?_⟩
    simp only [envelopeOf, envelopeHeaderLen, maxFrameLen]
    omega
  have hbytes : replies.flatMap replyBytes = (replies.map envelopeOf).flatMap wireBytes ++ [] := by
    rw [List.flatMap_map, List.append_nil]
    rfl
  rw [receivedNonces, h, hbytes, split_wireBytes_append hlegal,
    envelopeFramer.split_more envelopeFramer.next_nil, List.append_nil, List.map_map]
  rfl

/-- Nothing, or one message with nonce one, is in order. -/
theorem noncesInOrder_of_first {events : List TaskEvent}
    (h : events.flatMap delivered = [] ∨
      ∃ frame, events.flatMap delivered = replyBytes (1, frame)) :
    NoncesInOrder events := by
  rcases h with hnone | ⟨frame, hone⟩
  · have hreply : events.flatMap delivered =
        ([] : List (UInt64 × DaemonFrame)).flatMap replyBytes := hnone
    have hnonces : receivedNonces events = [] := receivedNonces_of_replies hreply
    exact noncesInOrder_of_increasing (by simp [hnonces]) (.inl hnonces)
  · have hreply : events.flatMap delivered = [(1, frame)].flatMap replyBytes := by simpa using hone
    have hnonces : receivedNonces events = [1] := receivedNonces_of_replies hreply
    exact noncesInOrder_of_increasing (by rw [hnonces]; decide) (.inr (by rw [hnonces]; rfl))

/-- An exchange delivers its answer when the write succeeds. -/
theorem flatMap_delivered_log {x : Exchange} {peerSpki : SpkiHash} (h : x.Dispatches peerSpki) :
    x.log.flatMap delivered = x.reply.toList.flatMap replyBytes := by
  have hlocal : x.events.flatMap delivered = [] :=
    flatMap_delivered_of_no_writes fun e he => writeOutcome_of_isLocal (x.events_local h e he)
  rw [Exchange.log, List.flatMap_append, hlocal, List.nil_append, Exchange.reply]
  cases hwritten : x.written with
  | error e => rfl
  | ok _ => simp [delivered, replyBytes]

/-- An exchange has one write. -/
theorem filterMap_writeOutcome_log {x : Exchange} {peerSpki : SpkiHash}
    (h : x.Dispatches peerSpki) : x.log.filterMap writeOutcome = [x.written] := by
  have hlocal : x.events.filterMap writeOutcome = [] := by
    rw [List.filterMap_eq_nil_iff]
    exact fun e he => writeOutcome_of_isLocal (x.events_local h e he)
  rw [Exchange.log, List.filterMap_append, hlocal]
  rfl

section Exchanges

variable {peerSpki : SpkiHash} {xs : List Exchange} (h : ∀ x ∈ xs, x.Dispatches peerSpki)

include h

theorem flatMap_delivered_exchanges :
    (xs.flatMap Exchange.log).flatMap delivered =
      (xs.filterMap Exchange.reply).flatMap replyBytes := by
  induction xs with
  | nil => rfl
  | cons x xs ih =>
      have hrest := ih fun y hy => h y (List.mem_cons_of_mem x hy)
      rw [List.flatMap_cons, List.flatMap_append, hrest,
        flatMap_delivered_log (h x List.mem_cons_self), List.filterMap_cons]
      cases x.reply <;> simp

theorem filterMap_writeOutcome_exchanges :
    (xs.flatMap Exchange.log).filterMap writeOutcome = xs.map (·.written) := by
  induction xs with
  | nil => rfl
  | cons x xs ih =>
      have hrest := ih fun y hy => h y (List.mem_cons_of_mem x hy)
      rw [List.flatMap_cons, List.filterMap_append, hrest,
        filterMap_writeOutcome_log (h x List.mem_cons_self)]
      rfl

end Exchanges

section Sessions

variable {peerSpki : SpkiHash} {lastSeen sent : UInt64} {es : List Envelope} {xs : List Exchange}
  {tail : List TaskEvent}

/-- The answers of a session are counted up from the last nonce that was sent. -/
theorem Session.sendNonces_increasing (h : Session peerSpki lastSeen sent es xs tail)
    (hsent : sent ≤ lastSeen) : (sent :: xs.map (·.sendNonce)).Pairwise (· < ·) := by
  have hstep : ∀ {x : Exchange} {lastSeen sent : UInt64} {e : Envelope},
      x.Serves peerSpki lastSeen sent e → sent ≤ lastSeen →
        sent < x.sendNonce ∧ x.sendNonce ≤ x.nonce := by
    intro x lastSeen sent e hserves hle
    obtain ⟨hlt, hnext⟩ := sent_lt hle hserves.fresh
    rw [hserves.sendNonce_eq, hserves.nonce_eq]
    refine ⟨?_, hnext⟩
    rw [UInt64.lt_iff_toNat_lt, UInt64.toNat_add]
    have hone : (1 : UInt64).toNat = 1 := rfl
    omega
  induction h with
  | finished lastSeen sent => simp
  | replayed sent es hreplay written closed => simp
  | undecodable sent es hfresh hdecode written closed => simp
  | writeFailed es hserves hwritten => simpa using (hstep hserves hsent).1
  | closed es hserves hwritten hpair result => simpa using (hstep hserves hsent).1
  | @next lastSeen sent e es x xs tail hserves hwritten hpair hrest ih =>
      obtain ⟨hlt, hle⟩ := hstep hserves hsent
      have hlater := ih hle
      refine List.pairwise_cons.mpr ⟨?_, hlater⟩
      intro nonce hnonce
      rcases List.mem_cons.mp hnonce with rfl | hnonce
      · exact hlt
      · exact UInt64.lt_trans hlt ((List.pairwise_cons.mp hlater).1 nonce hnonce)

/-- The first answer of a session that was written has the next nonce. -/
theorem Session.replies_start (h : Session peerSpki lastSeen sent es xs tail) :
    xs.filterMap Exchange.reply = [] ∨
      ((xs.filterMap Exchange.reply).map Prod.fst).head? = some (sent + 1) := by
  cases h with
  | finished => exact .inl rfl
  | replayed es hreplay written closed => exact .inl rfl
  | undecodable es hfresh hdecode written closed => exact .inl rfl
  | writeFailed es hserves hwritten => exact .inl (by simp [Exchange.reply, hwritten])
  | closed es hserves hwritten hpair result =>
      exact .inr (by simp [Exchange.reply, hwritten, hserves.sendNonce_eq])
  | next hserves hwritten hpair hrest =>
      exact .inr (by simp [Exchange.reply, hwritten, hserves.sendNonce_eq])

/-- The nonces of the written answers are some of the counted ones, in order. -/
theorem replies_sublist (xs : List Exchange) :
    ((xs.filterMap Exchange.reply).map Prod.fst).Sublist (xs.map (·.sendNonce)) := by
  induction xs with
  | nil => exact List.Sublist.refl []
  | cons x xs ih =>
      cases hwritten : x.written with
      | error e => simpa [Exchange.reply, hwritten] using ih.cons x.sendNonce
      | ok _ => simpa [Exchange.reply, hwritten] using ih

/-- An envelope that follows the longest servable prefix is refused, unless the
connection is closed before it. -/
def RefusesNext (lastSeen : UInt64) (es : List Envelope) : Prop :=
  servable lastSeen es ≠ es ∧ ∀ e ∈ servable lastSeen es, offersPair e = false

/-- A session ends with an error outside the counted messages exactly when no write
of an answer fails and an envelope is refused. -/
theorem Session.refuses_iff (h : Session peerSpki lastSeen sent es xs tail) :
    (∃ requestNonce code written closed, tail = errorAndClose requestNonce code written closed) ↔
      (∀ x ∈ xs, x.written = .ok ()) ∧ RefusesNext lastSeen es := by
  induction h with
  | finished lastSeen sent => simp [errorAndClose, RefusesNext, servable]
  | @replayed lastSeen sent e es hreplay written closed =>
      refine ⟨fun _ => ⟨by simp, ?_⟩, fun _ => ⟨_, _, _, _, rfl⟩⟩
      rw [RefusesNext, servable, if_neg (UInt64.not_lt.mpr hreplay)]
      simp
  | @undecodable lastSeen sent e es err hfresh hdecode written closed =>
      refine ⟨fun _ => ⟨by simp, ?_⟩, fun _ => ⟨_, _, _, _, rfl⟩⟩
      simp [RefusesNext, servable, hdecode]
  | writeFailed es hserves hwritten => simp [errorAndClose, hwritten]
  | @closed lastSeen sent e es x hserves hwritten hpair result =>
      have hoffers : offersPair e = true := by rw [offersPair, hserves.decodes]; exact hpair
      simp [errorAndClose, RefusesNext, hserves.servable_cons, hpair, hoffers]
  | @next lastSeen sent e es x xs tail hserves hwritten hpair hrest ih =>
      have hoffers : offersPair e = false := by rw [offersPair, hserves.decodes]; exact hpair
      rw [ih]
      simp [RefusesNext, hserves.servable_cons, hpair, hoffers, hwritten]

/-- A session that does not end with such an error delivers nothing after its
answers. -/
theorem Session.tail_delivered (h : Session peerSpki lastSeen sent es xs tail) :
    tail.flatMap delivered = [] ∨
      ∃ requestNonce code closed, tail = errorAndClose requestNonce code (.ok ()) closed := by
  induction h with
  | finished lastSeen sent => exact .inl rfl
  | replayed sent es hreplay written closed =>
      cases written with
      | error e => exact .inl rfl
      | ok _ => exact .inr ⟨_, _, _, rfl⟩
  | undecodable sent es hfresh hdecode written closed =>
      cases written with
      | error e => exact .inl rfl
      | ok _ => exact .inr ⟨_, _, _, rfl⟩
  | writeFailed es hserves hwritten => exact .inl rfl
  | closed es hserves hwritten hpair result => exact .inl rfl
  | next hserves hwritten hpair hrest ih => exact ih

end Sessions

/-! ## Before the protocol loop -/

section Run

-- the hash of the public key of a certificate, by the X.509 parser and SHA-256
variable {W : Type} (extractSpkiHash : Bytes → Except Crypto.Error SpkiHash)

/-- The key of a peer that passes the check before the protocol loop. -/
def admittedPeer (answer : W → (o : Op) → Ans o × W) (w : W) : Option SpkiHash :=
  let certs := answer w .peerCertificates
  let contents : KeystoreContents := (answer certs.2 .snapshot).1
  match leafSpki extractSpkiHash certs.1 with
  | .error _ => none
  | .ok spki => if contents.HasActive spki then some spki else none

variable (answer : W → (o : Op) → Ans o × W) (inb : Inbound) (w : W)

/-- The rest of a connection task after the check. -/
private def afterPreFlight (rounds reads : ℕ) (peerSpki : SpkiHash) (peerAddr : SocketAddr)
    (admitted : Bool) : Task (Except RunError Unit) :=
  if admitted then do
    recordAddress peerSpki peerAddr
    protocolLoop rounds reads peerSpki
  else sendErrorAndClose 0 .revoked

private theorem exec_peerSpkiFromTls :
    let certs := answer w .peerCertificates
    exec (withInbound (answering answer)) (peerSpkiFromTls extractSpkiHash) (inb, w) =
      ⟨[⟨.peerCertificates, certs.1⟩], some (leafSpki extractSpkiHash certs.1),
        (inb, certs.2)⟩ := by
  intro certs
  have hcerts : withInbound (answering answer) (inb, w) .peerCertificates =
      some (certs.1, (inb, certs.2)) := rfl
  rw [peerSpkiFromTls, perform_bind, Prog.exec_call_some _ hcerts]
  rfl

private theorem exec_preFlight (spki : SpkiHash) :
    let snap := answer w .snapshot
    exec (withInbound (answering answer)) (preFlight spki) (inb, w) =
      ⟨[⟨.snapshot, snap.1⟩], some (snap.1.activePairing spki).isSome, (inb, snap.2)⟩ := by
  intro snap
  have hsnap : withInbound (answering answer) (inb, w) .snapshot =
      some (snap.1, (inb, snap.2)) := rfl
  rw [preFlight, perform_bind, Prog.exec_call_some _ hsnap]
  rfl

/-- A task goes on with an admitted peer: nothing is written before the protocol loop. -/
private theorem exec_admitted (rounds reads : ℕ) (peerSpki : SpkiHash) (peerAddr : SocketAddr) :
    ∃ events w', (∀ e ∈ events, writeOutcome e = none) ∧
      (exec (withInbound (answering answer))
          (afterPreFlight rounds reads peerSpki peerAddr true) (inb, w)).events =
        events ++ (exec (withInbound (answering answer)) (protocolLoop rounds reads peerSpki)
          (inb, w')).events := by
  obtain ⟨events, a, w', hrecord, htrace⟩ :=
    exec_local answer inb w (recordAddress_uses peerSpki peerAddr)
  have hlocal := (recordAddress_uses peerSpki peerAddr).trace htrace
  refine ⟨events, w', fun e he => writeOutcome_of_isLocal (hlocal e he), ?_⟩
  rw [afterPreFlight, if_pos rfl, Prog.exec_bind, hrecord]
  rfl

/-- A connection task writes one error to a peer without a live pairing, and runs
the protocol loop for any other peer. -/
theorem exec_run (rounds reads : ℕ) (peerAddr : SocketAddr) :
    let out := exec (withInbound (answering answer)) (run extractSpkiHash rounds reads peerAddr)
      (inb, w)
    ∃ front, (∀ e ∈ front, writeOutcome e = none) ∧
      match admittedPeer extractSpkiHash answer w with
      | some peerSpki => ∃ w',
          out.events = front ++
            (exec (withInbound (answering answer)) (protocolLoop rounds reads peerSpki)
              (inb, w')).events
      | none => out.events = front ∨
          ∃ written closed, out.events = front ++ errorAndClose 0 .revoked written closed := by
  intro out
  let certs := answer w .peerCertificates
  let snap := answer certs.2 .snapshot
  have hpeer := exec_peerSpkiFromTls extractSpkiHash answer inb w
  have hcheck := exec_preFlight answer inb certs.2
  cases hleaf : leafSpki extractSpkiHash certs.1 with
  | error e =>
      have hnone : admittedPeer extractSpkiHash answer w = none := by
        simp only [admittedPeer, certs, hleaf]
      have hout : out.events = [⟨.peerCertificates, certs.1⟩] := by
        simp only [out, run]
        rw [Prog.exec_bind, hpeer, hleaf]
        rfl
      rw [hnone]
      exact ⟨_, by simp [writeOutcome], .inl hout⟩
  | ok spki =>
      have hfront : ∀ e ∈ [⟨.peerCertificates, certs.1⟩, ⟨.snapshot, snap.1⟩],
          writeOutcome e = none := by
        simp [writeOutcome]
      have hout : out = Prog.andThen ⟨[⟨.peerCertificates, certs.1⟩, ⟨.snapshot, snap.1⟩],
          some (snap.1.activePairing spki).isSome, (inb, snap.2)⟩ fun admitted w =>
            exec (withInbound (answering answer))
              (afterPreFlight rounds reads spki peerAddr admitted) w := by
        simp only [out, run]
        rw [Prog.exec_bind, hpeer, hleaf]
        simp only [Prog.andThen]
        rw [Prog.exec_bind, hcheck]
        rfl
      rw [hout]
      by_cases hactive : snap.1.HasActive spki
      · have hsome : admittedPeer extractSpkiHash answer w = some spki := by
          simp only [admittedPeer, certs, hleaf]
          exact if_pos hactive
        have hadmitted : (snap.1.activePairing spki).isSome = true :=
          (KeystoreContents.activePairing_isSome_iff _ _).mpr hactive
        obtain ⟨events, w', hquiet, hevents⟩ :=
          exec_admitted answer inb snap.2 rounds reads spki peerAddr
        rw [hsome, hadmitted]
        refine ⟨[⟨.peerCertificates, certs.1⟩, ⟨.snapshot, snap.1⟩] ++ events, ?_, w', ?_⟩
        · intro e he
          rcases List.mem_append.mp he with hearly | hrest
          · exact hfront e hearly
          · exact hquiet e hrest
        · simp only [Prog.andThen]
          rw [hevents, List.append_assoc]
      · have hnone : admittedPeer extractSpkiHash answer w = none := by
          simp only [admittedPeer, certs, hleaf]
          exact if_neg hactive
        have hrefused : (snap.1.activePairing spki).isSome = false :=
          Bool.eq_false_iff.mpr fun h =>
            hactive ((KeystoreContents.activePairing_isSome_iff _ _).mp h)
        obtain ⟨written, closed, w', herror⟩ :=
          exec_sendErrorAndClose answer inb snap.2 0 .revoked
        rw [hnone, hrefused]
        refine ⟨[⟨.peerCertificates, certs.1⟩, ⟨.snapshot, snap.1⟩], hfront,
          .inr ⟨written, closed, ?_⟩⟩
        simp only [Prog.andThen, afterPreFlight, Bool.false_eq_true, if_false]
        rw [herror]
        rfl

end Run

/-! ## Nonces of a whole connection -/

/-- An error is written after an answer: some envelopes are served, the next one is
refused, and the writes up to the error succeed. -/
structure ErrorAfterAnswer (es : List Envelope) (writes : ℕ → Except IoError Unit) : Prop where
  answered : servable 0 es ≠ []
  refuses : RefusesNext 0 es
  writesOk : ∀ i ≤ (servable 0 es).length, writes i = .ok ()

theorem length_requests_servable (lastSeen : UInt64) (es : List Envelope) :
    (requests (servable lastSeen es)).length = (servable lastSeen es).length := by
  fun_induction servable lastSeen es with
  | case1 lastSeen => rfl
  | case2 lastSeen e es hfresh err hdecode => rfl
  | case3 lastSeen e es hfresh frame hdecode hpair => simp [requests, hdecode, Except.toOption]
  | case4 lastSeen e es hfresh frame hdecode hpair ih =>
      simpa [requests, hdecode, Except.toOption] using ih
  | case5 lastSeen e es hfresh => rfl

/-- The writes of a session in turn: those of its answers, then that of its error. -/
theorem Session.written_eq {peerSpki : SpkiHash} {lastSeen sent : UInt64} {es : List Envelope}
    {xs : List Exchange} {tail : List TaskEvent} {writes : ℕ → Except IoError Unit}
    (hsession : Session peerSpki lastSeen sent es xs tail) {n : ℕ}
    (hwrites : (xs.flatMap Exchange.log ++ tail).filterMap writeOutcome =
      (List.range' 0 n).map writes) {i : ℕ} {result : Except IoError Unit}
    (h : (xs.map (·.written) ++ tail.filterMap writeOutcome)[i]? = some result) :
    writes i = result := by
  rw [List.filterMap_append, filterMap_writeOutcome_exchanges hsession.dispatches] at hwrites
  obtain ⟨k, hk, rfl⟩ := Option.map_eq_some_iff.mp (by rwa [hwrites, List.getElem?_map] at h)
  obtain ⟨hlt, rfl⟩ := List.getElem?_eq_some_iff.mp hk
  simp

section SessionNonces

variable {peerSpki : SpkiHash} {es : List Envelope} {xs : List Exchange}
  {tail front events : List TaskEvent} {writes : ℕ → Except IoError Unit}

/-- A session that serves all it can serves as many envelopes as are servable. -/
private theorem length_of_served_all (hsession : Session peerSpki 0 0 es xs tail)
    (hok : ∀ x ∈ xs, x.written = .ok ()) : xs.length = (servable 0 es).length := by
  rw [← length_requests_servable, ← hsession.served_all hok, List.length_map]

/-- Under the condition, a session ends with an error that is delivered. -/
private theorem ends_with_error (hsession : Session peerSpki 0 0 es xs tail)
    (hwritten : ∀ i result,
      (xs.map (·.written) ++ tail.filterMap writeOutcome)[i]? = some result → writes i = result)
    (h : ErrorAfterAnswer es writes) :
    ∃ requestNonce code closed, tail = errorAndClose requestNonce code (.ok ()) closed := by
  have hle : xs.length ≤ (servable 0 es).length := by
    rw [← length_requests_servable, ← List.length_map Exchange.request]
    exact hsession.served.length_le
  have hok : ∀ x ∈ xs, x.written = .ok () := by
    intro x hx
    obtain ⟨i, hi, rfl⟩ := List.getElem_of_mem hx
    have hanswer : (xs.map (·.written) ++ tail.filterMap writeOutcome)[i]? =
        some xs[i].written := by
      rw [List.getElem?_append_left (by simpa using hi), List.getElem?_map,
        List.getElem?_eq_getElem hi, Option.map_some]
    rw [← hwritten i _ hanswer]
    exact h.writesOk i (hi.le.trans hle)
  obtain ⟨requestNonce, code, written, closed, rfl⟩ :=
    hsession.refuses_iff.mpr ⟨hok, h.refuses⟩
  have herror : (xs.map (·.written) ++
      (errorAndClose requestNonce code written closed).filterMap writeOutcome)[xs.length]? =
        some written := by
    rw [List.getElem?_append_right (by simp), List.length_map, Nat.sub_self]
    rfl
  obtain rfl : written = .ok () := by
    rw [← hwritten _ _ herror]
    exact h.writesOk _ hle
  exact ⟨requestNonce, code, closed, rfl⟩

/-- The nonces of a session are in order unless an error is written after an
answer. -/
private theorem session_noncesInOrder_iff (hsession : Session peerSpki 0 0 es xs tail)
    (hlog : withoutReads events = xs.flatMap Exchange.log ++ tail) {n : ℕ}
    (hwrites : events.filterMap writeOutcome = (List.range' 0 n).map writes)
    (hfront : ∀ e ∈ front, writeOutcome e = none) :
    NoncesInOrder (front ++ events) ↔ ¬ ErrorAfterAnswer es writes := by
  have hdelivered : (front ++ events).flatMap delivered =
      (xs.filterMap Exchange.reply).flatMap replyBytes ++ tail.flatMap delivered := by
    rw [List.flatMap_append, flatMap_delivered_of_no_writes hfront, List.nil_append,
      ← flatMap_delivered_withoutReads, hlog, List.flatMap_append,
      flatMap_delivered_exchanges hsession.dispatches]
  have hincreasing := hsession.sendNonces_increasing (UInt64.le_refl 0)
  have hwritten (i : ℕ) (result : Except IoError Unit)
      (h : (xs.map (·.written) ++ tail.filterMap writeOutcome)[i]? = some result) :
      writes i = result :=
    hsession.written_eq (by rw [← hlog, filterMap_writeOutcome_withoutReads, hwrites]) h
  rcases hsession.tail_delivered with hquiet | ⟨requestNonce, code, closed, rfl⟩
  · -- nothing is delivered after the answers
    have hnonces : receivedNonces (front ++ events) = (xs.filterMap Exchange.reply).map Prod.fst :=
      receivedNonces_of_replies (by rw [hdelivered, hquiet, List.append_nil])
    refine iff_of_true (noncesInOrder_of_increasing ?_ ?_) ?_
    · rw [hnonces]
      exact hincreasing.sublist ((replies_sublist xs).cons_cons 0)
    · rw [hnonces]
      rcases hsession.replies_start with hnil | hstart
      · exact .inl (by rw [hnil]; rfl)
      · exact .inr hstart
    · intro herror
      obtain ⟨requestNonce, code, closed, rfl⟩ := ends_with_error hsession hwritten herror
      rw [flatMap_delivered_errorAndClose] at hquiet
      exact replyBytes_ne_nil _ hquiet
  · -- the error is delivered after the answers
    obtain ⟨hok, hrefuses⟩ := hsession.refuses_iff.mp ⟨_, _, _, _, rfl⟩
    have hlen := length_of_served_all hsession hok
    have hreplies : (front ++ events).flatMap delivered =
        (xs.map (fun x : Exchange => (x.sendNonce, x.response)) ++
          [(1, DaemonFrame.error requestNonce code)]).flatMap replyBytes := by
      rw [hdelivered, flatMap_delivered_errorAndClose, filterMap_reply_of_ok hok]
      simp
    have hnonces : receivedNonces (front ++ events) = xs.map (·.sendNonce) ++ [1] := by
      rw [receivedNonces_of_replies hreplies]
      simp
    by_cases hnone : xs = []
    · refine iff_of_true (noncesInOrder_of_increasing ?_ ?_) fun herror => ?_
      · rw [hnonces, hnone]
        decide
      · rw [hnonces, hnone]
        exact .inr rfl
      · rw [hnone] at hlen
        exact herror.answered (List.length_eq_zero_iff.mp hlen.symm)
    · refine iff_of_false (fun horder => ?_) (not_not_intro ⟨?_, hrefuses, ?_⟩)
      · obtain ⟨x, xs', rfl⟩ := List.exists_cons_of_ne_nil hnone
        have hpositive : 0 < x.sendNonce := (List.pairwise_cons.mp hincreasing).1 _ (by simp)
        have hbelow : x.sendNonce < 1 := by
          have hincr := horder.increasing
          rw [hnonces] at hincr
          exact (List.pairwise_cons.mp hincr).1 1 (by simp)
        rw [UInt64.lt_iff_toNat_lt] at hpositive hbelow
        have hone : (1 : UInt64).toNat = 1 := rfl
        have hzero : (0 : UInt64).toNat = 0 := rfl
        omega
      · rw [← List.length_pos_iff_ne_nil, ← hlen]
        exact List.length_pos_iff_ne_nil.mpr hnone
      · intro i hi
        apply hwritten
        rcases hi.lt_or_eq with hlt | rfl
        · have hi' : i < xs.length := hlen ▸ hlt
          rw [List.getElem?_append_left (by simpa using hi'), List.getElem?_map,
            List.getElem?_eq_getElem hi', Option.map_some, hok _ (List.getElem_mem hi')]
        · rw [← hlen, List.getElem?_append_right (by simp), List.length_map, Nat.sub_self]
          rfl

end SessionNonces

section Connection

variable {W : Type} (extractSpkiHash : Bytes → Except Crypto.Error SpkiHash)
  (writes : ℕ → Except IoError Unit) (answer : W → (o : Op) → Ans o × W) (w : W)
  (stream : PeerStream) (rounds reads : ℕ) (peerAddr : SocketAddr)

/-- The events of a connection task on the stream of a peer. -/
def connectionEvents : List TaskEvent :=
  (exec (withInbound (answering (withWrites writes answer)))
    (run extractSpkiHash (stream.envelopes.length + 1 + rounds) (stream.reads.length + 1 + reads)
      peerAddr) (stream.inbound, (0, w))).events

/-- A peer that does not pass the check receives at most one error. -/
theorem connection_noncesInOrder (h : admittedPeer extractSpkiHash answer w = none) :
    NoncesInOrder
      (connectionEvents extractSpkiHash writes answer w stream rounds reads peerAddr) := by
  obtain ⟨front, hfront, hrun⟩ := exec_run extractSpkiHash (withWrites writes answer) stream.inbound
    (0, w) (stream.envelopes.length + 1 + rounds) (stream.reads.length + 1 + reads) peerAddr
  have hnone : admittedPeer extractSpkiHash (withWrites writes answer) (0, w) = none := h
  simp only [hnone] at hrun
  apply noncesInOrder_of_first
  rw [connectionEvents]
  rcases hrun with hevents | ⟨written, closed, hevents⟩
  · rw [hevents]
    exact .inl (flatMap_delivered_of_no_writes hfront)
  · rw [hevents, List.flatMap_append, flatMap_delivered_of_no_writes hfront, List.nil_append]
    cases written with
    | error e => exact .inl rfl
    | ok _ => exact .inr ⟨_, flatMap_delivered_errorAndClose 0 .revoked closed⟩

/-- A peer that passes the check receives nonces in order unless an error is written
after an answer. -/
theorem connection_noncesInOrder_iff {peerSpki : SpkiHash}
    (h : admittedPeer extractSpkiHash answer w = some peerSpki) :
    NoncesInOrder (connectionEvents extractSpkiHash writes answer w stream rounds reads peerAddr) ↔
      ¬ ErrorAfterAnswer stream.envelopes writes := by
  obtain ⟨front, hfront, hrun⟩ := exec_run extractSpkiHash (withWrites writes answer) stream.inbound
    (0, w) (stream.envelopes.length + 1 + rounds) (stream.reads.length + 1 + reads) peerAddr
  have hsome : admittedPeer extractSpkiHash (withWrites writes answer) (0, w) = some peerSpki := h
  simp only [hsome] at hrun
  obtain ⟨w', hevents⟩ := hrun
  obtain ⟨xs, tail, hsession, hlog⟩ :=
    exec_protocolLoop (withWrites writes answer) peerSpki stream w' rounds reads
  obtain ⟨n, hwrites⟩ := exec_writeOutcomes writes answer
    (run extractSpkiHash (stream.envelopes.length + 1 + rounds)
      (stream.reads.length + 1 + reads) peerAddr) stream.inbound 0 w
  have hquiet : front.filterMap writeOutcome = [] := List.filterMap_eq_nil_iff.mpr hfront
  rw [hevents, List.filterMap_append, hquiet, List.nil_append] at hwrites
  rw [connectionEvents, hevents]
  exact session_noncesInOrder_iff hsession hlog hwrites hfront

/-- The nonces that a connection task writes increase strictly from one, and the
receiver of the peer accepts them, unless the peer passes the check before the loop
and an error is written after an answer. -/
theorem outbound_nonces_in_order_iff :
    NoncesInOrder (connectionEvents extractSpkiHash writes answer w stream rounds reads peerAddr) ↔
      ¬ ((admittedPeer extractSpkiHash answer w).isSome ∧
        ErrorAfterAnswer stream.envelopes writes) := by
  cases hpeer : admittedPeer extractSpkiHash answer w with
  | none =>
      have horder := connection_noncesInOrder extractSpkiHash writes answer w stream rounds reads
        peerAddr hpeer
      exact iff_of_true horder (by simp)
  | some peerSpki =>
      rw [connection_noncesInOrder_iff extractSpkiHash writes answer w stream rounds reads peerAddr
        hpeer]
      simp

end Connection

/-! ## A replayed request -/

/-- The same request twice in one read. -/
def lockTwice : PeerStream where
  reads := [wireBytes lockRequest ++ wireBytes lockRequest]
  ending := .eof
  nonempty := by decide
  small := by decide

private theorem envelopes_lockTwice : lockTwice.envelopes = [lockRequest, lockRequest] := by
  have hbytes : lockTwice.reads.flatten = [lockRequest, lockRequest].flatMap wireBytes ++ [] := by
    decide
  rw [PeerStream.envelopes, hbytes, split_wireBytes_append (by decide),
    envelopeFramer.split_more envelopeFramer.next_nil]
  rfl

/-- The phone passes the check. -/
theorem phone_admitted : admittedPeer (fun _ => .ok phoneKey)
    (fun w o => (succeeding pairedContents o, w)) () = some phoneKey := by
  decide

/-- A phone that repeats its first request receives two envelopes with nonce one. -/
theorem repeated_request_repeats_nonce :
    ¬ NoncesInOrder (connectionEvents (fun _ => .ok phoneKey) (fun _ => .ok ())
      (fun w o => (succeeding pairedContents o, w)) () lockTwice 0 0 phoneAddress) := by
  rw [connection_noncesInOrder_iff _ _ _ _ _ _ _ _ phone_admitted, envelopes_lockTwice]
  have hservable : servable 0 [lockRequest, lockRequest] = [lockRequest] := by decide
  refine not_not_intro ⟨?_, ⟨?_, ?_⟩, fun _ _ => rfl⟩
  · rw [hservable]
    simp
  · rw [hservable]
    simp
  · rw [hservable]
    decide

end Daemon
end WakeMyPc
