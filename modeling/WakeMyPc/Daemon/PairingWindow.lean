import WakeMyPc.Daemon.PairingHistory

/-!
# A pairing window fits its history

Each part of the `pair` subcommand keeps what its history shows of the handshake, the
contents and the file.

Main results:

- Theorem `takeCode_pairs`: taking a code, in all its exits.
- Theorem `run_pairs`: all operations of the subcommand fit its history, and it succeeds
  only when it has saved and acknowledged a pairing.
-/

namespace WakeMyPc
namespace Daemon
namespace PairingFlow

open Foundations
open Foundations.Prog (loop safe_bind safe_call_bind safe_loop)
open Protocol
open Crypto (Draw NonceCounter PairingHandshake PairingTransition)
open Crypto.Lifecycle (Played Call Called)

variable {extractSpkiHash : Bytes → Except Crypto.Error SpkiHash} {h : List TaskEvent}
  {s : WindowState} {reads : ℕ}

/-! ## Reading -/

/-- The connection has shown a key and the bytes of the buffer, and no clock was read. -/
structure Reading (extractSpkiHash : Bytes → Except Crypto.Error SpkiHash)
    (connection : List TaskEvent) (clientSpki : SpkiHash) (buf : Bytes) : Prop where
  unread : connection.any (·.op.isClock) = false
  peer : peerOf extractSpkiHash connection = some clientSpki
  bytes : received connection = buf

theorem Reading.recv {connection : List TaskEvent} {clientSpki : SpkiHash} {buf : Bytes}
    (hreading : Reading extractSpkiHash connection clientSpki buf)
    (result : Except IoError Bytes) :
    Reading extractSpkiHash (connection ++ [⟨.recv, result⟩]) clientSpki
      (buf ++ receivedBytes ⟨.recv, result⟩) where
  unread := by rw [List.any_append, hreading.unread]; rfl
  peer := by simpa [peerOf, List.findSome?_append, presentedKey] using hreading.peer
  bytes := by simp [received, ← hreading.bytes]

/-- A connection that has shown a key offers what its message says. -/
theorem Reading.offer {connection : List TaskEvent} {clientSpki : SpkiHash} {buf : Bytes}
    (hreading : Reading extractSpkiHash connection clientSpki buf) :
    offerOf extractSpkiHash connection =
      match messageOf connection with
      | some (.pair phoneName pairingCode) => some ⟨phoneName, pairingCode, clientSpki⟩
      | _ => none := by
  unfold offerOf
  rw [if_neg (by simp [hreading.unread]), hreading.peer]
  split <;> simp_all

/-- The message of a connection is the one at the front of the buffer. -/
theorem Reading.message {connection : List TaskEvent} {clientSpki : SpkiHash} {buf rest : Bytes}
    {envelope : Envelope} (hreading : Reading extractSpkiHash connection clientSpki buf)
    (hparse : parseBuffer buf = .ok (some (envelope, rest))) :
    messageOf connection = (decodeClientFrame envelope.payload).toOption := by
  rw [messageOf, hreading.bytes, hparse]

theorem Reading.unparsed {connection : List TaskEvent} {clientSpki : SpkiHash} {buf : Bytes}
    (hreading : Reading extractSpkiHash connection clientSpki buf)
    (hparse : ∀ frame, parseBuffer buf ≠ .ok (some frame)) :
    offerOf extractSpkiHash connection = none := by
  apply offerOf_message
  intro phoneName pairingCode hmessage
  unfold messageOf at hmessage
  rw [hreading.bytes] at hmessage
  split at hmessage
  · next hframe => exact hparse _ hframe
  · cases hmessage

/-- Reading the only envelope leaves the window as it is. -/
theorem readOneEnvelope_pairs {clientSpki : SpkiHash} (hkeeps : PairKeeps extractSpkiHash h s)
    (hclear : Clear h)
    (hreading : Reading extractSpkiHash (seen extractSpkiHash h).connection clientSpki []) :
    (readOneEnvelope reads []).Safe (PairOp extractSpkiHash) h fun h' result =>
      PairKeeps extractSpkiHash h' s ∧ Clear h' ∧
        match result with
        | .error _ => offerOf extractSpkiHash (seen extractSpkiHash h').connection = none
        | .ok (envelope, rest) => ∃ buf, parseBuffer buf = .ok (some (envelope, rest)) ∧
            Reading extractSpkiHash (seen extractSpkiHash h').connection clientSpki buf := by
  refine safe_loop (fun h buf => PairKeeps extractSpkiHash h s ∧ Clear h ∧
    Reading extractSpkiHash (seen extractSpkiHash h).connection clientSpki buf) ?_ reads
    ⟨hkeeps, hclear, hreading⟩
  rintro h buf ⟨hkeeps, hclear, hreading⟩
  unfold readOneEnvelopeRound
  split
  · next e hparse =>
      exact ⟨hkeeps, hclear, hreading.unparsed fun frame hframe => by simp [hparse] at hframe⟩
  · next envelope rest hparse => exact ⟨hkeeps, hclear, buf, hparse, hreading⟩
  · next hparse =>
      refine ⟨hclear, fun (result : Except IoError Bytes) => ?_⟩
      have hkeeps' : PairKeeps extractSpkiHash (h ++ [⟨.recv, result⟩]) s := hkeeps.next rfl id
      have hclear' : Clear (h ++ [⟨.recv, result⟩]) := clear_concat h rfl rfl
      have hreading' := hreading.recv result
      rw [← connection_concat h rfl] at hreading'
      have hunparsed : ∀ frame, parseBuffer buf ≠ .ok (some frame) := by simp [hparse]
      cases result with
      | error e =>
          rw [receivedBytes, List.append_nil] at hreading'
          exact ⟨hkeeps', hclear', hreading'.unparsed hunparsed⟩
      | ok chunk =>
          change (if _ then _ else _ : Task _).Safe _ _ _
          split
          · next hempty =>
              rw [receivedBytes, List.eq_nil_of_length_eq_zero hempty, List.append_nil]
                at hreading'
              rw [List.eq_nil_of_length_eq_zero hempty] at hkeeps' hclear' ⊢
              exact ⟨hkeeps', hclear', hreading'.unparsed hunparsed⟩
          · exact ⟨hkeeps', hclear', hreading'⟩

/-! ## Answering -/

/-- An error is one write, and concludes nothing. -/
theorem sendError_pairs (hclear : Clear h) (requestNonce : UInt64) (code : ProtocolError) :
    (sendError NonceCounter.new requestNonce code).Safe (PairOp extractSpkiHash) h
      fun h' _ => ∃ bytes sent, h' = h ++ [⟨.send bytes, sent⟩] ∧ ¬ IsAck bytes := by
  have hack := not_isAck_error 1 requestNonce code
  rw [sendError, sendFrame_new]
  refine ⟨⟨hclear.2, iff_of_false hack (by simp [hclear.1])⟩, fun sent => ?_⟩
  cases sent <;> exact ⟨_, _, rfl, hack⟩

/-- What a connection leaves behind: a pairing that was saved and acknowledged, or a window
for the next connection. -/
def AttemptEnds (extractSpkiHash : Bytes → Except Crypto.Error SpkiHash) (h : List TaskEvent) :
    Except AttemptError Bool × WindowState → Prop
  | (.ok true, _) => Finished h
  | (_, s) => RoundKeeps extractSpkiHash h s

/-- A refused message leaves the window as it is. -/
theorem refuse_pairs (hkeeps : RoundKeeps extractSpkiHash h s) (requestNonce : UInt64)
    (code : ProtocolError) :
    (refuse s requestNonce code).Safe (PairOp extractSpkiHash) h (AttemptEnds extractSpkiHash) := by
  refine (safe_bind _ _ _ _).mpr ((sendError_pairs hkeeps.clear requestNonce code).mono ?_)
  rintro h' ⟨sent, nonces⟩ ⟨bytes, result, rfl, hack⟩
  have hnext := hkeeps.next (e := ⟨.send bytes, result⟩) rfl hack rfl rfl rfl rfl
  cases sent <;> exact hnext

/-! ## Taking a code -/

/-- An offer that is not accepted neither pairs nor takes a pairing. -/
theorem isPaired_acceptPair {handshake after : PairingHandshake} {nowMs : UInt64}
    {pairingCode : UInt32} {phoneName : RustString} {clientSpki : SpkiHash}
    {transition : PairingTransition}
    (hpair : handshake.acceptPair nowMs pairingCode phoneName clientSpki = (transition, after))
    (hother : ∀ record, transition ≠ .succeeded record) :
    IsPaired after ↔ IsPaired handshake := by
  have hcalled :=
    Crypto.Lifecycle.called_acceptPair handshake nowMs pairingCode phoneName clientSpki
  rw [hpair] at hcalled
  cases hcalled with
  | notInWindow => exact Iff.rfl
  | succeeded => exact absurd rfl (hother _)
  | offerExpired hstate => simp [IsPaired, hstate]
  | wrong hstate => simp [IsPaired, hstate]
  | tooManyAttempts hstate => simp [IsPaired, hstate]

/-- A pairing has been accepted, on the copy and in the connection of the history. -/
structure Accepted (extractSpkiHash : Bytes → Except Crypto.Error SpkiHash) (h : List TaskEvent)
    (after : PairingHandshake) : Prop where
  opened : (seen extractSpkiHash h).openedAt.isSome = true
  handshake : (seen extractSpkiHash h).played.handshake = after
  unread : (seen extractSpkiHash h).connection.any (·.op.isClock) = true
  copy : ∃ copy, copyOf h = some copy
  paired : IsPaired after

namespace Accepted

variable {after : PairingHandshake} {contents : KeystoreContents}

theorem save (haccepted : Accepted extractSpkiHash h after) (contents : KeystoreContents)
    (saved : Except KeystoreError Unit) :
    Accepted extractSpkiHash (h ++ [⟨.saveFile contents, saved⟩]) after where
  opened := (seen_save h contents saved).1 ▸ haccepted.opened
  handshake := (seen_save h contents saved).2 ▸ haccepted.handshake
  unread := by
    rw [connection_concat h rfl]
    exact isClock_concat _ haccepted.unread
  copy := by
    rw [copyOf_saveFile]
    exact haccepted.copy
  paired := haccepted.paired

theorem send (haccepted : Accepted extractSpkiHash h after) (bytes : Bytes)
    (sent : Except IoError Unit) :
    Accepted extractSpkiHash (h ++ [⟨.send bytes, sent⟩]) after where
  opened := (seen_passive h (e := ⟨.send bytes, sent⟩) rfl).1 ▸ haccepted.opened
  handshake := (seen_passive h (e := ⟨.send bytes, sent⟩) rfl).2 ▸ haccepted.handshake
  unread := by
    rw [connection_concat h rfl]
    exact isClock_concat _ haccepted.unread
  copy := by
    rw [copyOf_concat h rfl]
    exact haccepted.copy
  paired := haccepted.paired

/-- Once something has failed, the window goes on with the pairing. -/
theorem round (haccepted : Accepted extractSpkiHash h after) (hfailed : Failed h)
    (hclear : Clear h) : RoundKeeps extractSpkiHash h ⟨after, contents⟩ where
  opened := haccepted.opened
  handshake := haccepted.handshake
  copy := by
    obtain ⟨copy, hcopy⟩ := haccepted.copy
    exact ⟨copy, hcopy, fun hnot => absurd haccepted.paired hnot⟩
  unsaved := fun hnot => absurd haccepted.paired hnot
  paired := fun _ => hfailed
  settled := offerOf_clock haccepted.unread
  clear := hclear

end Accepted

/-- A save that fails is all that has been tried. -/
theorem Unsaved.saveFailed (hunsaved : Unsaved h) (contents : KeystoreContents)
    (e : KeystoreError) : Failed (h ++ [⟨.saveFile contents, Except.error e⟩]) := by
  refine .inl ⟨⟨contents, e, List.mem_append_right _ List.mem_cons_self⟩, ?_⟩
  rintro ⟨x, hx, hsaved⟩
  rcases List.mem_append.mp hx with hold | hnew
  · exact hunsaved.not_stored ⟨x, hold, hsaved⟩
  · rw [List.mem_singleton.mp hnew] at hsaved
    cases hsaved

/-- An acknowledgement that fails leaves what was saved. -/
theorem failed_of_ack (h : List TaskEvent) (contents : KeystoreContents) {bytes : Bytes}
    (hack : IsAck bytes) (e : IoError) :
    Failed (h ++ [⟨.saveFile contents, Except.ok ()⟩] ++ [⟨.send bytes, Except.error e⟩]) := by
  have hstored : Stored (h ++ [⟨.saveFile contents, Except.ok ()⟩]) :=
    ⟨_, List.mem_append_right _ List.mem_cons_self, rfl⟩
  exact .inr ⟨hstored.append _, bytes, e, List.mem_append_right _ List.mem_cons_self, hack⟩

section TakeCode

variable {phoneName : RustString} {pairingCode : UInt32} {clientSpki : SpkiHash}

/-- Reading the clock for an offer makes the offer. -/
theorem played_offer (hkeeps : PairKeeps extractSpkiHash h s)
    (hoffer : offerOf extractSpkiHash (seen extractSpkiHash h).connection =
      some ⟨phoneName, pairingCode, clientSpki⟩) (now : UInt64) :
    (seen extractSpkiHash (h ++ [⟨.clock, now⟩])).openedAt.isSome = true ∧
      (seen extractSpkiHash (h ++ [⟨.clock, now⟩])).played.handshake =
        (s.handshake.acceptPair now pairingCode phoneName clientSpki).2 := by
  obtain ⟨hopened, hplayed⟩ := played_clock hkeeps.opened now
  refine ⟨hopened ▸ hkeeps.opened, ?_⟩
  rw [hplayed, callAt, hoffer, ← hkeeps.handshake]
  rfl

theorem connection_clock (h : List TaskEvent) (now : UInt64) :
    (seen extractSpkiHash (h ++ [⟨.clock, now⟩])).connection.any (·.op.isClock) = true := by
  rw [connection_concat h rfl, List.any_append]
  exact Bool.or_true _

/-- An offer that is not accepted leaves the contents alone. -/
theorem roundKeeps_of_refused {transition : PairingTransition} {after : PairingHandshake}
    (hkeeps : PairKeeps extractSpkiHash h s)
    (hoffer : offerOf extractSpkiHash (seen extractSpkiHash h).connection =
      some ⟨phoneName, pairingCode, clientSpki⟩) {now : UInt64}
    (hpair : s.handshake.acceptPair now pairingCode phoneName clientSpki = (transition, after))
    (hother : ∀ record, transition ≠ .succeeded record) :
    RoundKeeps extractSpkiHash (h ++ [⟨.clock, now⟩]) { s with handshake := after } := by
  obtain ⟨hopened, hplayed⟩ := played_offer hkeeps hoffer now
  have hpaired := isPaired_acceptPair hpair hother
  obtain ⟨copy, hcopy, hcontents⟩ := hkeeps.copy
  refine ⟨⟨hopened, by rw [hplayed, hpair], ?_, ?_, ?_⟩, offerOf_clock (connection_clock h now),
    clear_concat h rfl rfl⟩
  · exact ⟨copy, (copyOf_concat h rfl).trans hcopy, fun hnot => hcontents (mt hpaired.mpr hnot)⟩
  · exact fun hnot => (hkeeps.unsaved (mt hpaired.mpr hnot)).concat id
  · exact fun h => (hkeeps.paired (hpaired.mp h)).concat rfl

/-- An offer that is accepted justifies its save. -/
theorem justifiedSave_of_succeeded {record : Crypto.PairingRecord} {after : PairingHandshake}
    (hkeeps : PairKeeps extractSpkiHash h s)
    (hoffer : offerOf extractSpkiHash (seen extractSpkiHash h).connection =
      some ⟨phoneName, pairingCode, clientSpki⟩) {now : UInt64}
    (hpair : s.handshake.acceptPair now pairingCode phoneName clientSpki =
      (.succeeded record, after)) :
    JustifiedSave extractSpkiHash (h ++ [⟨.clock, now⟩])
      ((Change.pair (PairingRecord.fromCore record)).apply s.contents) := by
  obtain ⟨-, hunpaired⟩ := acceptPair_succeeded hpair
  have hnot : ¬ IsPaired s.handshake := not_exists.mpr hunpaired
  obtain ⟨copy, hcopy, hcontents⟩ := hkeeps.copy
  have hsucceeded : ((seen extractSpkiHash h).played.handshake.acceptPair now pairingCode phoneName
      clientSpki).1 = .succeeded record := by
    rw [hkeeps.handshake, hpair]
  obtain ⟨w, since, hwindow, hopen, hcode, hfew, rfl⟩ :=
    Crypto.Lifecycle.window_of_succeeded (told_seen h) hsucceeded
  refine ⟨h, now, _, copy, w, since, rfl, hkeeps.unsaved hnot, hoffer, hwindow, hcode, hopen, hfew,
    hcopy, ?_⟩
  rw [hcontents hnot]
  rfl

theorem accepted_of_succeeded {record : Crypto.PairingRecord} {after : PairingHandshake}
    (hkeeps : PairKeeps extractSpkiHash h s)
    (hoffer : offerOf extractSpkiHash (seen extractSpkiHash h).connection =
      some ⟨phoneName, pairingCode, clientSpki⟩) {now : UInt64}
    (hpair : s.handshake.acceptPair now pairingCode phoneName clientSpki =
      (.succeeded record, after)) :
    Accepted extractSpkiHash (h ++ [⟨.clock, now⟩]) after ∧ Unsaved (h ++ [⟨.clock, now⟩]) := by
  obtain ⟨hopened, hplayed⟩ := played_offer hkeeps hoffer now
  obtain ⟨hstate, hunpaired⟩ := acceptPair_succeeded hpair
  obtain ⟨copy, hcopy, -⟩ := hkeeps.copy
  refine ⟨⟨hopened, by rw [hplayed, hpair], connection_clock h now, ⟨copy, ?_⟩, record, hstate⟩,
    ?_⟩
  · exact (copyOf_concat h rfl).trans hcopy
  · exact (hkeeps.unsaved (not_exists.mpr hunpaired)).concat id

/-- Taking the code of the message that has been read. -/
theorem takeCode_pairs (hkeeps : PairKeeps extractSpkiHash h s) (hclear : Clear h)
    (hoffer : offerOf extractSpkiHash (seen extractSpkiHash h).connection =
      some ⟨phoneName, pairingCode, clientSpki⟩) (requestNonce : UInt64) :
    (takeCode s clientSpki requestNonce phoneName pairingCode).Safe (PairOp extractSpkiHash) h
      (AttemptEnds extractSpkiHash) := by
  refine (safe_call_bind Op.clock _ _ _).mpr ⟨hclear, fun (now : UInt64) => ?_⟩
  cases hpair : s.handshake.acceptPair now pairingCode phoneName clientSpki with
  | mk transition after =>
      cases transition with
      | started code => exact roundKeeps_of_refused hkeeps hoffer hpair (by simp)
      | expired => exact roundKeeps_of_refused hkeeps hoffer hpair (by simp)
      | noOp => exact roundKeeps_of_refused hkeeps hoffer hpair (by simp)
      | rejected reason =>
          have hround := roundKeeps_of_refused hkeeps hoffer hpair (by simp)
          refine (safe_bind (sendError NonceCounter.new requestNonce .notPaired) _ _ _).mpr
            ((sendError_pairs hround.clear requestNonce .notPaired).mono ?_)
          rintro h' ⟨sent, nonces⟩ ⟨bytes, result, rfl, hack⟩
          have hsent := hround.next (e := ⟨.send bytes, result⟩) rfl hack rfl rfl rfl rfl
          cases sent with
          | error e => exact hsent
          | ok _ =>
              refine ⟨hsent.clear, fun closed => ?_⟩
              exact hsent.next (e := ⟨.shutdown, closed⟩) rfl id rfl rfl rfl rfl
      | succeeded record =>
          have hsave := justifiedSave_of_succeeded hkeeps hoffer hpair
          obtain ⟨haccepted, hunsaved⟩ := accepted_of_succeeded hkeeps hoffer hpair
          let contents := (Change.pair (PairingRecord.fromCore record)).apply s.contents
          refine ⟨hsave, fun (saved : Except KeystoreError Unit) => ?_⟩
          have hsaved := haccepted.save contents saved
          cases saved with
          | error e =>
              refine hsaved.round (hunsaved.saveFailed contents e) ⟨?_, ?_⟩
              · rw [savedLast_concat]
                rfl
              · rw [acceptedLast_concat]
                rfl
          | ok _ =>
              have hack : IsAck (responseBytes 1 (.ack requestNonce)) := ⟨1, requestNonce, rfl⟩
              refine (safe_bind (sendAck NonceCounter.new requestNonce) _ _ _).mpr ?_
              rw [sendAck, sendFrame_new]
              refine ⟨⟨?_, iff_of_true hack ?_⟩, fun (sent : Except IoError Unit) => ?_⟩
              · rw [acceptedLast_concat]
                rfl
              · rw [savedLast_concat]
                rfl
              · have hsent := hsaved.send (responseBytes 1 (.ack requestNonce)) sent
                have hclear := clear_concat
                  (e := ⟨.send (responseBytes 1 (.ack requestNonce)), sent⟩)
                  (h ++ [⟨.clock, now⟩] ++ [⟨.saveFile contents, Except.ok ()⟩]) rfl rfl
                cases sent with
                | error e => exact hsent.round (failed_of_ack _ contents hack e) hclear
                | ok _ =>
                    refine ⟨hclear, fun closed => ?_⟩
                    exact ⟨h ++ [⟨.clock, now⟩], contents, _, closed, hunsaved, hack, by simp; rfl⟩

end TakeCode

/-! ## One connection -/

/-- The key of the peer is known once its certificates are. -/
theorem peerSpkiFromTls_pairs (hkeeps : PairKeeps extractSpkiHash h s) (hclear : Clear h)
    (hfresh : (seen extractSpkiHash h).connection = []) :
    (peerSpkiFromTls extractSpkiHash).Safe (PairOp extractSpkiHash) h fun h' result =>
      PairKeeps extractSpkiHash h' s ∧ Clear h' ∧
        match result with
        | .error _ => offerOf extractSpkiHash (seen extractSpkiHash h').connection = none
        | .ok clientSpki =>
            Reading extractSpkiHash (seen extractSpkiHash h').connection clientSpki [] := by
  refine ⟨hclear, fun (certs : Option (List Bytes)) => ?_⟩
  let shown : TaskEvent := ⟨.peerCertificates, certs⟩
  have hconnection : (seen extractSpkiHash (h ++ [shown])).connection = [shown] := by
    rw [connection_concat h rfl, hfresh]
    rfl
  have hpeer : peerOf extractSpkiHash [shown] = (leafSpki extractSpkiHash certs).toOption := by
    rw [peerOf, List.findSome?_singleton]
    rfl
  refine ⟨hkeeps.next (e := shown) rfl id, clear_concat (e := shown) h rfl rfl, ?_⟩
  change match leafSpki extractSpkiHash certs with
    | .error _ => offerOf extractSpkiHash (seen extractSpkiHash (h ++ [shown])).connection = none
    | .ok clientSpki =>
        Reading extractSpkiHash (seen extractSpkiHash (h ++ [shown])).connection clientSpki []
  rw [hconnection]
  cases hleaf : leafSpki extractSpkiHash certs with
  | error e => exact offerOf_peer (by rw [hpeer, hleaf]; rfl)
  | ok clientSpki => exact ⟨rfl, by rw [hpeer, hleaf]; rfl, rfl⟩

/-- One connection, from the end of its TLS handshake on. -/
theorem handlePairAttempt_pairs (hkeeps : PairKeeps extractSpkiHash h s) (hclear : Clear h)
    (hfresh : (seen extractSpkiHash h).connection = []) :
    (handlePairAttempt extractSpkiHash reads s).Safe (PairOp extractSpkiHash) h
      (AttemptEnds extractSpkiHash) := by
  refine (safe_bind _ _ _ _).mpr ((peerSpkiFromTls_pairs hkeeps hclear hfresh).mono ?_)
  rintro h₁ peer ⟨hkeeps₁, hclear₁, hpeer⟩
  cases peer with
  | error e => exact ⟨hkeeps₁, hpeer, hclear₁⟩
  | ok clientSpki =>
      refine (safe_bind _ _ _ _).mpr ((readOneEnvelope_pairs hkeeps₁ hclear₁ hpeer).mono ?_)
      rintro h₂ result ⟨hkeeps₂, hclear₂, hread⟩
      rcases result with e | ⟨envelope, rest⟩
      · exact ⟨hkeeps₂, hread, hclear₂⟩
      · obtain ⟨buf, hparse, hreading⟩ := hread
        have hmessage := hreading.message hparse
        have hoffer := hreading.offer
        rw [hmessage] at hoffer
        -- a message that is not an offer is refused
        have hrefuse : ∀ code, offerOf extractSpkiHash (seen extractSpkiHash h₂).connection =
            none → (refuse s envelope.nonce code).Safe (PairOp extractSpkiHash) h₂
              (AttemptEnds extractSpkiHash) :=
          fun code hsettled => refuse_pairs ⟨hkeeps₂, hsettled, hclear₂⟩ envelope.nonce code
        dsimp only
        cases hdecode : decodeClientFrame envelope.payload with
        | error e =>
            rw [hdecode] at hoffer
            exact hrefuse _ hoffer
        | ok frame =>
            rw [hdecode] at hoffer
            cases frame with
            | pair phoneName pairingCode => exact takeCode_pairs hkeeps₂ hclear₂ hoffer _
            | _ => exact hrefuse _ hoffer

/-! ## The window -/

/-- How the subcommand ends: with a pairing that was saved and acknowledged, or without a
phone that knows of one. -/
def Ended (h : List TaskEvent) : Except PairError Unit → Prop
  | .ok () => Finished h
  | .error _ => GivenUp h

/-- Reading the clock without an offer looks at the window. -/
theorem played_tick (hkeeps : RoundKeeps extractSpkiHash h s) (now : UInt64) :
    (seen extractSpkiHash (h ++ [⟨.clock, now⟩])).openedAt.isSome = true ∧
      (seen extractSpkiHash (h ++ [⟨.clock, now⟩])).played.handshake =
        (s.handshake.tick now).2 := by
  obtain ⟨hopened, hplayed⟩ := played_clock hkeeps.opened now
  refine ⟨hopened ▸ hkeeps.opened, ?_⟩
  rw [hplayed, callAt, hkeeps.settled, ← hkeeps.handshake]
  rfl

/-- A window that has not expired is as it was. -/
theorem roundKeeps_of_tick (hkeeps : RoundKeeps extractSpkiHash h s) {now : UInt64}
    (hsame : (s.handshake.tick now).2 = s.handshake) :
    RoundKeeps extractSpkiHash (h ++ [⟨.clock, now⟩]) s := by
  obtain ⟨hopened, hplayed⟩ := played_tick hkeeps now
  obtain ⟨copy, hcopy, hcontents⟩ := hkeeps.copy
  refine ⟨⟨hopened, hplayed.trans hsame, ⟨copy, ?_, hcontents⟩, ?_, ?_⟩,
    offerOf_clock (connection_clock h now), clear_concat h rfl rfl⟩
  · exact (copyOf_concat h rfl).trans hcopy
  · exact fun hnot => (hkeeps.unsaved hnot).concat id
  · exact fun hpaired => (hkeeps.paired hpaired).concat rfl

/-- What a round of the accept loop leaves behind. -/
def RoundEnds (extractSpkiHash : Bytes → Except Crypto.Error SpkiHash) (h : List TaskEvent) :
    WindowState ⊕ Except PairError Unit → Prop
  | .inl s => RoundKeeps extractSpkiHash h s ∧ s.handshake.state ≠ .idle
  | .inr result => Ended h result

/-- After a failed attempt the window goes on unless it has closed. -/
theorem nextRound_pairs (hkeeps : RoundKeeps extractSpkiHash h s) :
    (if s.handshake.state = .idle then return .inr (.error .windowClosed) else return .inl s :
      Task (WindowState ⊕ Except PairError Unit)).Safe (PairOp extractSpkiHash) h
        (RoundEnds extractSpkiHash) := by
  split
  · exact ⟨hkeeps.clear, hkeeps.told⟩
  · next hidle => exact ⟨hkeeps, hidle⟩

/-- One round of the accept loop. -/
theorem acceptRound_pairs (hkeeps : RoundKeeps extractSpkiHash h s)
    (hlive : s.handshake.state ≠ .idle) :
    (acceptRound extractSpkiHash reads s).Safe (PairOp extractSpkiHash) h
      (RoundEnds extractSpkiHash) := by
  refine (safe_call_bind Op.clock _ _ _).mpr ⟨hkeeps.clear, fun (now : UInt64) => ?_⟩
  split
  · exact GivenUp.next hkeeps.told rfl rfl
  · next transition after hopen htick =>
      obtain rfl := tick_eq htick hopen
      have hkeeps₁ := roundKeeps_of_tick hkeeps (congrArg Prod.snd htick)
      refine ⟨hkeeps₁.clear, fun (tcp : Option (Except IoError Unit)) => ?_⟩
      rcases tcp with _ | e | _
      · exact GivenUp.next hkeeps₁.told rfl rfl
      · exact GivenUp.next hkeeps₁.told rfl rfl
      · have hkeeps₂ : PairKeeps extractSpkiHash
            (h ++ [⟨.clock, now⟩] ++ [⟨.acceptTcp, some (.ok ())⟩]) s :=
          hkeeps₁.toPairKeeps.next rfl id
        refine ⟨⟨rfl, ?_, ?_⟩, fun (tls : Except IoError Unit) => ?_⟩
        · rw [acceptedLast_concat]
          rfl
        · rw [hkeeps₂.handshake]
          rcases isAwaiting_or_isPaired hlive with hawaiting | hpaired
          · exact .inl ⟨hawaiting, hkeeps₂.unsaved (not_isPaired_of_isAwaiting hawaiting)⟩
          · exact .inr ⟨hpaired, hkeeps₂.paired hpaired⟩
        · have hkeeps₃ := hkeeps₂.next (e := ⟨.handshake .pairingWindow, tls⟩) rfl id
          have hclear₃ : Clear (h ++ [⟨.clock, now⟩] ++ [⟨.acceptTcp, some (.ok ())⟩] ++
              [⟨.handshake .pairingWindow, tls⟩]) := clear_concat _ rfl rfl
          have hfresh : (seen extractSpkiHash (h ++ [⟨.clock, now⟩] ++
              [⟨.acceptTcp, some (.ok ())⟩] ++
                [⟨.handshake .pairingWindow, tls⟩])).connection = [] := by
            rw [seen_concat]
            rfl
          cases tls with
          | error e => exact ⟨⟨hkeeps₃, by rw [hfresh]; rfl, hclear₃⟩, hlive⟩
          | ok _ =>
              refine (safe_bind (handlePairAttempt extractSpkiHash reads s) _ _ _).mpr
                ((handlePairAttempt_pairs hkeeps₃ hclear₃ hfresh).mono ?_)
              rintro h' ⟨verdict, s'⟩ hends
              rcases verdict with e | _ | _
              · exact nextRound_pairs hends
              · exact nextRound_pairs hends
              · exact hends

/-! ## Opening the window -/

/-- Nothing has happened on the handshake, and the copy has been made. -/
structure Opening (extractSpkiHash : Bytes → Except Crypto.Error SpkiHash) (h : List TaskEvent)
    (contents : KeystoreContents) : Prop where
  fresh : (seen extractSpkiHash h).played = Played.fresh
  copy : copyOf h = some contents
  unsaved : Unsaved h
  clear : Clear h

/-- The clock has been read for the start, and codes have been drawn. -/
structure Drawing (extractSpkiHash : Bytes → Except Crypto.Error SpkiHash) (h : List TaskEvent)
    (contents : KeystoreContents) (now : UInt64) (drawn : List Draw) : Prop extends
    Opening extractSpkiHash h contents where
  opened : (seen extractSpkiHash h).openedAt = some now
  draws : (seen extractSpkiHash h).draws = drawn
  unread : (seen extractSpkiHash h).connection.any (·.op.isClock) = true

theorem Unsaved.givenUp (hunsaved : Unsaved h) (hclear : Clear h) : GivenUp h :=
  ⟨hclear, fun hstored => absurd hstored hunsaved.not_stored⟩

/-- A window that has been started is open. -/
theorem called_of_started {now ttlMs : UInt64} {draws rest : List Draw} {code : UInt32}
    {handshake : PairingHandshake}
    (hstart : PairingHandshake.new.start now ttlMs draws =
      some (.ok (.started code), handshake, rest)) :
    Crypto.Lifecycle.answer PairingHandshake.new (.start now ttlMs draws) =
        some (.transition (.started code), handshake) ∧
      IsAwaiting handshake := by
  have hcall : Crypto.Lifecycle.answer PairingHandshake.new (.start now ttlMs draws) =
      some (.transition (.started code), handshake) := by
    rw [Crypto.Lifecycle.answer, hstart]
  refine ⟨hcall, ?_⟩
  cases Crypto.Lifecycle.called_start hcall with
  | started hidle hcode => exact ⟨_, _, _, rfl⟩

/-- A window whose code has been drawn can take connections. -/
theorem startRound_pairs {contents : KeystoreContents} {now : UInt64} {drawn : List Draw}
    (hdrawing : Drawing extractSpkiHash h contents now drawn) :
    (startRound now drawn).Safe (PairOp extractSpkiHash) h fun h' result =>
      match result with
      | .inl drawn' => Drawing extractSpkiHash h' contents now drawn'
      | .inr (result, handshake) => GivenUp h' ∧ ∀ code, result = .ok (.started code) →
          RoundKeeps extractSpkiHash h' ⟨handshake, contents⟩ ∧ handshake.state ≠ .idle := by
  refine (safe_call_bind Op.randomBytes _ _ _).mpr ⟨hdrawing.clear, fun (draw : Draw) => ?_⟩
  dsimp only
  have hseen : seen extractSpkiHash (h ++ [⟨.randomBytes, draw⟩]) =
      { seen extractSpkiHash h with
        connection := (seen extractSpkiHash h).connection ++ [⟨.randomBytes, draw⟩]
        draws := drawn ++ [draw]
        played := Played.fresh.afterCall
          (.start now Crypto.pairingWindowDefaultMs (drawn ++ [draw])) } := by
    rw [seen_concat]
    simp only [seenStep, Seen.afterDraw, hdrawing.opened, hdrawing.draws, hdrawing.fresh]
  have hunsaved : Unsaved (h ++ [⟨.randomBytes, draw⟩]) := hdrawing.unsaved.concat id
  have hclear : Clear (h ++ [⟨.randomBytes, draw⟩]) := clear_concat h rfl rfl
  have hcopy : copyOf (h ++ [⟨.randomBytes, draw⟩]) = some contents :=
    (copyOf_concat h rfl).trans hdrawing.copy
  have hunread := isClock_concat ⟨.randomBytes, draw⟩ hdrawing.unread
  cases hstart : PairingHandshake.new.start now Crypto.pairingWindowDefaultMs (drawn ++ [draw]) with
  | none =>
      have hcall : Crypto.Lifecycle.answer PairingHandshake.new
          (.start now Crypto.pairingWindowDefaultMs (drawn ++ [draw])) = none := by
        rw [Crypto.Lifecycle.answer, hstart]
      refine ⟨⟨?_, hcopy, hunsaved, hclear⟩, ?_, ?_, ?_⟩
      · rw [hseen]
        exact Played.afterCall_none hcall
      · rw [hseen]
        exact hdrawing.opened
      · rw [hseen]
      · rw [hseen]
        exact hunread
  | some started =>
      obtain ⟨result, handshake, rest⟩ := started
      refine ⟨hunsaved.givenUp hclear, ?_⟩
      rintro code rfl
      obtain ⟨hcall, hawaiting⟩ := called_of_started hstart
      refine ⟨⟨⟨?_, ?_, ⟨contents, hcopy, fun _ => rfl⟩, fun _ => hunsaved, ?_⟩, ?_, hclear⟩, ?_⟩
      · rw [hseen]
        exact hdrawing.opened ▸ rfl
      · rw [hseen]
        exact Played.handshake_afterCall hcall
      · exact fun hpaired => absurd hpaired (not_isPaired_of_isAwaiting hawaiting)
      · rw [hseen]
        exact offerOf_clock hunread
      · obtain ⟨opened, expiresAtUnixMs, failedAttempts, hstate⟩ := hawaiting
        simp [hstate]

/-- Reading a key back leaves the opening as it is. -/
theorem Opening.parse {contents : KeystoreContents}
    (hopening : Opening extractSpkiHash h contents) (identity : DeviceIdentityBytes)
    (parsed : Except Crypto.Error Unit) :
    Opening extractSpkiHash (h ++ [⟨.parseIdentity identity, parsed⟩]) contents where
  fresh := by
    rw [seen_concat]
    exact hopening.fresh
  copy := (copyOf_concat h rfl).trans hopening.copy
  unsaved := hopening.unsaved.concat id
  clear := clear_concat h rfl rfl

/-- Reading the clock for the start. -/
theorem Opening.clock {contents : KeystoreContents}
    (hopening : Opening extractSpkiHash h contents)
    (hunopened : (seen extractSpkiHash h).openedAt = none)
    (hundrawn : (seen extractSpkiHash h).draws = []) (now : UInt64) :
    Drawing extractSpkiHash (h ++ [⟨.clock, now⟩]) contents now [] := by
  have hseen : seen extractSpkiHash (h ++ [⟨.clock, now⟩]) =
      { seen extractSpkiHash h with
        connection := (seen extractSpkiHash h).connection ++ [⟨.clock, now⟩]
        openedAt := some now } := by
    rw [seen_concat]
    simp only [seenStep, Seen.afterClock, hunopened]
  refine ⟨⟨?_, ?_, hopening.unsaved.concat id, clear_concat h rfl rfl⟩, ?_, ?_,
    connection_clock h now⟩
  · rw [hseen]
    exact hopening.fresh
  · exact (copyOf_concat h rfl).trans hopening.copy
  · rw [hseen]
  · rw [hseen]
    exact hundrawn

/-- The start of a window on the copy. -/
theorem openWindow_pairs {contents : KeystoreContents} {draws rounds : ℕ}
    (hopening : Opening extractSpkiHash h contents)
    (hunopened : (seen extractSpkiHash h).openedAt = none)
    (hundrawn : (seen extractSpkiHash h).draws = []) :
    (openWindow extractSpkiHash draws rounds reads contents).Safe (PairOp extractSpkiHash) h
      Ended := by
  refine ⟨hopening.clear, fun (parsed : Except Crypto.Error Unit) => ?_⟩
  have hparsed := hopening.parse contents.deviceIdentityBytes parsed
  cases parsed with
  | error e => exact hparsed.unsaved.givenUp hparsed.clear
  | ok _ =>
      refine ⟨hparsed.clear, fun (now : UInt64) => ?_⟩
      have hdrawing := hparsed.clock (by rw [seen_concat]; exact hunopened)
        (by rw [seen_concat]; exact hundrawn) now
      have hloop := safe_loop (fun h drawn => Drawing extractSpkiHash h contents now drawn)
        (Q := fun h' (result : Except Crypto.Error PairingTransition × PairingHandshake) =>
          GivenUp h' ∧ ∀ code, result.1 = .ok (.started code) →
            RoundKeeps extractSpkiHash h' ⟨result.2, contents⟩ ∧ result.2.state ≠ .idle)
        (fun h drawn hdrawing => (startRound_pairs hdrawing).mono fun h' result hresult => by
          cases result <;> exact hresult) draws hdrawing
      refine (safe_bind (loop (startRound now) draws []) _ _ _).mpr (hloop.mono ?_)
      rintro h' ⟨started, handshake⟩ ⟨hgivenUp, hstarted⟩
      rcases started with e | code | record | reason | _ | _
      · exact hgivenUp
      · obtain ⟨hkeeps, hlive⟩ := hstarted code rfl
        refine ⟨hkeeps.clear, fun (bound : Except IoError Unit) => ?_⟩
        have hbound := hkeeps.next (e := ⟨.bindListener, bound⟩) rfl id rfl rfl rfl rfl
        cases bound with
        | error e => exact ⟨hbound.clear, hbound.told⟩
        | ok _ =>
            exact safe_loop (fun h s => RoundEnds extractSpkiHash h (.inl s))
              (fun h s hends =>
                (acceptRound_pairs hends.1 hends.2).mono fun h' result hresult => by
                  cases result <;> exact hresult) rounds ⟨hbound, hlive⟩
      all_goals exact hgivenUp

/-- All operations of the subcommand fit its history, and it succeeds only when it has saved
and acknowledged a pairing. -/
theorem run_pairs (draws rounds reads : ℕ) :
    (run extractSpkiHash draws rounds reads).Safe (PairOp extractSpkiHash) [] Ended := by
  have hnil : Unsaved [] := fun e he => by cases he
  refine ⟨⟨rfl, rfl⟩, fun (made : Except KeystoreError Unit) => ?_⟩
  have hmade : Unsaved ([] ++ [⟨.ensureDataDir, made⟩]) := hnil.concat id
  have hmade' : Clear ([] ++ [⟨.ensureDataDir, made⟩]) := clear_concat [] rfl rfl
  cases made with
  | error e => exact hmade.givenUp hmade'
  | ok _ =>
      refine ⟨hmade', fun (loaded : Except KeystoreError (Option KeystoreContents)) => ?_⟩
      have hloaded := hmade.concat (e := ⟨.load, loaded⟩) id
      have hloaded' : Clear ([] ++ [⟨.ensureDataDir, Except.ok ()⟩] ++ [⟨.load, loaded⟩]) :=
        clear_concat _ rfl rfl
      rcases loaded with e | _ | contents
      · exact hloaded.givenUp hloaded'
      · refine ⟨hloaded', fun (identity : Except Crypto.Error DeviceIdentityBytes) => ?_⟩
        have hidentity := hloaded.concat (e := ⟨.generateIdentity, identity⟩) id
        have hidentity' : Clear ([] ++ [⟨.ensureDataDir, Except.ok ()⟩] ++ [⟨.load, .ok none⟩] ++
            [⟨.generateIdentity, identity⟩]) := clear_concat _ rfl rfl
        cases identity with
        | error e => exact hidentity.givenUp hidentity'
        | ok identity => exact openWindow_pairs ⟨rfl, rfl, hidentity, hidentity'⟩ rfl rfl
      · exact openWindow_pairs ⟨rfl, rfl, hloaded, hloaded'⟩ rfl rfl

end PairingFlow
end Daemon
end WakeMyPc
