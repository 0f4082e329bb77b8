import WakeMyPc.Crypto.PairingRuns
import WakeMyPc.Daemon.CommandHistory
import WakeMyPc.Daemon.ConnectionHistory
import WakeMyPc.Daemon.Session
import Mathlib.Data.List.Induction

/-!
# What a pairing window does, and after what

The history of the `pair` subcommand tells which calls were made on the handshake: the
start, an offer for each `Pair` message when the clock is read for it, and a look at the
clock for every other reading.  What the window saves and answers depends on these calls.

Main results:

- Definition `seen`: what a history shows.
- Definition `PairOp`: the operations that fit a history.
- Definition `PairKeeps`: what the window keeps in its history.
-/

namespace WakeMyPc
namespace Daemon

open Foundations
open Foundations.Prog (loop safe_bind safe_call_bind safe_loop)
open Protocol
open Crypto (Draw NonceCounter PairingHandshake PairingTransition)
open Crypto.Lifecycle (Played Call Entry Window WindowOpen Told)

/-! ## Operations -/

/-- The operation stores contents in the keystore file. -/
def Op.isSave : Op → Bool
  | .saveFile _ => true
  | _ => false

/-- The operation neither makes a call on the handshake nor a copy, and saves nothing. -/
def Op.isPassive : Op → Bool
  | .handshake _ => true
  | .peerCertificates => true
  | .recv => true
  | .send _ => true
  | .shutdown => true
  | .ensureDataDir => true
  | .parseIdentity _ => true
  | .bindListener => true
  | .acceptTcp => true
  | _ => false

/-- The operation is a TLS handshake. -/
def Op.isHandshake : Op → Bool
  | .handshake _ => true
  | _ => false

/-- The operation reads the clock. -/
def Op.isClock : Op → Bool
  | .clock => true
  | _ => false

theorem Op.isQuiet_of_isPassive {o : Op} (h : o.isPassive = true) : o.isQuiet = true := by
  cases o <;> first | rfl | simp [isPassive] at h

theorem Op.not_isSave_of_isPassive {o : Op} (h : o.isPassive = true) : o.isSave = false := by
  cases o <;> first | rfl | simp [isPassive] at h

theorem Op.not_isClock_of_isPassive {o : Op} (h : o.isPassive = true) : o.isClock = false := by
  cases o <;> first | rfl | simp [isPassive] at h

/-- The event is a save that succeeded. -/
def savedBy : TaskEvent → Bool
  | ⟨.saveFile _, result⟩ =>
      match (result : Except KeystoreError Unit) with
      | .ok () => true
      | .error _ => false
  | _ => false

theorem savedBy_of_not_isSave {e : TaskEvent} (h : e.op.isSave = false) : savedBy e = false := by
  obtain ⟨o, r⟩ := e
  cases o <;> first | rfl | simp [Op.isSave] at h

/-- The last event of a history is a save that succeeded. -/
def savedLast (h : List TaskEvent) : Bool :=
  h.getLast?.any savedBy

@[simp]
theorem savedLast_concat (h : List TaskEvent) (e : TaskEvent) :
    savedLast (h ++ [e]) = savedBy e := by
  simp [savedLast]

/-- The event is a connection that was accepted. -/
def acceptedBy : TaskEvent → Bool
  | ⟨.acceptTcp, result⟩ =>
      match (result : Option (Except IoError Unit)) with
      | some (.ok ()) => true
      | _ => false
  | _ => false

/-- The last event of a history is a connection that was accepted. -/
def acceptedLast (h : List TaskEvent) : Bool :=
  h.getLast?.any acceptedBy

@[simp]
theorem acceptedLast_concat (h : List TaskEvent) (e : TaskEvent) :
    acceptedLast (h ++ [e]) = acceptedBy e := by
  simp [acceptedLast]

/-! ## What a history shows -/

namespace PairingFlow

/-- A code that a phone offers. -/
structure Offer where
  phoneName : RustString
  pairingCode : UInt32
  clientSpki : SpkiHash
deriving DecidableEq

/-- What a history shows of the window. -/
structure Seen where
  /-- What has happened since the last TLS handshake. -/
  connection : List TaskEvent
  openedAt : Option UInt64
  draws : List Draw
  /-- The calls on the handshake. -/
  played : Played

section Seen

-- the hash of the public key of a certificate, by the X.509 parser and SHA-256
variable (extractSpkiHash : Bytes → Except Crypto.Error SpkiHash)

/-- The key that an event shows. -/
def presentedKey : TaskEvent → Option SpkiHash
  | ⟨.peerCertificates, certs⟩ => (leafSpki extractSpkiHash certs).toOption
  | _ => none

/-- The key of the peer of a connection. -/
def peerOf (connection : List TaskEvent) : Option SpkiHash :=
  connection.findSome? (presentedKey extractSpkiHash)

/-- The message of a connection, once all of it has come. -/
def messageOf (connection : List TaskEvent) : Option ClientFrame :=
  match parseBuffer (received connection) with
  | .ok (some (envelope, _)) => (decodeClientFrame envelope.payload).toOption
  | _ => none

/-- What a connection offers, until the clock is read for it. -/
def offerOf (connection : List TaskEvent) : Option Offer :=
  if connection.any (·.op.isClock) then none
  else
    match peerOf extractSpkiHash connection, messageOf connection with
    | some clientSpki, some (.pair phoneName pairingCode) =>
        some ⟨phoneName, pairingCode, clientSpki⟩
    | _, _ => none

/-- The call that is made when the clock is read. -/
def callAt (connection : List TaskEvent) (nowUnixMs : UInt64) : Call :=
  match offerOf extractSpkiHash connection with
  | some offer => .acceptPair nowUnixMs offer.pairingCode offer.phoneName offer.clientSpki
  | none => .tick nowUnixMs

theorem callAt_ne_start (extractSpkiHash : Bytes → Except Crypto.Error SpkiHash)
    (connection : List TaskEvent) (nowUnixMs : UInt64) :
    ∀ now ttlMs draws, callAt extractSpkiHash connection nowUnixMs ≠ .start now ttlMs draws := by
  intro now ttlMs draws
  unfold callAt
  split <;> simp

/-- A draw opens the window once enough of them have come. -/
def Seen.afterDraw (s : Seen) (draw : Draw) : Seen :=
  let draws := s.draws ++ [draw]
  { s with
    connection := s.connection ++ [⟨.randomBytes, draw⟩]
    draws
    played :=
      match s.openedAt with
      | none => s.played
      | some now => s.played.afterCall (.start now Crypto.pairingWindowDefaultMs draws) }

/-- The first reading of the clock is for the start, and each later one makes a call. -/
def Seen.afterClock (s : Seen) (now : UInt64) : Seen :=
  let connection := s.connection ++ [⟨.clock, now⟩]
  match s.openedAt with
  | none => { s with connection, openedAt := some now }
  | some _ =>
      { s with connection, played := s.played.afterCall (callAt extractSpkiHash s.connection now) }

/-- What is seen after one more event. -/
def seenStep (s : Seen) : TaskEvent → Seen
  | ⟨.handshake _, _⟩ => { s with connection := [] }
  | ⟨.clock, now⟩ => s.afterClock extractSpkiHash now
  | ⟨.randomBytes, draw⟩ => s.afterDraw draw
  | e => { s with connection := s.connection ++ [e] }

/-- What a history shows. -/
def seen (h : List TaskEvent) : Seen :=
  h.foldl (seenStep extractSpkiHash) ⟨[], none, [], Played.fresh⟩

variable {extractSpkiHash}

theorem seen_concat (h : List TaskEvent) (e : TaskEvent) :
    seen extractSpkiHash (h ++ [e]) = seenStep extractSpkiHash (seen extractSpkiHash h) e := by
  rw [seen, List.foldl_append]
  rfl

/-- A passive operation makes no call. -/
theorem seen_passive (h : List TaskEvent) {e : TaskEvent} (hpassive : e.op.isPassive = true) :
    (seen extractSpkiHash (h ++ [e])).openedAt = (seen extractSpkiHash h).openedAt ∧
      (seen extractSpkiHash (h ++ [e])).played = (seen extractSpkiHash h).played := by
  rw [seen_concat]
  obtain ⟨o, r⟩ := e
  cases o <;> first | exact ⟨rfl, rfl⟩ | simp [Op.isPassive] at hpassive

/-- A save makes no call. -/
theorem seen_save (h : List TaskEvent) (c : KeystoreContents)
    (result : Except KeystoreError Unit) :
    (seen extractSpkiHash (h ++ [⟨.saveFile c, result⟩])).openedAt =
        (seen extractSpkiHash h).openedAt ∧
      (seen extractSpkiHash (h ++ [⟨.saveFile c, result⟩])).played =
        (seen extractSpkiHash h).played := by
  rw [seen_concat]
  exact ⟨rfl, rfl⟩

/-- An event other than a TLS handshake belongs to the connection. -/
theorem connection_concat (h : List TaskEvent) {e : TaskEvent}
    (he : e.op.isHandshake = false) :
    (seen extractSpkiHash (h ++ [e])).connection = (seen extractSpkiHash h).connection ++ [e] := by
  rw [seen_concat]
  obtain ⟨o, r⟩ := e
  cases o with
  | handshake mode => simp [Op.isHandshake] at he
  | clock =>
      simp only [seenStep, Seen.afterClock]
      split <;> rfl
  | _ => rfl

/-- Reading the clock makes a call once the window has been opened. -/
theorem played_clock {h : List TaskEvent} (hopened : (seen extractSpkiHash h).openedAt.isSome)
    (now : UInt64) :
    (seen extractSpkiHash (h ++ [⟨.clock, now⟩])).openedAt = (seen extractSpkiHash h).openedAt ∧
      (seen extractSpkiHash (h ++ [⟨.clock, now⟩])).played =
        (seen extractSpkiHash h).played.afterCall
          (callAt extractSpkiHash (seen extractSpkiHash h).connection now) := by
  obtain ⟨t, ht⟩ := Option.isSome_iff_exists.mp hopened
  rw [seen_concat]
  simp only [seenStep, Seen.afterClock, ht]
  exact ⟨trivial, trivial⟩

/-- The log of the calls tells the state of the handshake. -/
theorem told_seen (h : List TaskEvent) : Told (seen extractSpkiHash h).played := by
  induction h using List.reverseRecOn with
  | nil => exact Crypto.Lifecycle.told_fresh
  | append_singleton h e ih =>
      rw [seen_concat]
      obtain ⟨o, r⟩ := e
      cases o with
      | clock =>
          simp only [seenStep, Seen.afterClock]
          split
          · exact ih
          · exact Crypto.Lifecycle.told_afterCall ih _
      | randomBytes =>
          simp only [seenStep, Seen.afterDraw]
          split
          · exact ih
          · exact Crypto.Lifecycle.told_afterCall ih _
      | _ => exact ih

/-! ## The window -/

/-- More draws do not change a code that has been drawn. -/
theorem randomPairingCode_append {draws rest : List Draw}
    {result : Except Crypto.Error UInt32}
    (h : Crypto.randomPairingCode draws = some (result, rest)) (more : List Draw) :
    Crypto.randomPairingCode (draws ++ more) = some (result, rest ++ more) := by
  rw [Crypto.randomPairingCode_eq_resample] at h ⊢
  exact resample_append h more

/-- The window was opened at the first reading of the clock, for the default time and with the
code that was drawn. -/
def Displays (s : Seen) (w : Window) : Prop :=
  s.openedAt = some w.startedAtUnixMs ∧ w.ttlMs = Crypto.pairingWindowDefaultMs ∧
    ∃ rest, Crypto.randomPairingCode s.draws = some (.ok w.code, rest)

/-- The last window, after a call that opens none. -/
theorem lastOpened_afterCall {p : Played} {c : Call} {w : Window} {since : List Entry}
    (hcall : ∀ now ttl draws, c ≠ .start now ttl draws)
    (h : Crypto.Lifecycle.lastOpened (p.afterCall c).log = some (w, since)) :
    ∃ before, Crypto.Lifecycle.lastOpened p.log = some (w, before) := by
  unfold Played.afterCall Played.step at h
  cases hanswer : Crypto.Lifecycle.answer p.handshake c with
  | none =>
      rw [hanswer] at h
      exact ⟨since, h⟩
  | some result =>
      rw [hanswer] at h
      simp only [Option.map_some, Option.getD_some, Crypto.Lifecycle.lastOpened_concat] at h
      have hopens : Entry.opens ⟨p.handshake, c, result.1, result.2⟩ = none := by
        cases c with
        | start now ttl draws => exact absurd rfl (hcall now ttl draws)
        | _ => rfl
      rw [Crypto.Lifecycle.lastOpenedStep, hopens] at h
      obtain ⟨⟨w', before⟩, hlast, heq⟩ := Option.map_eq_some_iff.mp h
      obtain ⟨rfl, -⟩ := Prod.mk.inj heq
      exact ⟨before, hlast⟩

/-- A window that is opened has the code that was drawn. -/
theorem drawn_of_started {handshake after : PairingHandshake} {now ttlMs : UInt64}
    {draws : List Draw} {code : UInt32}
    (h : Crypto.Lifecycle.answer handshake (.start now ttlMs draws) =
      some (.transition (.started code), after)) :
    ∃ rest, Crypto.randomPairingCode draws = some (.ok code, rest) := by
  obtain ⟨state⟩ := handshake
  cases state with
  | idle =>
      simp only [Crypto.Lifecycle.answer, PairingHandshake.start] at h
      cases hdraw : Crypto.randomPairingCode draws with
      | none => simp [hdraw] at h
      | some drawn =>
          obtain ⟨result, rest⟩ := drawn
          cases result with
          | error e => simp [hdraw] at h
          | ok drawnCode =>
              simp only [hdraw, Option.some.injEq, Prod.mk.injEq,
                Crypto.Lifecycle.Report.transition.injEq, PairingTransition.started.injEq] at h
              exact ⟨rest, by rw [h.1]⟩
  | awaiting _ _ _ => simp [Crypto.Lifecycle.answer, PairingHandshake.start] at h
  | paired _ => simp [Crypto.Lifecycle.answer, PairingHandshake.start] at h

/-- After a draw the last window is a new one with the code that was drawn, or the one
before. -/
theorem lastOpened_start {p : Played} {now ttlMs : UInt64} {draws : List Draw} {w : Window}
    {since : List Entry}
    (h : Crypto.Lifecycle.lastOpened (p.afterCall (.start now ttlMs draws)).log =
      some (w, since)) :
    (w.startedAtUnixMs = now ∧ w.ttlMs = ttlMs ∧
        ∃ rest, Crypto.randomPairingCode draws = some (.ok w.code, rest)) ∨
      ∃ before, Crypto.Lifecycle.lastOpened p.log = some (w, before) := by
  unfold Played.afterCall Played.step at h
  cases hanswer : Crypto.Lifecycle.answer p.handshake (.start now ttlMs draws) with
  | none =>
      rw [hanswer] at h
      exact .inr ⟨since, h⟩
  | some result =>
      obtain ⟨report, after⟩ := result
      rw [hanswer] at h
      simp only [Option.map_some, Option.getD_some, Crypto.Lifecycle.lastOpened_concat] at h
      cases hopens : Entry.opens ⟨p.handshake, .start now ttlMs draws, report, after⟩ with
      | none =>
          rw [Crypto.Lifecycle.lastOpenedStep, hopens] at h
          obtain ⟨⟨w', before⟩, hlast, heq⟩ := Option.map_eq_some_iff.mp h
          obtain ⟨rfl, -⟩ := Prod.mk.inj heq
          exact .inr ⟨before, hlast⟩
      | some opened =>
          rw [Crypto.Lifecycle.lastOpenedStep, hopens] at h
          obtain ⟨rfl, -⟩ := Prod.mk.inj (Option.some.inj h)
          unfold Entry.opens at hopens
          split at hopens
          · next heq =>
              cases heq
              obtain rfl := Option.some.inj hopens
              exact .inl ⟨rfl, rfl, drawn_of_started hanswer⟩
          · cases hopens

/-- The last window is the one that was displayed. -/
theorem displays_seen (h : List TaskEvent) {w : Window} {since : List Entry}
    (hlast : Crypto.Lifecycle.lastOpened (seen extractSpkiHash h).played.log = some (w, since)) :
    Displays (seen extractSpkiHash h) w := by
  induction h using List.reverseRecOn generalizing w since with
  | nil => simp [seen, Played.fresh, Crypto.Lifecycle.lastOpened] at hlast
  | append_singleton h e ih =>
      rw [seen_concat] at hlast ⊢
      obtain ⟨o, r⟩ := e
      cases o with
      | clock =>
          simp only [seenStep, Seen.afterClock] at hlast ⊢
          cases hopened : (seen extractSpkiHash h).openedAt with
          | none =>
              rw [hopened] at hlast
              have hbefore := (ih hlast).1
              rw [hopened] at hbefore
              cases hbefore
          | some now =>
              rw [hopened] at hlast
              obtain ⟨before, hbefore⟩ := lastOpened_afterCall (callAt_ne_start _ _ _) hlast
              obtain ⟨hsame, httl, hdrawn⟩ := ih hbefore
              rw [hopened] at hsame
              exact ⟨hsame, httl, hdrawn⟩
      | randomBytes =>
          simp only [seenStep, Seen.afterDraw] at hlast ⊢
          cases hopened : (seen extractSpkiHash h).openedAt with
          | none =>
              rw [hopened] at hlast
              have hbefore := (ih hlast).1
              rw [hopened] at hbefore
              cases hbefore
          | some now =>
              rw [hopened] at hlast
              rcases lastOpened_start hlast with ⟨rfl, httl, hdrawn⟩ | ⟨before, hbefore⟩
              · exact ⟨rfl, httl, hdrawn⟩
              · obtain ⟨hsame, httl, rest, hdrawn⟩ := ih hbefore
                rw [hopened] at hsame
                exact ⟨hsame, httl, _, randomPairingCode_append hdrawn _⟩
      | _ => exact ih hlast

/-! ## Offers -/

theorem offerOf_clock {connection : List TaskEvent}
    (h : connection.any (·.op.isClock) = true) : offerOf extractSpkiHash connection = none := by
  rw [offerOf, if_pos h]

theorem offerOf_peer {connection : List TaskEvent}
    (h : peerOf extractSpkiHash connection = none) : offerOf extractSpkiHash connection = none := by
  unfold offerOf
  rw [h]
  split <;> rfl

theorem offerOf_message {connection : List TaskEvent}
    (h : ∀ phoneName pairingCode, messageOf connection ≠ some (.pair phoneName pairingCode)) :
    offerOf extractSpkiHash connection = none := by
  unfold offerOf
  split
  · rfl
  · split
    · next hmessage => exact absurd hmessage (h _ _)
    · rfl

/-- An offer comes from the peer of the connection, in its message. -/
theorem peer_of_offer {connection : List TaskEvent} {offer : Offer}
    (h : offerOf extractSpkiHash connection = some offer) :
    peerOf extractSpkiHash connection = some offer.clientSpki ∧
      messageOf connection = some (.pair offer.phoneName offer.pairingCode) := by
  unfold offerOf at h
  split at h
  · cases h
  · split at h
    · next clientSpki phoneName pairingCode hpeer hmessage =>
        obtain rfl := Option.some.inj h
        exact ⟨hpeer, hmessage⟩
    · cases h

/-- The peer of a connection stays its peer. -/
theorem peerOf_append {connection : List TaskEvent} {clientSpki : SpkiHash}
    (h : peerOf extractSpkiHash connection = some clientSpki) (events : List TaskEvent) :
    peerOf extractSpkiHash (connection ++ events) = some clientSpki := by
  unfold peerOf at h ⊢
  rw [List.findSome?_append, h, Option.some_or]

/-- An event that is not about the peer or its message leaves the offer. -/
theorem offerOf_concat {connection : List TaskEvent} {e : TaskEvent}
    (hclock : e.op.isClock = false) (hkey : presentedKey extractSpkiHash e = none)
    (hbytes : receivedBytes e = []) :
    offerOf extractSpkiHash (connection ++ [e]) = offerOf extractSpkiHash connection := by
  have hpeer : peerOf extractSpkiHash (connection ++ [e]) = peerOf extractSpkiHash connection := by
    simp [peerOf, List.findSome?_append, hkey]
  have hmessage : messageOf (connection ++ [e]) = messageOf connection := by
    simp [messageOf, received, hbytes]
  simp only [offerOf, hpeer, hmessage, List.any_append, List.any_cons, List.any_nil, hclock,
    Bool.or_false]

theorem isClock_concat {connection : List TaskEvent} (e : TaskEvent)
    (h : connection.any (·.op.isClock) = true) :
    (connection ++ [e]).any (·.op.isClock) = true := by
  rw [List.any_append, h, Bool.true_or]

end Seen

/-! ## Answers -/

/-- The bytes of an acknowledgement. -/
def IsAck (bytes : Bytes) : Prop :=
  ∃ nonce requestNonce, bytes = responseBytes nonce (.ack requestNonce)

theorem not_isAck_error (nonce requestNonce : UInt64) (code : ProtocolError) :
    ¬ IsAck (responseBytes nonce (.error requestNonce code)) := by
  rintro ⟨nonce', requestNonce', h⟩
  cases responseBytes_inj h

/-- The first message of a connection is one write. -/
theorem sendFrame_new (frame : DaemonFrame) :
    sendFrame NonceCounter.new frame =
      .call (.send (responseBytes 1 frame)) fun (result : Except IoError Unit) =>
        match result with
        | .error e => .ret (.error (.io e), ⟨⟨1⟩, NonceCounter.new.recv⟩)
        | .ok () => .ret (.ok (), ⟨⟨1⟩, NonceCounter.new.recv⟩) := by
  have hissue : NonceCounter.new.send.issue = (some 1, ⟨1⟩) := rfl
  simp only [sendFrame, writeFrame, hissue, encodeDaemonFrame_eq, encodeEnvelope_response,
    perform_bind]
  refine congrArg (Prog.call _) (funext fun (result : Except IoError Unit) => ?_)
  cases result <;> rfl

/-! ## Operations that fit a history -/

/-- The operation saves a pairing or acknowledges it. -/
def Op.Concludes : Op → Prop
  | .saveFile _ => True
  | .send bytes => IsAck bytes
  | _ => False

theorem Op.not_isSave_of_not_concludes {o : Op} (h : ¬ Op.Concludes o) : o.isSave = false := by
  cases o <;> first | rfl | exact absurd trivial h

/-- Contents have been saved. -/
def Stored (h : List TaskEvent) : Prop :=
  ∃ e ∈ h, savedBy e = true

/-- A save has failed. -/
def SaveFailed (h : List TaskEvent) : Prop :=
  ∃ c e, (⟨.saveFile c, Except.error e⟩ : TaskEvent) ∈ h

/-- The write of an acknowledgement has failed. -/
def AckFailed (h : List TaskEvent) : Prop :=
  ∃ bytes e, (⟨.send bytes, Except.error e⟩ : TaskEvent) ∈ h ∧ IsAck bytes

/-- No save and no acknowledgement has been tried. -/
def Unsaved (h : List TaskEvent) : Prop :=
  ∀ e ∈ h, ¬ Op.Concludes e.op

/-- A pairing was accepted, but its phone was not told. -/
def Failed (h : List TaskEvent) : Prop :=
  (SaveFailed h ∧ ¬ Stored h) ∨ (Stored h ∧ AckFailed h)

/-- Nothing is left to do at once: neither to acknowledge a pairing that was saved, nor to
start TLS with a phone that was accepted. -/
def Clear (h : List TaskEvent) : Prop :=
  savedLast h = false ∧ acceptedLast h = false

/-- The window was left without telling a phone that it is paired. -/
def GivenUp (h : List TaskEvent) : Prop :=
  Clear h ∧ (Stored h → AckFailed h)

/-- A pairing was saved and acknowledged. -/
def Finished (h : List TaskEvent) : Prop :=
  ∃ front contents bytes closed, Unsaved front ∧ IsAck bytes ∧
    h = front ++ [⟨.saveFile contents, Except.ok ()⟩, ⟨.send bytes, Except.ok ()⟩,
      ⟨.shutdown, closed⟩]

/-- The handshake waits for its pairing to be taken. -/
def IsPaired (handshake : PairingHandshake) : Prop :=
  ∃ record, handshake.state = .paired record

/-- A window is open. -/
def IsAwaiting (handshake : PairingHandshake) : Prop :=
  ∃ code expiresAtUnixMs failedAttempts,
    handshake.state = .awaiting code expiresAtUnixMs failedAttempts

theorem not_isPaired_of_isAwaiting {handshake : PairingHandshake} (h : IsAwaiting handshake) :
    ¬ IsPaired handshake := by
  obtain ⟨code, expiresAtUnixMs, failedAttempts, hstate⟩ := h
  rintro ⟨record, hpaired⟩
  rw [hstate] at hpaired
  cases hpaired

theorem isAwaiting_or_isPaired {handshake : PairingHandshake} (h : handshake.state ≠ .idle) :
    IsAwaiting handshake ∨ IsPaired handshake := by
  obtain ⟨state⟩ := handshake
  cases state with
  | idle => exact absurd rfl h
  | awaiting code expiresAtUnixMs failedAttempts => exact .inl ⟨_, _, _, rfl⟩
  | paired record => exact .inr ⟨_, rfl⟩

/-- The record of an accepted offer. -/
def Offer.record (offer : Offer) (nowUnixMs : UInt64) : PairingRecord :=
  .fromCore ⟨offer.phoneName, offer.clientSpki, nowUnixMs⟩

section Fits

variable (extractSpkiHash : Bytes → Except Crypto.Error SpkiHash)

/-- The contents are what the offer that was just made turns the copy into: it was the code
of an open window, before its end and after fewer wrong offers than the limit. -/
def JustifiedSave (h : List TaskEvent) (contents : KeystoreContents) : Prop :=
  ∃ front now offer copy w since, h = front ++ [⟨.clock, now⟩] ∧ Unsaved front ∧
    offerOf extractSpkiHash (seen extractSpkiHash front).connection = some offer ∧
    WindowOpen (seen extractSpkiHash front).played.log w since ∧
    offer.pairingCode = w.code ∧ now < w.expiresAtUnixMs ∧
    since.countP (Entry.wrongFor w) < Crypto.maxPairingAttempts.toNat ∧
    copyOf front = some copy ∧ contents = (Change.pair (offer.record now)).apply copy

/-- The operations of the subcommand that fit its history. -/
def PairOp (h : List TaskEvent) : Op → Prop
  | .saveFile contents => JustifiedSave extractSpkiHash h contents
  | .send bytes => acceptedLast h = false ∧ (IsAck bytes ↔ savedLast h = true)
  | .handshake mode =>
      mode = .pairingWindow ∧ acceptedLast h = true ∧
        ((IsAwaiting (seen extractSpkiHash h).played.handshake ∧ Unsaved h) ∨
          (IsPaired (seen extractSpkiHash h).played.handshake ∧ Failed h))
  | _ => Clear h

/-- What the window keeps in its history. -/
structure PairKeeps (h : List TaskEvent) (s : WindowState) : Prop where
  opened : (seen extractSpkiHash h).openedAt.isSome = true
  handshake : (seen extractSpkiHash h).played.handshake = s.handshake
  copy : ∃ copy, copyOf h = some copy ∧ (¬ IsPaired s.handshake → s.contents = copy)
  unsaved : ¬ IsPaired s.handshake → Unsaved h
  paired : IsPaired s.handshake → Failed h

/-- What the window keeps between connections: all offers have been taken. -/
structure RoundKeeps (h : List TaskEvent) (s : WindowState) : Prop extends
    PairKeeps extractSpkiHash h s where
  settled : offerOf extractSpkiHash (seen extractSpkiHash h).connection = none
  clear : Clear h

end Fits

/-! ## One more event -/

section Next

variable {extractSpkiHash : Bytes → Except Crypto.Error SpkiHash} {h : List TaskEvent}
  {s : WindowState} {e : TaskEvent}

theorem Stored.append (hstored : Stored h) (events : List TaskEvent) : Stored (h ++ events) := by
  obtain ⟨e, he, hsaved⟩ := hstored
  exact ⟨e, List.mem_append_left _ he, hsaved⟩

theorem AckFailed.append (hfailed : AckFailed h) (events : List TaskEvent) :
    AckFailed (h ++ events) := by
  obtain ⟨bytes, cause, hmem, hack⟩ := hfailed
  exact ⟨bytes, cause, List.mem_append_left _ hmem, hack⟩

theorem stored_concat (he : e.op.isSave = false) : Stored (h ++ [e]) ↔ Stored h := by
  constructor
  · rintro ⟨x, hx, hsaved⟩
    rcases List.mem_append.mp hx with hold | hnew
    · exact ⟨x, hold, hsaved⟩
    · rw [List.mem_singleton.mp hnew, savedBy_of_not_isSave he] at hsaved
      cases hsaved
  · exact fun hstored => hstored.append [e]

theorem Failed.concat (hfailed : Failed h) (he : e.op.isSave = false) : Failed (h ++ [e]) := by
  unfold Failed
  rw [stored_concat he]
  rcases hfailed with ⟨⟨c, cause, hmem⟩, hstored⟩ | ⟨hstored, hack⟩
  · exact .inl ⟨⟨c, cause, List.mem_append_left _ hmem⟩, hstored⟩
  · exact .inr ⟨hstored, hack.append [e]⟩

theorem Unsaved.concat (hunsaved : Unsaved h) (he : ¬ Op.Concludes e.op) :
    Unsaved (h ++ [e]) := by
  intro x hx
  rcases List.mem_append.mp hx with hold | hnew
  · exact hunsaved x hold
  · rwa [List.mem_singleton.mp hnew]

theorem Unsaved.not_stored (hunsaved : Unsaved h) : ¬ Stored h := by
  rintro ⟨e, he, hsaved⟩
  rw [savedBy_of_not_isSave (Op.not_isSave_of_not_concludes (hunsaved e he))] at hsaved
  cases hsaved

/-- An event that is neither a save nor an accepted connection leaves nothing to do. -/
theorem clear_concat (h : List TaskEvent) (hsave : e.op.isSave = false)
    (haccept : acceptedBy e = false) : Clear (h ++ [e]) := by
  unfold Clear
  rw [savedLast_concat, acceptedLast_concat]
  exact ⟨savedBy_of_not_isSave hsave, haccept⟩

theorem GivenUp.next (hstored : Stored h → AckFailed h) (hsave : e.op.isSave = false)
    (haccept : acceptedBy e = false) : GivenUp (h ++ [e]) := by
  refine ⟨clear_concat h hsave haccept, fun hstored' => ?_⟩
  exact (hstored ((stored_concat hsave).mp hstored')).append [e]

/-- A pairing that was saved is known to be, unless its acknowledgement failed. -/
theorem PairKeeps.told (hkeeps : PairKeeps extractSpkiHash h s) (hstored : Stored h) :
    AckFailed h := by
  by_cases hpaired : IsPaired s.handshake
  · rcases hkeeps.paired hpaired with ⟨-, hnot⟩ | ⟨-, hack⟩
    · exact absurd hstored hnot
    · exact hack
  · exact absurd hstored (hkeeps.unsaved hpaired).not_stored

/-- A passive operation that concludes nothing keeps all of it. -/
theorem PairKeeps.next (hkeeps : PairKeeps extractSpkiHash h s) (hpassive : e.op.isPassive = true)
    (hconcludes : ¬ Op.Concludes e.op) : PairKeeps extractSpkiHash (h ++ [e]) s := by
  obtain ⟨hopened, hplayed⟩ := @seen_passive extractSpkiHash h e hpassive
  refine ⟨hopened ▸ hkeeps.opened, hplayed ▸ hkeeps.handshake, ?_,
    fun h => (hkeeps.unsaved h).concat hconcludes,
    fun h => (hkeeps.paired h).concat (Op.not_isSave_of_isPassive hpassive)⟩
  rw [copyOf_concat h (Op.isQuiet_of_isPassive hpassive)]
  exact hkeeps.copy

/-- A passive operation that is not about a peer leaves the window between connections. -/
theorem RoundKeeps.next (hkeeps : RoundKeeps extractSpkiHash h s)
    (hpassive : e.op.isPassive = true) (hconcludes : ¬ Op.Concludes e.op)
    (hkey : presentedKey extractSpkiHash e = none) (hbytes : receivedBytes e = [])
    (hhandshake : e.op.isHandshake = false) (haccept : acceptedBy e = false) :
    RoundKeeps extractSpkiHash (h ++ [e]) s where
  toPairKeeps := hkeeps.toPairKeeps.next hpassive hconcludes
  settled := by
    rw [connection_concat h hhandshake,
      offerOf_concat (Op.not_isClock_of_isPassive hpassive) hkey hbytes]
    exact hkeeps.settled
  clear := clear_concat h (Op.not_isSave_of_isPassive hpassive) haccept

end Next

end PairingFlow
end Daemon
end WakeMyPc
