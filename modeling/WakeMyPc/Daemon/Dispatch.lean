import WakeMyPc.Daemon.Connection

/-!
# What a dispatch can do

The operations and the answer of one dispatch, for every kind of message.  All
later statements about dispatched messages go through this case distinction.

Main results:

- Theorem `dispatch_answered`: a dispatch reads the clock, reads the contents, and
  goes on in one of the ways listed by `Answered`.
- Theorems `response_nonce` and `responseClosesConnection_eq`: the answer carries
  the nonce of its request, and closes the connection exactly for `Pair`.
-/

namespace WakeMyPc
namespace Daemon

open Foundations
open Foundations.Prog (Trace Uses)
open Protocol

/-! ## Kinds of operations and messages -/

/-- The operations of a dispatch. -/
def Op.isLocal : Op → Bool
  | .clock => true
  | .snapshot => true
  | .write _ => true
  | .saveFile _ => true
  | .sleep => true
  | .lock => true
  | .powerOff => true
  | .currentSessionState => true
  | _ => false

theorem Op.not_isRecv_of_isLocal {o : Op} (h : o.isLocal = true) : o.isRecv = false := by
  cases o <;> simp_all [Op.isLocal, Op.isRecv]

/-- The operation changes the shared contents or the keystore file. -/
def Op.changesContents : Op → Bool
  | .write _ => true
  | .saveFile _ => true
  | _ => false

/-- The message asks for a change of the PC's state. -/
def isStateChange : ClientFrame → Bool
  | .sleep => true
  | .lock => true
  | .powerOff => true
  | _ => false

/-- The handler call of a message. -/
def commandOf : ClientFrame → Option Op
  | .sleep => some .sleep
  | .lock => some .lock
  | .powerOff => some .powerOff
  | _ => none

/-- The message offers a pairing code. -/
def isPair : ClientFrame → Bool
  | .pair _ _ => true
  | _ => false

/-! ## The cases of a dispatch -/

/-- How a dispatch goes on after it has read the clock and the contents `snap`. -/
inductive Answered (peerSpki : SpkiHash) (requestNonce : UInt64) (snap : KeystoreContents)
    (reauthState : ReauthState) : ClientFrame → List TaskEvent → DaemonFrame → Prop where
  | pair (phoneName : RustString) (pairingCode : UInt32) :
      Answered peerSpki requestNonce snap reauthState (.pair phoneName pairingCode) []
        (.error requestNonce .notPaired)
  | blocked (frame : ClientFrame) (hframe : isStateChange frame = true)
      (hstate : reauthState = .needsReauth) :
      Answered peerSpki requestNonce snap reauthState frame [] (.error requestNonce .requiresReauth)
  | sleep (hstate : reauthState = .active) (result : Except OsHandlerError Unit) :
      Answered peerSpki requestNonce snap reauthState .sleep [⟨.sleep, result⟩]
        (handlerToResponse result requestNonce)
  | lock (hstate : reauthState = .active) (result : Except OsHandlerError Unit) :
      Answered peerSpki requestNonce snap reauthState .lock [⟨.lock, result⟩]
        (handlerToResponse result requestNonce)
  | powerOff (hstate : reauthState = .active) (result : Except OsHandlerError Unit) :
      Answered peerSpki requestNonce snap reauthState .powerOff [⟨.powerOff, result⟩]
        (handlerToResponse result requestNonce)
  | probed (s : PcState) :
      Answered peerSpki requestNonce snap reauthState .stateProbe
        [⟨.currentSessionState, Except.ok s⟩] (.stateReport s)
  | probeFailed (e : OsHandlerError) :
      Answered peerSpki requestNonce snap reauthState .stateProbe
        [⟨.currentSessionState, Except.error e⟩] (.error requestNonce .internal)
  | reauthStatus :
      Answered peerSpki requestNonce snap reauthState .reauthStatus []
        (.reauthInfo snap.lastAuthenticatedAtUnixMs (intervalFromDays snap.reauthIntervalDays)
          (expiresAtUnixMs snap.lastAuthenticatedAtUnixMs snap.reauthIntervalDays))
  | configured (interval : ReauthInterval) (stored : KeystoreContents) :
      Answered peerSpki requestNonce snap reauthState (.reauthConfig interval)
        [⟨.write (.reauthInterval (intervalToDays interval)), ()⟩, ⟨.snapshot, stored⟩,
          ⟨.saveFile stored, Except.ok ()⟩] (.ack requestNonce)
  | configFailed (interval : ReauthInterval) (stored : KeystoreContents) (e : KeystoreError) :
      Answered peerSpki requestNonce snap reauthState (.reauthConfig interval)
        [⟨.write (.reauthInterval (intervalToDays interval)), ()⟩, ⟨.snapshot, stored⟩,
          ⟨.saveFile stored, Except.error e⟩] (.error requestNonce .internal)
  | removedNone :
      Answered peerSpki requestNonce snap reauthState .revokeAck
        [⟨.write (.removeRevoked peerSpki), (0 : ℕ)⟩] (.ack requestNonce)
  | removed (count : ℕ) (hcount : 0 < count) (stored : KeystoreContents)
      (result : Except KeystoreError Unit) :
      Answered peerSpki requestNonce snap reauthState .revokeAck
        [⟨.write (.removeRevoked peerSpki), count⟩, ⟨.snapshot, stored⟩, ⟨.saveFile stored, result⟩]
        (.ack requestNonce)

private theorem stateChange_trace {reauthState : ReauthState} {requestNonce : UInt64}
    {handler : Task (Except OsHandlerError Unit)} {events : List TaskEvent}
    {response : DaemonFrame}
    (h : (stateChange reauthState requestNonce handler).Trace events response) :
    (reauthState = .needsReauth ∧ events = [] ∧ response = .error requestNonce .requiresReauth) ∨
      (reauthState = .active ∧
        ∃ result, handler.Trace events result ∧
          response = handlerToResponse result requestNonce) := by
  cases reauthState with
  | needsReauth =>
      obtain ⟨rfl, rfl⟩ := h
      exact .inl ⟨rfl, rfl, rfl⟩
  | active =>
      obtain ⟨front, back, result, rfl, hhandler, rfl, rfl⟩ := (Prog.trace_bind _ _ _ _).mp h
      exact .inr ⟨rfl, result, by simpa using hhandler, rfl⟩

/-- A dispatch reads the clock, reads the contents, and goes on in one of the ways
of `Answered`. -/
theorem dispatch_answered {peerSpki : SpkiHash} {frame : ClientFrame} {requestNonce : UInt64}
    {events : List TaskEvent} {response : DaemonFrame}
    (h : (dispatch peerSpki frame requestNonce).Trace events response) :
    ∃ (nowMs : UInt64) (snap : KeystoreContents) (rest : List TaskEvent),
      events = ⟨.clock, nowMs⟩ :: ⟨.snapshot, snap⟩ :: rest ∧
      Answered peerSpki requestNonce snap
        (evaluate nowMs snap.lastAuthenticatedAtUnixMs snap.reauthIntervalDays) frame rest
        response := by
  obtain ⟨nowMs, events₁, rfl, snap, rest, rfl, h⟩ := h
  refine ⟨nowMs, snap, rest, rfl, ?_⟩
  cases frame with
  | pair phoneName pairingCode =>
      obtain ⟨rfl, rfl⟩ := h
      exact .pair phoneName pairingCode
  | sleep =>
      rcases stateChange_trace h with ⟨hstate, rfl, rfl⟩ | ⟨hstate, result, hhandler, rfl⟩
      · exact .blocked .sleep rfl hstate
      · obtain ⟨_, _, rfl, rfl, rfl⟩ := hhandler
        exact .sleep hstate _
  | lock =>
      rcases stateChange_trace h with ⟨hstate, rfl, rfl⟩ | ⟨hstate, result, hhandler, rfl⟩
      · exact .blocked .lock rfl hstate
      · obtain ⟨_, _, rfl, rfl, rfl⟩ := hhandler
        exact .lock hstate _
  | powerOff =>
      rcases stateChange_trace h with ⟨hstate, rfl, rfl⟩ | ⟨hstate, result, hhandler, rfl⟩
      · exact .blocked .powerOff rfl hstate
      · obtain ⟨_, _, rfl, rfl, rfl⟩ := hhandler
        exact .powerOff hstate _
  | stateProbe =>
      obtain ⟨result, rest, rfl, h⟩ := h
      cases result with
      | ok s =>
          obtain ⟨rfl, rfl⟩ := h
          exact .probed s
      | error e =>
          obtain ⟨rfl, rfl⟩ := h
          exact .probeFailed e
  | reauthStatus =>
      obtain ⟨rfl, rfl⟩ := h
      exact .reauthStatus
  | reauthConfig interval =>
      obtain ⟨_, rest, rfl, stored, rest', rfl, result, rest'', rfl, h⟩ := h
      cases result with
      | ok _ =>
          obtain ⟨rfl, rfl⟩ := h
          exact .configured interval stored
      | error e =>
          obtain ⟨rfl, rfl⟩ := h
          exact .configFailed interval stored e
  | revokeAck =>
      obtain ⟨(count : ℕ), rest, rfl, h⟩ := h
      change (if count > 0 then _ else _ : Task DaemonFrame).Trace rest response at h
      by_cases hcount : count > 0
      · rw [if_pos hcount] at h
        obtain ⟨stored, rest', rfl, result, rest'', rfl, rfl, rfl⟩ := h
        exact .removed count hcount stored result
      · rw [if_neg hcount] at h
        obtain ⟨rfl, rfl⟩ := h
        obtain rfl : count = 0 := Nat.eq_zero_of_not_pos hcount
        exact .removedNone

private theorem stateChange_uses {P : Op → Prop} (reauthState : ReauthState)
    (requestNonce : UInt64) {handler : Task (Except OsHandlerError Unit)} (h : handler.Uses P) :
    (stateChange reauthState requestNonce handler).Uses P := by
  cases reauthState with
  | active => exact h.bind fun _ => trivial
  | needsReauth => trivial

private theorem save_uses : save.Uses fun o => o.isLocal = true :=
  ⟨rfl, fun _ => ⟨rfl, fun _ => trivial⟩⟩

/-- The only operations of a dispatch are local ones, and it is never cut off. -/
theorem dispatch_uses (peerSpki : SpkiHash) (frame : ClientFrame) (requestNonce : UInt64) :
    (dispatch peerSpki frame requestNonce).Uses fun o => o.isLocal = true := by
  refine ⟨rfl, fun nowMs => ⟨rfl, fun snap => ?_⟩⟩
  cases frame with
  | pair phoneName pairingCode => trivial
  | sleep => exact stateChange_uses _ _ ⟨rfl, fun _ => trivial⟩
  | lock => exact stateChange_uses _ _ ⟨rfl, fun _ => trivial⟩
  | powerOff => exact stateChange_uses _ _ ⟨rfl, fun _ => trivial⟩
  | stateProbe => exact ⟨rfl, fun result => by cases result <;> trivial⟩
  | reauthStatus => trivial
  | reauthConfig interval =>
      refine ⟨rfl, fun _ => save_uses.bind fun result => ?_⟩
      cases result <;> trivial
  | revokeAck =>
      refine ⟨rfl, fun (removed : ℕ) => ?_⟩
      change (if removed > 0 then _ else _ : Task DaemonFrame).Uses _
      split
      · exact save_uses.bind fun _ => trivial
      · trivial

/-! ## Recording an address -/

theorem recordAddress_uses (peerSpki : SpkiHash) (peerAddr : SocketAddr) :
    (recordAddress peerSpki peerAddr).Uses fun o => o.isLocal = true := by
  refine ⟨rfl, fun (changed : Bool) => ?_⟩
  cases changed with
  | false => trivial
  | true => exact ⟨rfl, fun _ => ⟨rfl, fun _ => trivial⟩⟩

/-- An address is written once, and stored when it is a new one. -/
theorem recordAddress_trace {peerSpki : SpkiHash} {peerAddr : SocketAddr}
    {events : List TaskEvent} {a : Unit}
    (h : (recordAddress peerSpki peerAddr).Trace events a) :
    events = [⟨.write (.lastKnownAddress peerSpki peerAddr), false⟩] ∨
      ∃ stored result, events = [⟨.write (.lastKnownAddress peerSpki peerAddr), true⟩,
        ⟨.snapshot, stored⟩, ⟨.saveFile stored, result⟩] := by
  obtain ⟨(changed : Bool), rest, rfl, h⟩ := h
  cases changed with
  | false =>
      obtain ⟨rfl, -⟩ := h
      exact .inl rfl
  | true =>
      obtain ⟨stored, rest, rfl, result, rest', rfl, rfl, -⟩ := h
      exact .inr ⟨stored, result, rfl⟩

/-! ## The answer -/

/-- The request that an answer refers to. -/
def requestNonceOf : DaemonFrame → Option UInt64
  | .ack requestNonce => some requestNonce
  | .error requestNonce _ => some requestNonce
  | _ => none

section Answer

variable {peerSpki : SpkiHash} {requestNonce : UInt64} {snap : KeystoreContents}
  {reauthState : ReauthState} {frame : ClientFrame} {rest : List TaskEvent}
  {response : DaemonFrame}

/-- An answer that refers to a request refers to the one that was dispatched. -/
theorem response_nonce (h : Answered peerSpki requestNonce snap reauthState frame rest response) :
    requestNonceOf response = none ∨ requestNonceOf response = some requestNonce := by
  cases h with
  | sleep hstate result => cases result <;> exact .inr rfl
  | lock hstate result => cases result <;> exact .inr rfl
  | powerOff hstate result => cases result <;> exact .inr rfl
  | probed s => exact .inl rfl
  | reauthStatus => exact .inl rfl
  | _ => exact .inr rfl

/-- An answer closes the connection exactly when the message was `Pair`. -/
theorem responseClosesConnection_eq
    (h : Answered peerSpki requestNonce snap reauthState frame rest response) :
    responseClosesConnection response = isPair frame := by
  cases h with
  | blocked _ hframe hstate => cases frame <;> first | rfl | simp [isStateChange] at hframe
  | sleep hstate result => cases result <;> rfl
  | lock hstate result => cases result <;> rfl
  | powerOff hstate result => cases result <;> rfl
  | _ => rfl

private theorem no_command (h : Answered peerSpki requestNonce snap reauthState frame rest response)
    (hframe : commandOf frame = none ∨ reauthState = .needsReauth) :
    ∀ e ∈ rest, e.op.isCommand = false := by
  cases h <;> simp_all [Op.isCommand, commandOf]

/-- In the locked state a command is refused. -/
theorem refused_of_needsReauth
    (h : Answered peerSpki requestNonce snap .needsReauth frame rest response)
    (hframe : isStateChange frame = true) : response = .error requestNonce .requiresReauth := by
  cases h with
  | blocked _ _ _ => rfl
  | sleep hstate result => cases hstate
  | lock hstate result => cases hstate
  | powerOff hstate result => cases hstate
  | _ => simp [isStateChange] at hframe

/-- Commands are answered with an error that asks for a credential prompt exactly in the
locked state. -/
theorem refused_iff (h : Answered peerSpki requestNonce snap reauthState frame rest response)
    (hframe : isStateChange frame = true) :
    response = .error requestNonce .requiresReauth ↔ reauthState = .needsReauth := by
  cases reauthState with
  | needsReauth => exact iff_of_true (refused_of_needsReauth h hframe) rfl
  | active =>
      refine iff_of_false (fun heq => ?_) (by simp)
      cases h with
      | blocked _ _ hstate => cases hstate
      | sleep _ result => cases result <;> cases heq
      | lock _ result => cases result <;> cases heq
      | powerOff _ result => cases result <;> cases heq
      | _ => simp [isStateChange] at hframe

/-- A handler call comes from the message of that name, in the unlocked state. -/
theorem command_of_mem (h : Answered peerSpki requestNonce snap reauthState frame rest response)
    {e : TaskEvent} (he : e ∈ rest) (hcommand : e.op.isCommand = true) :
    commandOf frame = some e.op ∧ reauthState = .active := by
  have hnone := no_command h
  cases h with
  | blocked _ hframe hstate => simp [hnone (.inr hstate) e he] at hcommand
  | sleep hstate result =>
      obtain rfl := List.mem_singleton.mp he
      exact ⟨rfl, hstate⟩
  | lock hstate result =>
      obtain rfl := List.mem_singleton.mp he
      exact ⟨rfl, hstate⟩
  | powerOff hstate result =>
      obtain rfl := List.mem_singleton.mp he
      exact ⟨rfl, hstate⟩
  | _ => simp [hnone (.inl rfl) e he] at hcommand

end Answer
end Daemon
end WakeMyPc
