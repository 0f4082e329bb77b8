import WakeMyPc.Daemon.LostUpdate

/-!
# Requests that change the state

`ReauthConfig` and `RevokeAck` change the contents in memory, save them, and answer.  A save
that fails comes after the change, and the two requests treat it differently.

Main results:

- Definition `AllOrNothing`: an answered request was carried out, and a refused one was not.
- Theorem `all_or_nothing_iff`: when a request is all or nothing.
-/

namespace WakeMyPc
namespace Daemon

open Foundations
open Foundations.Prog (exec)
open Protocol

/-! ## Requests -/

/-- A request to change the state of the server. -/
inductive ChangeRequest where
  | reauthConfig (interval : ReauthInterval)
  | revokeAck
deriving DecidableEq

namespace ChangeRequest

/-- The message of a request. -/
def frame : ChangeRequest → ClientFrame
  | reauthConfig interval => .reauthConfig interval
  | revokeAck => .revokeAck

/-- The change that a phone asks for. -/
def update (peerSpki : SpkiHash) : ChangeRequest → Update
  | reauthConfig interval => .reauthInterval (intervalToDays interval)
  | revokeAck => .removeRevoked peerSpki

/-- The contents reflect the change: the interval is the requested one, or no record of the
phone is revoked. -/
def Reflected (peerSpki : SpkiHash) (c : KeystoreContents) : ChangeRequest → Prop
  | reauthConfig interval => c.reauthIntervalDays = intervalToDays interval
  | revokeAck => ∀ p ∈ c.pairings, p.clientSpki = peerSpki → p.revoked = false

instance (peerSpki : SpkiHash) (c : KeystoreContents) (request : ChangeRequest) :
    Decidable (request.Reflected peerSpki c) :=
  match request with
  | reauthConfig _ => inferInstanceAs (Decidable (_ = _))
  | revokeAck => inferInstanceAs (Decidable (∀ p ∈ c.pairings, _))

/-- A change that has been made is reflected. -/
theorem reflected_update (request : ChangeRequest) (peerSpki : SpkiHash) (c : KeystoreContents) :
    request.Reflected peerSpki ((request.update peerSpki).apply c) := by
  cases request with
  | reauthConfig interval => rfl
  | revokeAck =>
      intro p hp hpeer
      have hkept := (List.mem_filter.mp hp).2
      simpa [hpeer] using hkept

/-- What is read back reflects what the contents reflect. -/
theorem reflected_reloaded (request : ChangeRequest) {peerSpki : SpkiHash} {c : KeystoreContents}
    (h : request.Reflected peerSpki c) : request.Reflected peerSpki c.reloaded := by
  cases request with
  | reauthConfig interval => exact h
  | revokeAck =>
      intro p hp hpeer
      obtain ⟨q, hq, rfl⟩ := List.mem_map.mp hp
      exact h q hq hpeer

end ChangeRequest

/-- The memory of the server and the file hold contents that reflect a change. -/
def World.Reflects (w : World) (peerSpki : SpkiHash) (request : ChangeRequest) : Prop :=
  (∃ c, w.server = some c ∧ request.Reflected peerSpki c) ∧
    ∃ c, w.file = some c ∧ request.Reflected peerSpki c

/-- An acknowledged request is reflected in memory and in the file, and one that is answered
with an error has changed neither. -/
def AllOrNothing (before after : World) (peerSpki : SpkiHash) (request : ChangeRequest) :
    DaemonFrame → Prop
  | .ack _ => after.Reflects peerSpki request
  | .error _ _ => after = before
  | _ => True

section Served

variable (extractSpkiHash : Bytes → Except Crypto.Error SpkiHash)

/-- What a connection does on a request, with no other process in between. -/
def served (kind : Kind) (outside : (o : Op) → Ans o) (w : World) (peerSpki : SpkiHash)
    (request : ChangeRequest) (requestNonce : UInt64) : Outcome Op Ans World DaemonFrame :=
  exec (kind.answer extractSpkiHash outside) (dispatch peerSpki request.frame requestNonce) w

variable (kind : Kind) (outside : (o : Op) → Ans o)

/-- The outcome of the save of some contents. -/
def saveResult (c : KeystoreContents) : Except KeystoreError Unit :=
  outside (.saveFile c)

/-- A save changes the file if it succeeds, to what is read back of the contents. -/
theorem answer_saveFile (w : World) (c : KeystoreContents) :
    kind.answer extractSpkiHash outside w (.saveFile c) =
      some (saveResult outside c,
        if saveResult outside c = .ok () then { w with file := some c.reloaded } else w) := by
  unfold saveResult
  simp only [Kind.answer]
  cases (outside (.saveFile c) : Except KeystoreError Unit) with
  | ok _ => rfl
  | error e => rfl

/-- A save stores what is read back of the contents in memory. -/
theorem exec_save (file : Option KeystoreContents) (c : KeystoreContents) :
    exec (kind.answer extractSpkiHash outside) save ⟨file, some c⟩ =
      ⟨[⟨.snapshot, c⟩, ⟨.saveFile c, saveResult outside c⟩], some (saveResult outside c),
        if saveResult outside c = .ok () then ⟨some c.reloaded, some c⟩ else ⟨file, some c⟩⟩ := by
  have hstep := Prog.exec_call_some (fun result => .ret result)
    (answer_saveFile extractSpkiHash kind outside ⟨file, some c⟩ c)
  let afterSnapshot (out : Outcome Op Ans World (Except KeystoreError Unit)) :
      Outcome Op Ans World (Except KeystoreError Unit) :=
    ⟨⟨.snapshot, c⟩ :: out.events, out.value, out.world⟩
  exact congrArg afterSnapshot hstep

/-- A new interval is in memory before it is saved. -/
theorem served_reauthConfig (file : Option KeystoreContents) (c : KeystoreContents)
    (peerSpki : SpkiHash) (interval : ReauthInterval) (requestNonce : UInt64) :
    let out := served extractSpkiHash kind outside ⟨file, some c⟩ peerSpki
      (.reauthConfig interval) requestNonce
    let changed := (Update.reauthInterval (intervalToDays interval)).apply c
    match saveResult outside changed with
    | .ok () =>
        out.value = some (.ack requestNonce) ∧ out.world = ⟨some changed.reloaded, some changed⟩
    | .error _ =>
        out.value = some (.error requestNonce .internal) ∧ out.world = ⟨file, some changed⟩ := by
  intro out changed
  have hvalue : out.value = (exec (kind.answer extractSpkiHash outside) (save >>= _)
    ⟨file, some changed⟩).value := rfl
  have hworld : out.world = (exec (kind.answer extractSpkiHash outside) (save >>= _)
    ⟨file, some changed⟩).world := rfl
  rw [hvalue, hworld, Prog.exec_bind, exec_save]
  cases saveResult outside changed with
  | ok _ => exact ⟨rfl, rfl⟩
  | error e => exact ⟨rfl, rfl⟩

/-- The number of records that are removed. -/
def removedCount (peerSpki : SpkiHash) (c : KeystoreContents) : ℕ :=
  ((Update.removeRevoked peerSpki).run c).1

/-- Records are removed exactly when some record of the phone is revoked. -/
theorem removedCount_pos_iff (peerSpki : SpkiHash) (c : KeystoreContents) :
    0 < removedCount peerSpki c ↔ ¬ ChangeRequest.revokeAck.Reflected peerSpki c := by
  change 0 < c.pairings.length -
    (c.pairings.filter fun p => !(p.clientSpki == peerSpki && p.revoked)).length ↔ _
  rw [Nat.sub_pos_iff_lt, List.length_filter_lt_length_iff_exists]
  simp [ChangeRequest.Reflected]

/-- The removed records are gone from memory whether or not the save succeeds. -/
theorem served_revokeAck (file : Option KeystoreContents) (c : KeystoreContents)
    (peerSpki : SpkiHash) (requestNonce : UInt64) :
    let out := served extractSpkiHash kind outside ⟨file, some c⟩ peerSpki .revokeAck requestNonce
    let changed := (Update.removeRevoked peerSpki).apply c
    out.value = some (.ack requestNonce) ∧
      out.world = ⟨if ¬ ChangeRequest.revokeAck.Reflected peerSpki c ∧
          saveResult outside changed = .ok () then some changed.reloaded else file,
        some changed⟩ := by
  intro out changed
  have hvalue : out.value = (exec (kind.answer extractSpkiHash outside)
    (if removedCount peerSpki c > 0 then (save >>= _) else _)
      ⟨file, some changed⟩).value := rfl
  have hworld : out.world = (exec (kind.answer extractSpkiHash outside)
    (if removedCount peerSpki c > 0 then (save >>= _) else _)
      ⟨file, some changed⟩).world := rfl
  rw [hvalue, hworld]
  by_cases hremoved : 0 < removedCount peerSpki c
  · rw [if_pos hremoved, Prog.exec_bind, exec_save]
    rw [removedCount_pos_iff] at hremoved
    cases hsaved : saveResult outside changed with
    | ok _ => exact ⟨rfl, by simp [Prog.andThen, hremoved]⟩
    | error e => exact ⟨rfl, by simp [Prog.andThen]⟩
  · rw [if_neg hremoved]
    rw [removedCount_pos_iff, not_not] at hremoved
    rw [if_neg fun h => h.1 hremoved]
    exact ⟨rfl, rfl⟩

variable {extractSpkiHash}

/-! ## The keystore of a running server -/

/-- While the server runs there is a keystore file. -/
theorem file_of_server {file : Option KeystoreContents} {h : Host} {actions : List Action}
    (hsteps : takeSteps (Host.step extractSpkiHash) (Host.initial file) actions = some h) :
    h.world.server.isSome → h.world.file.isSome := by
  apply takeSteps_invariant (fun h : Host => h.world.server.isSome → h.world.file.isSome) ?_ ?_
    hsteps
  · intro h a h' hfile hstep
    cases Host.stepped_of_step hstep with
    | start hserver hloaded => exact fun _ => by rw [hloaded]; rfl
    | stop => exact fun hsome => by cases hsome
    | accept hserver certs peerAddr rounds reads => exact hfile
    | launch command => exact hfile
    | perform ht hthread heffect =>
        cases heffect with
        | write u hserver => exact fun _ => hfile (by rw [hserver]; rfl)
        | saved c => exact fun _ => rfl
        | _ => exact hfile
  · simp [Host.initial]

/-! ## When a request is all or nothing -/

/-- The request succeeds as a whole: its save succeeds, or what the save would store is there
already. -/
def Sound (peerSpki : SpkiHash) (memory stored : KeystoreContents)
    (request : ChangeRequest) : Prop :=
  let saved := saveResult outside ((request.update peerSpki).apply memory) = .ok ()
  match request with
  | .reauthConfig _ => saved ∨ request.Reflected peerSpki memory
  | .revokeAck => (saved ∧ ¬ request.Reflected peerSpki memory) ∨ request.Reflected peerSpki stored

/-- A change of the interval is all or nothing when its save succeeds, or when it changes
nothing. -/
theorem reauthConfig_allOrNothing_iff (stored memory : KeystoreContents) (peerSpki : SpkiHash)
    (interval : ReauthInterval) (requestNonce : UInt64) :
    let before : World := ⟨some stored, some memory⟩
    let out := served extractSpkiHash kind outside before peerSpki (.reauthConfig interval)
      requestNonce
    ∃ response, out.value = some response ∧
      (AllOrNothing before out.world peerSpki (.reauthConfig interval) response ↔
        Sound outside peerSpki memory stored (.reauthConfig interval)) := by
  intro before out
  have hserved := served_reauthConfig extractSpkiHash kind outside (some stored) memory peerSpki
    interval requestNonce
  dsimp only at hserved
  cases hsaved : saveResult outside
    ((Update.reauthInterval (intervalToDays interval)).apply memory) with
  | ok _ =>
      rw [hsaved] at hserved
      obtain ⟨hvalue, hafter⟩ := hserved
      refine ⟨_, hvalue, iff_of_true ?_ (.inl hsaved)⟩
      rw [hafter]
      exact ⟨⟨_, rfl, rfl⟩, _, rfl, rfl⟩
  | error e =>
      rw [hsaved] at hserved
      obtain ⟨hvalue, hafter⟩ := hserved
      refine ⟨_, hvalue, ?_⟩
      rw [hafter]
      constructor
      · intro hsame
        have hmemory := Option.some.inj (congrArg World.server hsame)
        exact .inr (congrArg KeystoreContents.reauthIntervalDays hmemory).symm
      · rintro (hok | hsame)
        · cases hsaved.symm.trans hok
        · have hmemory : (Update.reauthInterval (intervalToDays interval)).apply memory =
              memory := by
            rw [← show memory.reauthIntervalDays = intervalToDays interval from hsame]
            rfl
          rw [hmemory]
          rfl

/-- The removal of the revoked records, which is always acknowledged, is all or nothing when
the file has none of them afterwards. -/
theorem revokeAck_allOrNothing_iff (stored memory : KeystoreContents) (peerSpki : SpkiHash)
    (requestNonce : UInt64) :
    let before : World := ⟨some stored, some memory⟩
    let out := served extractSpkiHash kind outside before peerSpki .revokeAck requestNonce
    ∃ response, out.value = some response ∧
      (AllOrNothing before out.world peerSpki .revokeAck response ↔
        Sound outside peerSpki memory stored .revokeAck) := by
  intro before out
  obtain ⟨hvalue, hafter⟩ := served_revokeAck extractSpkiHash kind outside (some stored) memory
    peerSpki requestNonce
  refine ⟨_, hvalue, ?_⟩
  rw [hafter]
  have hmemory := ChangeRequest.revokeAck.reflected_update peerSpki memory
  by_cases hsave : ¬ ChangeRequest.revokeAck.Reflected peerSpki memory ∧
      saveResult outside ((Update.removeRevoked peerSpki).apply memory) = .ok ()
  · rw [if_pos hsave]
    exact iff_of_true ⟨⟨_, rfl, hmemory⟩, _, rfl, ChangeRequest.reflected_reloaded _ hmemory⟩
      (.inl hsave.symm)
  · rw [if_neg hsave]
    constructor
    · rintro ⟨-, c, hstored, hreflected⟩
      obtain rfl := Option.some.inj hstored
      exact .inr hreflected
    · rintro (hsaved | hreflected)
      · exact absurd hsaved.symm hsave
      · exact ⟨⟨_, rfl, hmemory⟩, _, rfl, hreflected⟩

/-- A request on a server in any state that it can reach is answered, and is all or nothing
exactly when its save succeeds or is not needed: a new interval is the one in memory already,
or no record of the phone in the file is revoked. -/
theorem all_or_nothing_iff {file : Option KeystoreContents} {h : Host} {actions : List Action}
    (hsteps : takeSteps (Host.step extractSpkiHash) (Host.initial file) actions = some h)
    {memory : KeystoreContents} (hserver : h.world.server = some memory) (peerSpki : SpkiHash)
    (request : ChangeRequest) (requestNonce : UInt64) :
    ∃ stored response, h.world.file = some stored ∧
      (served extractSpkiHash kind outside h.world peerSpki request requestNonce).value =
        some response ∧
      (AllOrNothing h.world
          (served extractSpkiHash kind outside h.world peerSpki request requestNonce).world peerSpki
          request response ↔
        Sound outside peerSpki memory stored request) := by
  obtain ⟨stored, hfile⟩ :=
    Option.isSome_iff_exists.mp (file_of_server hsteps (by rw [hserver]; rfl))
  have hworld : h.world = ⟨some stored, some memory⟩ := by
    rw [← hfile, ← hserver]
  rw [hworld]
  cases request with
  | reauthConfig interval =>
      obtain ⟨response, hvalue, hiff⟩ := reauthConfig_allOrNothing_iff kind outside stored
        memory peerSpki interval requestNonce
      exact ⟨stored, response, rfl, hvalue, hiff⟩
  | revokeAck =>
      obtain ⟨response, hvalue, hiff⟩ := revokeAck_allOrNothing_iff kind outside stored memory
        peerSpki requestNonce
      exact ⟨stored, response, rfl, hvalue, hiff⟩

end Served

/-! ## A save that fails -/

/-- Outside calls that succeed, except for the save. -/
def failingSave (o : Op) : Ans o :=
  match o with
  | .saveFile _ => Except.error (.io .io)
  | o => succeeding pairedContents o

/-- The server starts, and the phone connects and passes both checks. -/
def phoneConnects : List Action :=
  [.start, .accept [[]] phoneAddress 1 1] ++ performs 0 7

/-- The contents once the address of the phone has been recorded. -/
def addressedContents : KeystoreContents :=
  { pairedContents with pairings := [{ livePairing with lastKnownAddress := some phoneAddress }] }

private theorem phoneConnects_steps :
    ∃ h, takeSteps (Host.step phoneSpki) (Host.initial (some pairedContents)) phoneConnects =
      some h ∧ h.world = ⟨some addressedContents, some addressedContents⟩ :=
  Option.map_eq_some_iff.mp (show (takeSteps (Host.step phoneSpki)
    (Host.initial (some pairedContents)) phoneConnects).map Host.world = some _ from rfl)

/-- A new interval that can be saved is in memory and in the file. -/
theorem interval_changed :
    ∃ h response,
      takeSteps (Host.step phoneSpki) (Host.initial (some pairedContents)) phoneConnects = some h ∧
      let out := served phoneSpki (.connection [[]] phoneAddress 1 1) (succeeding pairedContents)
        h.world phoneKey (.reauthConfig .oneDay) 1
      out.value = some response ∧
        AllOrNothing h.world out.world phoneKey (.reauthConfig .oneDay) response := by
  obtain ⟨h, hsteps, hworld⟩ := phoneConnects_steps
  obtain ⟨stored, response, -, hvalue, hiff⟩ := all_or_nothing_iff
    (.connection [[]] phoneAddress 1 1) (succeeding pairedContents) hsteps
    (congrArg World.server hworld) phoneKey (.reauthConfig .oneDay) 1
  exact ⟨h, response, hsteps, hvalue, hiff.mpr (.inl rfl)⟩

/-- A new interval that cannot be saved is refused, and stays in memory. -/
theorem interval_refused_but_changed :
    ∃ h response,
      takeSteps (Host.step phoneSpki) (Host.initial (some pairedContents)) phoneConnects = some h ∧
      let out := served phoneSpki (.connection [[]] phoneAddress 1 1) failingSave
        h.world phoneKey (.reauthConfig .oneDay) 1
      out.value = some response ∧
        ¬ AllOrNothing h.world out.world phoneKey (.reauthConfig .oneDay) response := by
  obtain ⟨h, hsteps, hworld⟩ := phoneConnects_steps
  obtain ⟨hvalue, hafter⟩ := served_reauthConfig phoneSpki
    (.connection [[]] phoneAddress 1 1) failingSave (some addressedContents) addressedContents
    phoneKey .oneDay 1
  refine ⟨h, .error 1 .internal, hsteps, ?_, ?_⟩
  · rw [hworld]
    exact hvalue
  · rw [hworld, hafter]
    intro hsame
    cases congrArg (fun w : World => w.server.map (·.reauthIntervalDays)) hsame

end Daemon
end WakeMyPc
