import WakeMyPc.Daemon.AllOrNothing
import WakeMyPc.Foundations.WriteBack

/-!
# The keystore file when no save is due

A connection that has changed the shared contents takes a copy of them, and then stores the
copy in the keystore file.  No lock is held in between, so the copy can be old by then.

Main results:

- Theorem `acceptConnection_saves`: a connection copies and stores the contents after each
  change, and at no other time.
- Theorem `Host.move_of_step`: a running server writes its contents back to the file.
- Theorem `disk_agrees_when_quiet`: when no save is due, the file has the contents in memory,
  but for flow information and scopes, and a server that is restarted reports the interval
  that was set last.
-/

namespace WakeMyPc
namespace Daemon

open Foundations
open Foundations.Prog (exec safe_bind safe_loop)
open Protocol
open Crypto (NonceCounter)

/-! ## How far a connection is with a change -/

/-- The stage after one more operation. -/
def stageStep (stage : Stage (Option KeystoreContents)) :
    TaskEvent → Stage (Option KeystoreContents)
  | ⟨.write u, out⟩ => if u.changed out then .changed else stage
  | ⟨.snapshot, snap⟩ =>
      match stage with
      | .changed => .copied (some snap)
      | stage => stage
  | ⟨.saveFile _, _⟩ => .clean
  | _ => stage

/-- How far a connection with this history is with its last change. -/
def stageOf (h : List TaskEvent) : Stage (Option KeystoreContents) :=
  h.foldl stageStep .clean

/-- The operation has changed the shared contents. -/
def changedBy : TaskEvent → Bool
  | ⟨.write u, out⟩ => u.changed out
  | _ => false

theorem stageOf_concat (h : List TaskEvent) (e : TaskEvent) :
    stageOf (h ++ [e]) = stageStep (stageOf h) e :=
  List.foldl_concat _ _ _ _

/-- A change is copied next, and the copy stored after that; nothing else is stored. -/
def SaverOp (h : List TaskEvent) (o : Op) : Prop :=
  match stageOf h with
  | .clean => ∀ contents, o ≠ .saveFile contents
  | .changed => o = .snapshot
  | .copied copy => ∃ contents, copy = some contents ∧ o = .saveFile contents

/-- An operation that changes nothing leaves a connection without a change so. -/
theorem stageStep_clean {e : TaskEvent} (hop : e.op.changesContents = false) :
    stageStep .clean e = .clean := by
  obtain ⟨o, r⟩ := e
  cases o <;> first | rfl | simp [Op.changesContents] at hop

/-- Such an operation fits, and the rest starts without a change. -/
theorem safe_call_clean {α : Type} {h : List TaskEvent} (hclean : stageOf h = .clean) {o : Op}
    (hop : o.changesContents = false) {k : Ans o → Task α} {Q : List TaskEvent → α → Prop}
    (hk : ∀ r h', stageOf h' = .clean → (k r).Safe SaverOp h' Q) :
    (Prog.call o k).Safe SaverOp h Q := by
  refine ⟨?_, fun r => hk r _ ?_⟩
  · rw [SaverOp, hclean]
    rintro contents rfl
    cases hop
  · rw [stageOf_concat, hclean]
    exact stageStep_clean hop

/-- A block under the write lock fits; it is followed by a save if it has changed something. -/
theorem safe_write {α : Type} {h : List TaskEvent} (hclean : stageOf h = .clean) (u : Update)
    {k : u.Out → Task α} {Q : List TaskEvent → α → Prop}
    (hchanged : ∀ out h', u.changed out = true → stageOf h' = .changed → (k out).Safe SaverOp h' Q)
    (hsame : ∀ out h', u.changed out = false → stageOf h' = .clean → (k out).Safe SaverOp h' Q) :
    (Prog.call (.write u) k).Safe SaverOp h Q := by
  refine ⟨?_, fun (out : u.Out) => ?_⟩
  · rw [SaverOp, hclean]
    intro contents heq
    cases heq
  · have hstage : stageOf (h ++ [⟨.write u, out⟩]) =
        if u.changed out then .changed else .clean := by
      rw [stageOf_concat, hclean]
      rfl
    cases hout : u.changed out with
    | true => exact hchanged out _ hout (by rw [hstage, hout]; rfl)
    | false => exact hsame out _ hout (by rw [hstage, hout]; rfl)

/-- A save after a change. -/
theorem save_saves {h : List TaskEvent} (hchanged : stageOf h = .changed) :
    save.Safe SaverOp h fun h' _ => stageOf h' = .clean := by
  refine ⟨by rw [SaverOp, hchanged], fun snap => ?_⟩
  have hcopied : stageOf (h ++ [⟨.snapshot, snap⟩]) = .copied (some snap) := by
    rw [stageOf_concat, hchanged]
    rfl
  refine ⟨by rw [SaverOp, hcopied]; exact ⟨snap, rfl, rfl⟩, fun result => ?_⟩
  change stageOf (_ ++ [_]) = _
  rw [stageOf_concat]
  rfl

/-- Recording an address. -/
theorem recordAddress_saves {h : List TaskEvent} (hclean : stageOf h = .clean)
    (peerSpki : SpkiHash) (peerAddr : SocketAddr) :
    (recordAddress peerSpki peerAddr).Safe SaverOp h fun h' _ => stageOf h' = .clean := by
  refine safe_write hclean (.lastKnownAddress peerSpki peerAddr) ?_ ?_
  · rintro out h' hout hchanged
    obtain rfl : out = true := hout
    change (save >>= fun _ => return () : Task Unit).Safe _ _ _
    exact (safe_bind _ _ _ _).mpr (save_saves hchanged)
  · rintro out h' hout hclean'
    obtain rfl : out = false := hout
    exact hclean'

/-- A command, or its refusal. -/
private theorem stateChange_saves {h : List TaskEvent} (hclean : stageOf h = .clean)
    (reauthState : ReauthState) (requestNonce : UInt64) {o : Op} (hop : o.changesContents = false)
    (toResult : Ans o → Except OsHandlerError Unit) :
    (stateChange reauthState requestNonce (.call o fun r => .ret (toResult r))).Safe SaverOp h
      fun h' _ => stageOf h' = .clean := by
  unfold stateChange
  split
  · exact hclean
  · exact safe_call_clean hclean hop fun r h' hclean' => hclean'

/-- A dispatch copies and stores what it changes. -/
theorem dispatch_saves {h : List TaskEvent} (hclean : stageOf h = .clean) (peerSpki : SpkiHash)
    (frame : ClientFrame) (requestNonce : UInt64) :
    (dispatch peerSpki frame requestNonce).Safe SaverOp h fun h' _ => stageOf h' = .clean := by
  refine safe_call_clean hclean rfl fun nowMs h₁ hclean₁ => ?_
  refine safe_call_clean hclean₁ rfl fun snap h₂ hclean₂ => ?_
  cases frame with
  | pair phoneName pairingCode => exact hclean₂
  | sleep => exact stateChange_saves hclean₂ _ requestNonce (o := .sleep) rfl id
  | lock => exact stateChange_saves hclean₂ _ requestNonce (o := .lock) rfl id
  | powerOff => exact stateChange_saves hclean₂ _ requestNonce (o := .powerOff) rfl id
  | stateProbe =>
      refine safe_call_clean hclean₂ rfl fun result h₃ hclean₃ => ?_
      cases result <;> exact hclean₃
  | reauthStatus => exact hclean₂
  | reauthConfig interval =>
      refine safe_write hclean₂ (.reauthInterval (intervalToDays interval)) ?_ ?_
      · intro out h₃ _ hchanged
        refine (safe_bind save _ _ _).mpr ((save_saves hchanged).mono ?_)
        intro h₄ result hclean₄
        cases result <;> exact hclean₄
      · intro out h₃ hout
        cases hout
  | revokeAck =>
      refine safe_write hclean₂ (.removeRevoked peerSpki) ?_ ?_
      · intro (removed : ℕ) h₃ hout hchanged
        have hremoved : removed > 0 := of_decide_eq_true hout
        change (if removed > 0 then _ else _ : Task DaemonFrame).Safe _ _ _
        rw [if_pos hremoved]
        exact (safe_bind save _ _ _).mpr ((save_saves hchanged).mono fun _ _ hclean₄ => hclean₄)
      · intro (removed : ℕ) h₃ hout hclean₃
        have hremoved : ¬ removed > 0 := of_decide_eq_false hout
        change (if removed > 0 then _ else _ : Task DaemonFrame).Safe _ _ _
        rw [if_neg hremoved]
        exact hclean₃

/-! ## The whole connection -/

/-- Reading stores nothing. -/
theorem readEnvelope_saves (reads : ℕ) {h : List TaskEvent} (hclean : stageOf h = .clean)
    (buf : Bytes) :
    (readEnvelope reads buf).Safe SaverOp h fun h' _ => stageOf h' = .clean := by
  refine safe_loop (fun h (_ : Bytes) => stageOf h = .clean) ?_ reads hclean
  intro h buf hclean
  unfold readEnvelopeRound
  split
  · exact hclean
  · exact hclean
  · refine safe_call_clean hclean rfl fun result h' hclean' => ?_
    cases result with
    | error e => exact hclean'
    | ok chunk =>
        change (if _ then _ else _ : Task _).Safe _ _ _
        split_ifs <;> exact hclean'

/-- Neither does writing. -/
theorem writeFrame_saves (nonces : NonceCounter) (frame : DaemonFrame) {h : List TaskEvent}
    (hclean : stageOf h = .clean) :
    (writeFrame nonces frame).Safe SaverOp h fun h' _ => stageOf h' = .clean := by
  unfold writeFrame
  split
  · exact hclean
  · split
    · exact hclean
    · split
      · exact hclean
      · refine safe_call_clean hclean rfl fun result h' hclean' => ?_
        cases result <;> exact hclean'

theorem sendErrorAndClose_saves (requestNonce : UInt64) (code : ProtocolError)
    {h : List TaskEvent} (hclean : stageOf h = .clean) :
    (sendErrorAndClose requestNonce code).Safe SaverOp h fun h' _ => stageOf h' = .clean := by
  unfold sendErrorAndClose
  split
  · exact hclean
  · split
    · exact hclean
    · exact safe_call_clean hclean rfl fun _ _ hclean₁ =>
        safe_call_clean hclean₁ rfl fun _ _ hclean₂ => hclean₂

theorem serveEnvelope_saves (peerSpki : SpkiHash) (s : LoopState) (envelope : Envelope)
    {h : List TaskEvent} (hclean : stageOf h = .clean) :
    (serveEnvelope peerSpki s envelope).Safe SaverOp h fun h' _ => stageOf h' = .clean := by
  unfold serveEnvelope
  split
  · exact (safe_bind _ _ _ _).mpr ((sendErrorAndClose_saves _ _ hclean).mono fun _ _ h => h)
  · split
    · exact (safe_bind _ _ _ _).mpr ((sendErrorAndClose_saves _ _ hclean).mono fun _ _ h => h)
    · next frame _ =>
        refine (safe_bind _ _ _ _).mpr ((dispatch_saves hclean peerSpki frame _).mono ?_)
        intro h₁ response hclean₁
        refine (safe_bind _ _ _ _).mpr ((writeFrame_saves _ response hclean₁).mono ?_)
        rintro h₂ ⟨written, nonces⟩ hclean₂
        cases written with
        | error e => exact hclean₂
        | ok written =>
            change (if _ then _ else _ : Task _).Safe _ _ _
            split_ifs
            · exact hclean₂
            · exact safe_call_clean hclean₂ rfl fun _ _ hclean₃ => hclean₃
            · exact hclean₂

theorem protocolLoop_saves (rounds reads : ℕ) (peerSpki : SpkiHash) {h : List TaskEvent}
    (hclean : stageOf h = .clean) :
    (protocolLoop rounds reads peerSpki).Safe SaverOp h fun h' _ => stageOf h' = .clean := by
  refine safe_loop (fun h (_ : LoopState) => stageOf h = .clean) ?_ rounds hclean
  intro h s hclean
  refine (safe_bind _ _ _ _).mpr ((readEnvelope_saves reads hclean s.buf).mono ?_)
  intro h' result hclean'
  match result with
  | .error e => exact hclean'
  | .ok (none, rest) => exact hclean'
  | .ok (some envelope, rest) =>
      refine (serveEnvelope_saves peerSpki { s with buf := rest } envelope hclean').mono ?_
      intro h'' result hclean''
      cases result <;> exact hclean''

section Connection

variable {extractSpkiHash : Bytes → Except Crypto.Error SpkiHash}

theorem peerSpkiFromTls_saves {h : List TaskEvent} (hclean : stageOf h = .clean) :
    (peerSpkiFromTls extractSpkiHash).Safe SaverOp h fun h' _ => stageOf h' = .clean :=
  safe_call_clean hclean rfl fun _ _ hclean' => hclean'

/-- A connection copies and stores the contents after each change, and only then. -/
theorem acceptConnection_saves (rounds reads : ℕ) (peerAddr : SocketAddr) :
    (acceptConnection extractSpkiHash rounds reads peerAddr).Safe SaverOp []
      fun h' _ => stageOf h' = .clean := by
  refine safe_call_clean rfl rfl fun pinned h₁ hclean₁ => ?_
  refine safe_call_clean hclean₁ rfl fun result h₂ hclean₂ => ?_
  cases result with
  | error e => exact hclean₂
  | ok _ =>
      refine (safe_bind (peerSpkiFromTls extractSpkiHash) _ _ _).mpr
        ((peerSpkiFromTls_saves hclean₂).mono fun h₃ peer hclean₃ => ?_)
      cases peer with
      | error e => exact hclean₃
      | ok peerSpki =>
          refine safe_call_clean hclean₃ rfl fun checked h₄ hclean₄ => ?_
          change (if _ then _ else _ : Task _).Safe _ _ _
          split_ifs
          · refine (safe_bind _ _ _ _).mpr ((recordAddress_saves hclean₄ peerSpki peerAddr).mono ?_)
            exact fun h₅ _ hclean₅ => protocolLoop_saves rounds reads peerSpki hclean₅
          · exact sendErrorAndClose_saves 0 .revoked hclean₄

/-! ## A running server -/

/-- The address that the operation puts into the contents, if it sets one. -/
def Op.newAddress (c : KeystoreContents) : Op → Option SocketAddr
  | .write (.lastKnownAddress peerSpki peerAddr) =>
      if (setLastKnownAddress peerSpki peerAddr c.pairings).1 then some peerAddr else none
  | _ => none

/-- The operation puts no address with flow information or a scope into the contents. -/
def Op.KeepsUnscoped (c : KeystoreContents) (o : Op) : Prop :=
  ∀ addr ∈ o.newAddress c, addr.Unscoped

instance (c : KeystoreContents) (o : Op) : Decidable (o.KeepsUnscoped c) :=
  inferInstanceAs (Decidable (∀ addr ∈ o.newAddress c, addr.Unscoped))

/-- Only an address that is set can have flow information or a scope. -/
private theorem setLastKnownAddress_unscoped_iff {peerSpki : SpkiHash} {peerAddr : SocketAddr}
    {ps : List PairingRecord}
    (hps : ∀ p ∈ ps, ∀ addr, p.lastKnownAddress = some addr → addr.Unscoped) :
    (∀ p ∈ (setLastKnownAddress peerSpki peerAddr ps).2,
        ∀ addr, p.lastKnownAddress = some addr → addr.Unscoped) ↔
      ((setLastKnownAddress peerSpki peerAddr ps).1 = true → peerAddr.Unscoped) := by
  induction ps with
  | nil => simp [setLastKnownAddress]
  | cons p ps ih =>
      obtain ⟨hp, hrest⟩ := List.forall_mem_cons.mp hps
      simp only [setLastKnownAddress]
      split
      · simp only [List.forall_mem_cons, forall_const, Option.some_inj]
        exact ⟨fun h => h.1 peerAddr rfl, fun h => ⟨fun addr heq => heq ▸ h, hrest⟩⟩
      · rw [List.forall_mem_cons, ih hrest]
        exact and_iff_right hp

/-- Contents without flow information and scopes stay so exactly when an update puts none into
them. -/
theorem unscoped_update_iff {c : KeystoreContents} (hc : c.Unscoped) (u : Update) :
    (u.apply c).Unscoped ↔ (Op.write u).KeepsUnscoped c := by
  cases u with
  | lastKnownAddress peerSpki peerAddr =>
      refine (setLastKnownAddress_unscoped_iff hc).trans ?_
      simp [Op.KeepsUnscoped, Op.newAddress]
  | reauthInterval newDays => exact iff_of_true hc nofun
  | removeRevoked peerSpki =>
      exact iff_of_true (fun p hp => hc p (List.mem_filter.mp hp).1) nofun

/-- A connection is accepted, or performs an operation, and saves succeed. -/
def Action.Serves : Action → Prop
  | .accept _ _ _ _ => True
  | .perform _ outside => ∀ contents, saveResult outside contents = .ok ()
  | _ => False

/-- What the file holds of the contents. -/
def storedForm : Option KeystoreContents → Option KeystoreContents :=
  Option.map KeystoreContents.reloaded

/-- The shared contents, the keystore file, and how far the connections are. -/
def Host.writeBack (h : Host) : WriteBack (Option KeystoreContents) (Option KeystoreContents) where
  memory := h.world.server
  disk := h.world.file
  stages := h.threads.map fun t => stageOf t.done

/-- What the file holds is all of the contents exactly when no address has flow information or
a scope. -/
theorem storedForm_eq_iff (c : KeystoreContents) :
    storedForm (some c) = some c ↔ c.Unscoped := by
  rw [storedForm, Option.map_some, Option.some_inj, c.reloaded_eq_iff]

variable (extractSpkiHash) in
/-- A connection changes the shared contents. -/
def Host.changes (h : Host) : Action → Bool
  | .perform i outside => (h.perform extractSpkiHash i outside).any fun r => changedBy r.1
  | _ => false

/-- A connection that stores a copy of contents that have changed since leaves it to another
one to store the contents. -/
def Host.SavesFresh (h : Host) : Action → Prop
  | .perform i _ => h.writeBack.Fresh storedForm (.publish i)
  | _ => True

instance (h : Host) (a : Action) : Decidable (h.SavesFresh a) :=
  match a with
  | .perform i _ => inferInstanceAs (Decidable (h.writeBack.Fresh storedForm (.publish i)))
  | .start => isTrue trivial
  | .stop => isTrue trivial
  | .accept _ _ _ _ => isTrue trivial
  | .launch _ => isTrue trivial

/-- A connection that records a new address records one without flow information and scope. -/
def Host.RecordsUnscoped (h : Host) : Action → Prop
  | .perform i _ => ∀ t ∈ h.threads[i]?, ∀ o ∈ t.next, ∀ c ∈ h.world.server, o.KeepsUnscoped c
  | _ => True

instance (h : Host) (a : Action) : Decidable (h.RecordsUnscoped a) :=
  match a with
  | .perform i _ => inferInstanceAs (Decidable (∀ t ∈ h.threads[i]?, ∀ o ∈ t.next, _))
  | .start => isTrue trivial
  | .stop => isTrue trivial
  | .accept _ _ _ _ => isTrue trivial
  | .launch _ => isTrue trivial

/-- The server runs, and all threads are its connections. -/
structure Host.Running (h : Host) : Prop where
  server : h.world.server.isSome = true
  threads : ∀ t ∈ h.threads, t.kind.isConnection = true ∧ t.Keeps SaverOp

namespace Host

/-- The server goes on to run. -/
theorem running_of_step {h h' : Host} {a : Action} (hrun : h.Running) (ha : a.Serves)
    (hstep : h.step extractSpkiHash a = some h') : h'.Running := by
  cases stepped_of_step hstep with
  | start hserver hfile => exact ha.elim
  | stop => exact ha.elim
  | launch command => exact ha.elim
  | accept hserver certs peerAddr rounds reads =>
      refine ⟨hrun.server, fun t ht => ?_⟩
      rcases List.mem_append.mp ht with hold | hnew
      · exact hrun.threads t hold
      · obtain rfl := List.mem_singleton.mp hnew
        refine ⟨rfl, (safe_bind _ _ _ _).mpr ?_⟩
        exact (acceptConnection_saves rounds reads peerAddr).mono fun _ _ _ => trivial
  | @perform i outside t t' e w ht hthread heffect =>
      obtain ⟨hconnection, hkeeps⟩ := hrun.threads t (List.mem_of_getElem? ht)
      obtain ⟨k, -, -, hafter⟩ := Thread.perform_eq_some hthread
      refine ⟨?_, fun u hu => ?_⟩
      · cases heffect <;> first | exact hrun.server | rfl
      · rcases List.mem_or_eq_of_mem_set hu with hold | rfl
        · exact hrun.threads u hold
        · exact ⟨by rw [hafter]; exact hconnection, hkeeps.perform hthread⟩

/-- How far a connection is. -/
theorem stages_of_thread {h : Host} {i : ℕ} {t : DaemonThread} (ht : h.threads[i]? = some t) :
    h.writeBack.stages[i]? = some (stageOf t.done) := by
  rw [writeBack, List.getElem?_map, ht]
  rfl

/-- A connection without a copy stores nothing old. -/
theorem savesFresh_of_stage {h : Host} {i : ℕ} {t : DaemonThread}
    (ht : h.threads[i]? = some t) (hcopied : (stageOf t.done).isCopied = false)
    (outside : (o : Op) → Ans o) : h.SavesFresh (.perform i outside) := by
  intro stage hstage hcopy
  obtain rfl := Option.some.inj ((stages_of_thread ht).symm.trans hstage)
  rw [hcopied] at hcopy
  cases hcopy

/-- After an operation of a connection, how far it is. -/
theorem writeBack_perform (h : Host) (i : ℕ) {t t' : DaemonThread} {e : TaskEvent} (w : World)
    (hdone : t'.done = t.done ++ [e]) :
    (⟨w, h.threads.set i t'⟩ : Host).writeBack =
      ⟨w.server, w.file, h.writeBack.stages.set i (stageStep (stageOf t.done) e)⟩ := by
  rw [← stageOf_concat, ← hdone, writeBack, writeBack, List.map_set]

/-- An operation of a connection that has nothing to copy or store. -/
private theorem move_of_clean {h : Host} {i : ℕ} {kind : Kind} {e : TaskEvent} {w : World}
    (hstage : h.writeBack.stages[i]? = some .clean) (hop : ∀ contents, e.op ≠ .saveFile contents)
    (heffect : Effect extractSpkiHash kind h.world e w) :
    ∃ m, h.writeBack.step storedForm m =
        some ⟨w.server, w.file, h.writeBack.stages.set i (stageStep .clean e)⟩ ∧
      h.writeBack.Fresh storedForm m ∧ (m.isChange = true → changedBy e = true) := by
  have hwait : ∃ m, h.writeBack.step storedForm m =
        some ⟨h.world.server, h.world.file, h.writeBack.stages.set i .clean⟩ ∧
      h.writeBack.Fresh storedForm m ∧ (m.isChange = true → changedBy e = true) := by
    rw [set_of_getElem? hstage]
    exact ⟨.wait, rfl, trivial, fun h => by cases h⟩
  cases heffect with
  | snapshot hserver => exact hwait
  | loaded => exact hwait
  | loadFailed e => exact hwait
  | saved c => exact absurd rfl (hop c)
  | saveFailed c e => exact absurd rfl (hop c)
  | other hother hpeer =>
      have hop : e.op.changesContents = false := by
        obtain ⟨o, r⟩ := e
        cases o <;> first | rfl | simp [Op.isShared] at hother
      rw [stageStep_clean hop]
      exact hwait
  | @write c u hserver =>
      simp only [stageStep]
      cases hchanged : u.changed (u.run c).1 with
      | true =>
          refine ⟨.change i (some (u.apply c)), ?_, trivial, fun _ => hchanged⟩
          simp only [WriteBack.step, hstage]
          rfl
      | false =>
          rw [Update.apply_unchanged hchanged, ← hserver]
          exact hwait

/-- A step of a running server is a move of the tasks that write its contents back. -/
theorem move_of_step {h h' : Host} {a : Action} (hrun : h.Running) (ha : a.Serves)
    (hstep : h.step extractSpkiHash a = some h') :
    ∃ m, h.writeBack.step storedForm m = some h'.writeBack ∧
      (h.writeBack.Fresh storedForm m ↔ h.SavesFresh a) ∧
      (m.isChange = true → h.changes extractSpkiHash a = true) := by
  cases stepped_of_step hstep with
  | start hserver hfile => exact ha.elim
  | stop => exact ha.elim
  | launch command => exact ha.elim
  | accept hserver certs peerAddr rounds reads =>
      refine ⟨.join, ?_, Iff.rfl, fun h => by cases h⟩
      simp only [WriteBack.step, writeBack, List.map_append]
      rfl
  | @perform i outside t t' e w ht hthread heffect =>
      obtain ⟨-, hkeeps⟩ := hrun.threads t (List.mem_of_getElem? ht)
      obtain ⟨k, -, hanswer, hafter⟩ := Thread.perform_eq_some hthread
      have hop : SaverOp t.done e.op := hkeeps.next (Thread.next_of_perform hthread)
      have hstages := stages_of_thread ht
      have hperform := perform_of_thread ht hthread
      rw [writeBack_perform h i w (by rw [hafter])]
      cases hstage : stageOf t.done with
      | clean =>
          simp only [SaverOp, hstage] at hop
          obtain ⟨m, hmove, hfresh, hchange⟩ := move_of_clean (hstage ▸ hstages) hop heffect
          refine ⟨m, hmove, iff_of_true hfresh ?_, fun h => ?_⟩
          · exact savesFresh_of_stage ht (by rw [hstage]; rfl) outside
          · rw [changes, hperform]
            exact hchange h
      | changed =>
          simp only [SaverOp, hstage] at hop
          refine ⟨.copy i, ?_, iff_of_true trivial ?_, fun h => by cases h⟩
          · simp only [WriteBack.step, hstages, hstage]
            cases heffect with
            | snapshot hserver =>
                exact congrArg (fun copy => some (WriteBack.mk h.world.server h.world.file
                  (h.writeBack.stages.set i (.copied copy)))) hserver
            | other hother hpeer =>
                rw [hop] at hother
                cases hother
            | _ => cases hop
          · exact savesFresh_of_stage ht (by rw [hstage]; rfl) outside
      | copied copy =>
          simp only [SaverOp, hstage] at hop
          obtain ⟨contents, rfl, hsave⟩ := hop
          refine ⟨.publish i, ?_, Iff.rfl, fun h => by cases h⟩
          simp only [WriteBack.step, hstages, hstage]
          cases heffect with
          | saved c =>
              cases hsave
              rfl
          | saveFailed c e =>
              have hresult := ha c
              rw [answer_saveFile] at hanswer
              cases hresult.symm.trans (congrArg Prod.fst (Option.some.inj hanswer))
          | other hother hpeer =>
              rw [hsave] at hother
              cases hother
          | _ => cases hsave

/-- Exactly a connection that stores an old copy, when no other will store the contents,
leaves the file old. -/
theorem settled_step_iff {h h' : Host} {a : Action} (hrun : h.Running) (ha : a.Serves)
    (hsettled : h.writeBack.Settled storedForm) (hstep : h.step extractSpkiHash a = some h') :
    h'.writeBack.Settled storedForm ↔ h.SavesFresh a := by
  obtain ⟨m, hmove, hiff, -⟩ := move_of_step hrun ha hstep
  exact (WriteBack.settled_step_iff hsettled hmove).trans hiff

/-- In a run of one server whose connections store nothing old, the file has the contents in
memory, or some connection will store them. -/
theorem settled_of_steps {h h' : Host} {actions : List Action} (hrun : h.Running)
    (hsettled : h.writeBack.Settled storedForm)
    (hsteps : takeSteps (step extractSpkiHash) h actions = some h')
    (hserves : ∀ a ∈ actions, a.Serves)
    (hfresh : Along (step extractSpkiHash) SavesFresh h actions) :
    h'.Running ∧ h'.writeBack.Settled storedForm := by
  refine (hfresh.and (Along.of_forall hserves h)).invariant
    (fun h : Host => h.Running ∧ h.writeBack.Settled storedForm) ?_ ⟨hrun, hsettled⟩ hsteps
  rintro h a h' ⟨hrun, hsettled⟩ ⟨hfresh, hserves⟩ hstep
  exact ⟨running_of_step hrun hserves hstep,
    (settled_step_iff hrun hserves hsettled hstep).mpr hfresh⟩

/-- Otherwise the file is old, and stays so until a connection changes the contents again. -/
theorem stale_of_steps {h h' : Host} {actions : List Action} (hrun : h.Running)
    (hstale : ¬ h.writeBack.Settled storedForm)
    (hsteps : takeSteps (step extractSpkiHash) h actions = some h')
    (hserves : ∀ a ∈ actions, a.Serves)
    (hsame : Along (step extractSpkiHash) (fun h a => h.changes extractSpkiHash a = false) h
      actions) :
    h'.world.file ≠ storedForm h'.world.server := by
  have hafter : h'.Running ∧ ¬ h'.writeBack.Settled storedForm := by
    refine (hsame.and (Along.of_forall hserves h)).invariant
      (fun h : Host => h.Running ∧ ¬ h.writeBack.Settled storedForm) ?_ ⟨hrun, hstale⟩ hsteps
    rintro h a h' ⟨hrun, hstale⟩ ⟨hsame, hserves⟩ hstep
    obtain ⟨m, hmove, -, hchange⟩ := move_of_step hrun hserves hstep
    refine ⟨running_of_step hrun hserves hstep, WriteBack.not_settled_step hstale ?_ hmove⟩
    refine Bool.eq_false_iff.mpr fun hm => ?_
    rw [hchange hm] at hsame
    cases hsame
  exact fun hfile => hafter.2 (.inl hfile)

end Host

namespace Host

/-- The contents in memory have no flow information and scopes. -/
def Unscoped (h : Host) : Prop :=
  ∀ c, h.world.server = some c → c.Unscoped

/-- They stay so as long as no connection records any. -/
theorem unscoped_of_step {h h' : Host} {a : Action} (hunscoped : h.Unscoped) (ha : a.Serves)
    (hrecords : h.RecordsUnscoped a) (hstep : h.step extractSpkiHash a = some h') :
    h'.Unscoped := by
  cases stepped_of_step hstep with
  | start hserver hfile => exact ha.elim
  | stop => exact ha.elim
  | launch command => exact ha.elim
  | accept hserver certs peerAddr rounds reads => exact hunscoped
  | @perform i outside t t' e w ht hthread heffect =>
      cases heffect with
      | @write c u hserver =>
          intro c' hc'
          obtain rfl := Option.some.inj hc'
          exact (unscoped_update_iff (hunscoped c hserver) u).mpr
            (hrecords t ht _ (Thread.next_of_perform hthread) c hserver)
      | _ => exact hunscoped

end Host

/-! ## The interval that was set last -/

/-- The interval that an operation sets. -/
def storedInterval : TaskEvent → Option UInt8
  | ⟨.write (.reauthInterval newDays), _⟩ => some newDays
  | _ => none

/-- An operation leaves the interval as it is, unless it sets one. -/
theorem interval_of_effect {kind : Kind} {w w' : World} {e : TaskEvent} {c : KeystoreContents}
    (heffect : Effect extractSpkiHash kind w e w') (hserver : w.server = some c) :
    ∃ c', w'.server = some c' ∧
      c'.reauthIntervalDays = (storedInterval e).getD c.reauthIntervalDays := by
  cases heffect with
  | write u hserver' =>
      obtain rfl := Option.some.inj (hserver.symm.trans hserver')
      refine ⟨_, rfl, ?_⟩
      cases u <;> rfl
  | snapshot hserver' => exact ⟨c, hserver, rfl⟩
  | loaded => exact ⟨c, hserver, rfl⟩
  | loadFailed e => exact ⟨c, hserver, rfl⟩
  | saved c' => exact ⟨c, hserver, rfl⟩
  | saveFailed c' e => exact ⟨c, hserver, rfl⟩
  | other hother hpeer =>
      refine ⟨c, hserver, ?_⟩
      obtain ⟨o, r⟩ := e
      cases o <;> first | rfl | simp [Op.isShared] at hother

namespace Host

variable (extractSpkiHash) in
/-- The interval that a step sets: a `ReauthConfig` is being served. -/
def stores (h : Host) : Action → Option UInt8
  | .perform i outside => (h.perform extractSpkiHash i outside).bind fun r => storedInterval r.1
  | _ => none

/-- The interval in memory. -/
def HasInterval (h : Host) (days : UInt8) : Prop :=
  ∃ c, h.world.server = some c ∧ c.reauthIntervalDays = days

theorem hasInterval_of_step {h h' : Host} {a : Action} {days : UInt8} (hhas : h.HasInterval days)
    (ha : a.Serves) (hstep : h.step extractSpkiHash a = some h') :
    h'.HasInterval ((h.stores extractSpkiHash a).getD days) := by
  obtain ⟨c, hserver, rfl⟩ := hhas
  cases stepped_of_step hstep with
  | start hserver hfile => exact ha.elim
  | stop => exact ha.elim
  | launch command => exact ha.elim
  | accept hserver' certs peerAddr rounds reads => exact ⟨c, hserver, rfl⟩
  | @perform i outside t t' e w ht hthread heffect =>
      have hstores : h.stores extractSpkiHash (.perform i outside) = storedInterval e := by
        rw [stores, perform_of_thread ht hthread]
        rfl
      rw [hstores]
      exact interval_of_effect heffect hserver

/-- The interval that was set last is in memory. -/
theorem hasInterval_of_steps {h h₁ h₂ : Host} {a : Action} {back : List Action} {days : UInt8}
    (hrun : h₁.Running) (hserves : ∀ x ∈ a :: back, x.Serves)
    (hset : h₁.step extractSpkiHash a = some h₂)
    (hstores : h₁.stores extractSpkiHash a = some days)
    (hsteps : takeSteps (step extractSpkiHash) h₂ back = some h)
    (hlast : Along (step extractSpkiHash) (fun h a => h.stores extractSpkiHash a = none) h₂ back) :
    h.HasInterval days := by
  obtain ⟨ha, hback⟩ := List.forall_mem_cons.mp hserves
  obtain ⟨c, hserver⟩ := Option.isSome_iff_exists.mp hrun.server
  have hnow : h₂.HasInterval days := by
    have hafter := hasInterval_of_step ⟨c, hserver, rfl⟩ ha hset
    rwa [hstores, Option.getD_some] at hafter
  refine (hlast.and (Along.of_forall hback h₂)).invariant
    (fun h : Host => h.HasInterval days) ?_ hnow hsteps
  rintro h a h' hhas ⟨hnone, ha⟩ hstep
  have hafter := hasInterval_of_step hhas ha hstep
  rwa [hnone, Option.getD_none] at hafter

end Host

/-- A server that is restarted has the contents of the file. -/
theorem Host.restart {h : Host} {c : KeystoreContents} (hfile : h.world.file = some c) :
    takeSteps (Host.step extractSpkiHash) h [.stop, .start] =
      some ⟨⟨some c, some c⟩, h.threads.map endConnection⟩ := by
  simp only [takeSteps, Host.step, hfile, Option.bind_some]

section Reported

variable (extractSpkiHash) (kind : Kind) (outside : (o : Op) → Ans o)

/-- The interval that is reported to a phone. -/
def reportedInterval (w : World) (peerSpki : SpkiHash) (requestNonce : UInt64) :
    Option ReauthInterval :=
  match (exec (kind.answer extractSpkiHash outside)
    (dispatch peerSpki .reauthStatus requestNonce) w).value with
  | some (.reauthInfo _ interval _) => some interval
  | _ => none

theorem reportedInterval_eq (file : Option KeystoreContents) (c : KeystoreContents)
    (peerSpki : SpkiHash) (requestNonce : UInt64) :
    reportedInterval extractSpkiHash kind outside ⟨file, some c⟩ peerSpki requestNonce =
      some (intervalFromDays c.reauthIntervalDays) :=
  rfl

end Reported

theorem intervalFromDays_intervalToDays (interval : ReauthInterval) :
    intervalFromDays (intervalToDays interval) = interval := by
  cases interval <;> rfl

/-- In every run of one server whose connections store nothing old, the file has what is stored
of the contents in memory whenever no save is due, so these contents themselves if no
connection has recorded an address with flow information or a scope.  Then a server that is
restarted reports the interval that was set last. -/
theorem disk_agrees_when_quiet {first : KeystoreContents} {actions : List Action} {h : Host}
    (hsteps : takeSteps (Host.step extractSpkiHash) (Host.initial (some first))
      (.start :: actions) = some h)
    (hserves : ∀ a ∈ actions, a.Serves)
    (hfresh : Along (Host.step extractSpkiHash) Host.SavesFresh (Host.initial (some first))
      (.start :: actions))
    (hquiet : h.writeBack.Quiet) :
    h.world.file = storedForm h.world.server ∧
      (Along (Host.step extractSpkiHash) Host.RecordsUnscoped (Host.initial (some first))
          (.start :: actions) →
        h.world.file = h.world.server) ∧
      ∀ front a back h₁ h₂ interval, actions = front ++ a :: back →
        takeSteps (Host.step extractSpkiHash) (Host.initial (some first)) (.start :: front) =
          some h₁ →
        h₁.step extractSpkiHash a = some h₂ →
        h₁.stores extractSpkiHash a = some (intervalToDays interval) →
        Along (Host.step extractSpkiHash) (fun h a => h.stores extractSpkiHash a = none) h₂ back →
        ∃ h', takeSteps (Host.step extractSpkiHash) h [.stop, .start] = some h' ∧
          ∀ kind outside peerSpki requestNonce, reportedInterval extractSpkiHash kind outside
            h'.world peerSpki requestNonce = some interval := by
  let started : Host := ⟨⟨some first.reloaded, some first.reloaded⟩, []⟩
  have hstarted : started.Running := ⟨rfl, by simp [started]⟩
  have hsettled : started.writeBack.Settled storedForm :=
    .inl ((storedForm_eq_iff _).mpr first.unscoped_reloaded).symm
  obtain ⟨hrun, hdue⟩ := Host.settled_of_steps hstarted hsettled hsteps hserves
    (hfresh.2 started rfl)
  have hsame : h.world.file = storedForm h.world.server := hdue.disk_eq hquiet
  refine ⟨hsame, fun hrecords => ?_, ?_⟩
  · obtain ⟨c, hserver⟩ := Option.isSome_iff_exists.mp hrun.server
    have hunscoped : h.Unscoped :=
      ((hrecords.2 started rfl).and (Along.of_forall hserves started)).invariant Host.Unscoped
        (fun _ _ _ hall ha hstep => Host.unscoped_of_step hall ha.2 ha.1 hstep)
        (fun c hc => Option.some.inj hc ▸ first.unscoped_reloaded) hsteps
    rw [hsame, hserver, (storedForm_eq_iff c).mpr (hunscoped c hserver)]
  intro front a back h₁ h₂ interval hactions hfront hset hstores hlast
  subst hactions
  have hrun₁ : h₁.Running :=
    (Along.of_forall (fun x hx => hserves x (List.mem_append_left _ hx)) started).invariant
      Host.Running (fun _ _ _ hrun hx hstep => Host.running_of_step hrun hx hstep) hstarted hfront
  have hback : takeSteps (Host.step extractSpkiHash) h₂ back = some h := by
    rw [← List.cons_append, takeSteps_append, hfront, Option.bind_some, takeSteps, hset] at hsteps
    exact hsteps
  obtain ⟨c, hserver, hdays⟩ := Host.hasInterval_of_steps hrun₁
    (fun x hx => hserves x (List.mem_append_right _ hx)) hset hstores hback hlast
  refine ⟨⟨⟨some c.reloaded, some c.reloaded⟩, h.threads.map endConnection⟩, ?_, ?_⟩
  · exact Host.restart (hsame.trans (by rw [hserver]; rfl))
  · intro kind outside peerSpki requestNonce
    have hdays' : c.reloaded.reauthIntervalDays = intervalToDays interval := hdays
    rw [reportedInterval_eq, hdays', intervalFromDays_intervalToDays]

end Connection

/-! ## Two connections of a phone -/

/-- Another address of the phone. -/
def otherAddress : SocketAddr :=
  .v4 1 4242

/-- A request for an interval of one day. -/
def intervalRequest : Envelope :=
  ⟨protocolVersion, 1, ClientFrame.format.encode (.reauthConfig .oneDay)⟩

/-- Answers to a phone that sets this interval. -/
def intervalOutside (o : Op) : Ans o :=
  match o with
  | .recv => Except.ok (wireBytes intervalRequest)
  | o => succeeding pairedContents o

/-- A connection performs some operations in turn. -/
def operations (i n : ℕ) : List Action :=
  List.replicate n (.perform i intervalOutside)

theorem operations_serve (i n : ℕ) : ∀ a ∈ operations i n, a.Serves := by
  intro a ha
  rw [List.eq_of_mem_replicate ha]
  exact fun _ => rfl

/-- One connection has changed the address and copied the contents, and another one is about
to read. -/
def addressChanged : List Action :=
  [.accept [[]] otherAddress 1 1, .accept [[]] phoneAddress 2 2] ++ operations 1 5 ++ operations 0 6

theorem addressChanged_serve : ∀ a ∈ addressChanged, a.Serves := by
  have haccepted : ∀ a ∈ [Action.accept [[]] otherAddress 1 1, .accept [[]] phoneAddress 2 2],
      a.Serves := by
    intro a ha
    rcases List.mem_pair.mp ha with rfl | rfl <;> trivial
  exact List.forall_mem_append.mpr
    ⟨List.forall_mem_append.mpr ⟨haccepted, operations_serve 1 5⟩, operations_serve 0 6⟩

/-- The first connection stores its copy before the other one sets the interval. -/
def storedInTurn : List Action :=
  addressChanged ++ operations 0 1 ++ operations 1 7

/-- The run up to the step that sets the interval, and after it. -/
private theorem interval_set_in_turn :
    ∃ h₁ h₂, takeSteps (Host.step phoneSpki) (Host.initial (some addressedContents))
        (.start :: (addressChanged ++ operations 0 1 ++ operations 1 3)) = some h₁ ∧
      h₁.step phoneSpki (.perform 1 intervalOutside) = some h₂ ∧
      h₁.stores phoneSpki (.perform 1 intervalOutside) = some (intervalToDays .oneDay) ∧
      Along (Host.step phoneSpki) (fun h a => h.stores phoneSpki a = none) h₂
        (operations 1 3) := by
  have hrun : ((takeSteps (Host.step phoneSpki) (Host.initial (some addressedContents))
      (.start :: (addressChanged ++ operations 0 1 ++ operations 1 3))).bind fun h₁ =>
        (h₁.step phoneSpki (.perform 1 intervalOutside)).map fun h₂ => decide
          (h₁.stores phoneSpki (.perform 1 intervalOutside) = some (intervalToDays .oneDay) ∧
            Along (Host.step phoneSpki) (fun h a => h.stores phoneSpki a = none) h₂
              (operations 1 3))) = some true := rfl
  obtain ⟨h₁, hfront, hnext⟩ := Option.bind_eq_some_iff.mp hrun
  obtain ⟨h₂, hset, hchecks⟩ := Option.map_eq_some_iff.mp hnext
  exact ⟨h₁, h₂, hfront, hset, of_decide_eq_true hchecks⟩

/-- The interval is in the file, and a restarted server reports it. -/
theorem interval_kept_in_turn :
    ∃ h, takeSteps (Host.step phoneSpki) (Host.initial (some addressedContents))
        (.start :: storedInTurn) = some h ∧ h.world.file = h.world.server ∧
      ∃ h', takeSteps (Host.step phoneSpki) h [.stop, .start] = some h' ∧
        ∀ kind outside peerSpki requestNonce, reportedInterval phoneSpki kind outside
          h'.world peerSpki requestNonce = some .oneDay := by
  obtain ⟨h₁, h₂, hfront, hset, hstores, hlast⟩ := interval_set_in_turn
  obtain ⟨h, hsteps, hquiet⟩ := Option.map_eq_some_iff.mp
    (show (takeSteps (Host.step phoneSpki) (Host.initial (some addressedContents))
      (.start :: storedInTurn)).map (fun h => decide h.writeBack.Quiet) = some true from rfl)
  have hserves : ∀ a ∈ storedInTurn, a.Serves := List.forall_mem_append.mpr
    ⟨List.forall_mem_append.mpr ⟨addressChanged_serve, operations_serve 0 1⟩, operations_serve 1 7⟩
  obtain ⟨-, hsame, hreported⟩ := disk_agrees_when_quiet hsteps hserves (by decide)
    (of_decide_eq_true hquiet)
  have hsplit : storedInTurn = (addressChanged ++ operations 0 1 ++ operations 1 3) ++
      .perform 1 intervalOutside :: operations 1 3 := by
    rw [storedInTurn, List.append_assoc _ (operations 1 3)]
    rfl
  exact ⟨h, hsteps, hsame (by decide),
    hreported _ _ _ h₁ h₂ .oneDay hsplit hfront hset hstores hlast⟩

/-- The first connection stores its copy after the other one has set the interval. -/
def storedTooLate : List Action :=
  addressChanged ++ operations 1 7 ++ operations 0 1

/-- The messages that a connection has sent. -/
def sentMessages (t : DaemonThread) : List Bytes :=
  t.done.filterMap fun e =>
    match e.op with
    | .send bytes => some bytes
    | _ => none

/-- The new interval is acknowledged, but the file has the old one, and a restarted server
reports that. -/
theorem interval_lost :
    (∀ a ∈ storedTooLate, a.Serves) ∧
    ∃ h, takeSteps (Host.step phoneSpki) (Host.initial (some addressedContents))
        (.start :: storedTooLate) = some h ∧
      h.writeBack.Quiet ∧ h.world.file ≠ h.world.server ∧
      h.threads[1]?.map sentMessages =
        some [wireBytes ⟨protocolVersion, 1, DaemonFrame.format.encode (.ack 1)⟩] ∧
      ∃ h', takeSteps (Host.step phoneSpki) h [.stop, .start] = some h' ∧
        ∀ kind outside peerSpki requestNonce, reportedInterval phoneSpki kind outside
          h'.world peerSpki requestNonce = some .off := by
  have hserves : ∀ a ∈ storedTooLate, a.Serves := List.forall_mem_append.mpr
    ⟨List.forall_mem_append.mpr ⟨addressChanged_serve, operations_serve 1 7⟩, operations_serve 0 1⟩
  have hrun : ((takeSteps (Host.step phoneSpki) (Host.initial (some addressedContents))
      (.start :: storedTooLate)).map fun h => (decide (h.writeBack.Quiet ∧
        h.world.file ≠ h.world.server), h.threads[1]?.map sentMessages,
        h.world.file.map (·.reauthIntervalDays))) =
      some (true, some [wireBytes ⟨protocolVersion, 1, DaemonFrame.format.encode (.ack 1)⟩],
        some 0) := rfl
  obtain ⟨h, hsteps, hview⟩ := Option.map_eq_some_iff.mp hrun
  obtain ⟨hchecks, hview⟩ := Prod.mk.inj hview
  obtain ⟨hsent, hfile⟩ := Prod.mk.inj hview
  obtain ⟨hquiet, hdiffer⟩ := of_decide_eq_true hchecks
  obtain ⟨c, hstored, hdays⟩ := Option.map_eq_some_iff.mp hfile
  refine ⟨hserves, h, hsteps, hquiet, hdiffer, hsent, _, Host.restart hstored, ?_⟩
  intro kind outside peerSpki requestNonce
  rw [reportedInterval_eq, hdays]
  rfl

end Daemon
end WakeMyPc
