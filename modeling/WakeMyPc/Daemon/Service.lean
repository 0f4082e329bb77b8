import WakeMyPc.Daemon.Runtime
import WakeMyPc.Daemon.Startup
import WakeMyPc.Foundations.Draining
import WakeMyPc.Foundations.Interpretation
import WakeMyPc.Foundations.Runs

/-!
# The Windows service

The service manager starts the server as a service.  One thread runs the server; the manager
calls the control handler on another one, which signals the first to stop.  Connections are
served by tasks of a runtime, which the thread drops when it is done.

Main results:

- Definition `Service.step`: one operation of the service, one call of its handler, or one step
  of a task.
- Theorem `serviceMain_fits`: what the operations of the thread come after.
-/

namespace WakeMyPc
namespace Daemon

open Foundations
open Foundations.Prog (loop safe_bind safe_loop)

/-! ## The program -/

inductive ServiceState where
  | running
  | stopped
deriving DecidableEq

/-- What the manager is told. -/
structure ServiceStatus where
  currentState : ServiceState
  acceptsStop : Bool
  acceptsShutdown : Bool
  exitCode : UInt32
deriving DecidableEq

/-- What the thread is woken by: the signal to stop, or the listener. -/
inductive Wake where
  | signal
  | listener

/-- The operations of the service. -/
inductive ServiceOp where
  | buildRuntime
  | registerHandler
  | setServiceStatus (status : ServiceStatus)
  /-- Read the environment variable of the machine's data directory. -/
  | programData
  | bind (addr : SocketAddr)
  | start (o : StartOp)
  /-- The address of the listener. -/
  | localAddr
  /-- Look whether the signal to stop has been sent. -/
  | pollShutdown
  /-- Look whether the listener has a connection. -/
  | pollAccept
  /-- Wait for the signal or the listener. -/
  | park
  /-- Wait for the lock of the contents and read the pins of the paired phones. -/
  | readContents
  /-- Set up TLS for these pins. -/
  | buildAcceptor
  /-- Serve a connection in a task of its own. -/
  | spawn (peerAddr : SocketAddr)
  /-- The first half of dropping the runtime: its workers begin to drop the tasks. -/
  | shutDownRuntime
  /-- The second half: wait for the workers and the blocking functions. -/
  | joinWorkers

/-- The answers of each operation. -/
def ServiceAns : ServiceOp → Type
  | .buildRuntime => Except IoError Unit
  | .registerHandler => Except IoError Unit
  | .setServiceStatus _ => Except IoError Unit
  | .programData => Option String
  | .bind _ => Except IoError Unit
  | .start o => StartAns o
  | .localAddr => Except IoError Unit
  | .pollShutdown => Bool
  | .pollAccept => Option (Except IoError SocketAddr)
  | .park => Wake
  | .readContents => Unit
  | .buildAcceptor => Except Crypto.Error Unit
  | .spawn _ => Unit
  | .shutDownRuntime => Unit
  | .joinWorkers => Unit

abbrev ServiceTask (α : Type) := Prog ServiceOp ServiceAns α

abbrev ServiceEvent := Event ServiceOp ServiceAns

/-- Perform one operation. -/
def serviceCall (o : ServiceOp) : ServiceTask (ServiceAns o) :=
  .call o .ret

/-- Why the service ends. -/
inductive ServiceError where
  | io (e : IoError)
  | noProgramData
  | start (e : StartError)
deriving DecidableEq

/-- One round of the accept loop: the signal is looked at before the listener.  What goes wrong
with one connection is only logged. -/
def acceptRound (_ : Unit) : ServiceTask (Unit ⊕ Except ServiceError Unit) := do
  let signalled : Bool ← serviceCall .pollShutdown
  match signalled with
  | true => return .inr (.ok ())
  | false => do
      let accepted : Option (Except IoError SocketAddr) ← serviceCall .pollAccept
      match accepted with
      | none => do
          let _ ← serviceCall .park
          return .inl ()
      | some (.error _) => return .inl ()
      | some (.ok peerAddr) => do
          let _ ← serviceCall .readContents
          let acceptor : Except Crypto.Error Unit ← serviceCall .buildAcceptor
          match acceptor with
          | .error _ => return .inl ()
          | .ok () => do
              let _ ← serviceCall (.spawn peerAddr)
              return .inl ()

/-- Accept connections until the signal to stop. -/
def acceptLoop (rounds : ℕ) : ServiceTask (Except ServiceError Unit) := do
  let addr : Except IoError Unit ← serviceCall .localAddr
  match addr with
  | .error e => return .error (.io e)
  | .ok () => loop acceptRound rounds ()

/-- Run the server until the signal to stop. -/
def runWithListenerHandlersShutdown (rounds : ℕ) : ServiceTask (Except ServiceError Unit) := do
  match ← startUp.interpret fun o => serviceCall (.start o) with
  | .error e => return .error (.start e)
  | .ok _ => acceptLoop rounds

/-- The port of the listener. -/
def defaultPort : UInt16 := 51820

/-- The address that the service listens at, once the data directory is known. -/
def defaultServiceConfig : ServiceTask (Except ServiceError SocketAddr) := do
  let programData : Option String ← serviceCall .programData
  match programData with
  | none => return .error .noProgramData
  | some _ => return .ok (.v4 0 defaultPort)

/-- The listener of the service. -/
def serviceListener (rounds : ℕ) : ServiceTask (Except ServiceError Unit) := do
  match ← defaultServiceConfig with
  | .error e => return .error e
  | .ok addr => do
      let bound : Except IoError Unit ← serviceCall (.bind addr)
      match bound with
      | .error e => return .error (.io e)
      | .ok () => runWithListenerHandlersShutdown rounds

/-- The status of a running service. -/
def runningStatus : ServiceStatus where
  currentState := .running
  acceptsStop := true
  acceptsShutdown := true
  exitCode := 0

/-- The status of a service that has ended. -/
def stoppedStatus (exitCode : UInt32) : ServiceStatus where
  currentState := .stopped
  acceptsStop := false
  acceptsShutdown := false
  exitCode := exitCode

/-- What the service does on its runtime. -/
def runOnRuntime (rounds : ℕ) : ServiceTask (Except ServiceError Unit) := do
  let registered : Except IoError Unit ← serviceCall .registerHandler
  match registered with
  | .error e => return .error (.io e)
  | .ok () => do
      let running : Except IoError Unit ← serviceCall (.setServiceStatus runningStatus)
      match running with
      | .error e => return .error (.io e)
      | .ok () => do
          let result ← serviceListener rounds
          let exitCode : UInt32 := match result with
            | .ok () => 0
            | .error _ => 1
          let _ ← serviceCall (.setServiceStatus (stoppedStatus exitCode))
          return result

/-- Drop the runtime. -/
def dropRuntime : ServiceTask Unit := do
  let _ ← serviceCall .shutDownRuntime
  let _ ← serviceCall .joinWorkers
  return ()

/-- Run the service.  The runtime is dropped on every way out. -/
def runService (rounds : ℕ) : ServiceTask (Except ServiceError Unit) := do
  let runtime : Except IoError Unit ← serviceCall .buildRuntime
  match runtime with
  | .error e => return .error (.io e)
  | .ok () => do
      let result ← runOnRuntime rounds
      dropRuntime
      return result

/-- The thread that the manager starts; an error is only logged. -/
def serviceMain (rounds : ℕ) : ServiceTask Unit := do
  let _ ← runService rounds
  return ()

/-! ## The service and its control handler -/

/-- What the manager can ask for. -/
inductive ServiceControl where
  | stop
  | shutdown
  | interrogate
  | other
deriving DecidableEq

inductive ControlResult where
  | noError
  | notImplemented
deriving DecidableEq

/-- What the thread and the handler share: whether the handler is registered, whether the
sender of the signal is still there, and whether the signal has been sent. -/
structure Channel where
  registered : Bool
  sender : Bool
  signalled : Bool
deriving DecidableEq

/-- The control handler: the first request to stop sends the signal. -/
def Channel.eventHandler (c : Channel) : ServiceControl → ControlResult × Channel
  | .stop => (.noError, if c.sender then { c with sender := false, signalled := true } else c)
  | .shutdown => (.noError, if c.sender then { c with sender := false, signalled := true } else c)
  | .interrogate => (.noError, c)
  | .other => (.notImplemented, c)

/-- Register the handler. -/
def Channel.register (c : Channel) : Except IoError Unit → Except IoError Unit × Channel
  | .error e => (.error e, c)
  | .ok () => (.ok (), { c with registered := true })

/-- What the thread shares with the handler and with the tasks. -/
structure ServiceWorld where
  channel : Channel
  runtime : Runtime
deriving DecidableEq

/-- Build the runtime. -/
def ServiceWorld.buildRuntime (w : ServiceWorld) :
    Except IoError Unit → Except IoError Unit × ServiceWorld
  | .error e => (.error e, w)
  | .ok () => (.ok (), { w with runtime := { w.runtime with up := true } })

/-- Register the handler. -/
def ServiceWorld.register (w : ServiceWorld) (result : Except IoError Unit) :
    Except IoError Unit × ServiceWorld :=
  ((w.channel.register result).1, { w with channel := (w.channel.register result).2 })

/-- The signal wakes the thread when it has been sent, the listener at any time. -/
def ServiceWorld.park (w : ServiceWorld) : Wake → Option (Wake × ServiceWorld)
  | .signal => if w.channel.signalled then some (.signal, w) else none
  | .listener => some (.listener, w)

/-- The answer to an operation of the thread, unless it has to wait. -/
def ServiceWorld.answer (w : ServiceWorld) (outside : (o : ServiceOp) → ServiceAns o) :
    (o : ServiceOp) → Option (ServiceAns o × ServiceWorld)
  | .buildRuntime => some (w.buildRuntime (outside .buildRuntime))
  | .registerHandler => some (w.register (outside .registerHandler))
  | .pollShutdown => some (w.channel.signalled, w)
  | .park => w.park (outside .park)
  | .readContents => if w.runtime.writing then none else some ((), w)
  | .spawn _ => some ((), { w with runtime := w.runtime.spawn })
  | .shutDownRuntime => some ((), { w with runtime := { w.runtime with up := false } })
  | .joinWorkers => if w.runtime.finished then some ((), w) else none
  | o => some (outside o, w)

theorem ServiceWorld.answer_park (w : ServiceWorld) (outside : (o : ServiceOp) → ServiceAns o) :
    w.answer outside .park = w.park (outside .park) := rfl

theorem ServiceWorld.answer_readContents (w : ServiceWorld)
    (outside : (o : ServiceOp) → ServiceAns o) :
    w.answer outside .readContents = if w.runtime.writing then none else some ((), w) := rfl

theorem ServiceWorld.answer_joinWorkers (w : ServiceWorld)
    (outside : (o : ServiceOp) → ServiceAns o) :
    w.answer outside .joinWorkers = if w.runtime.finished then some ((), w) else none := rfl

/-- The service. -/
structure Service where
  main : Thread ServiceOp ServiceAns Unit
  world : ServiceWorld
  /-- The controls that were handled. -/
  controls : List ServiceControl

/-- What can happen next. -/
inductive ServiceAction where
  /-- The manager calls the control handler. -/
  | control (c : ServiceControl)
  /-- A task makes a step. -/
  | task (i : ℕ) (s : TaskStep)
  /-- The thread performs its next operation. -/
  | perform (outside : (o : ServiceOp) → ServiceAns o)

namespace Service

/-- The manager has started the thread. -/
def initial (rounds : ℕ) : Service :=
  ⟨⟨(), [], serviceMain rounds⟩, ⟨⟨false, true, false⟩, .absent⟩, []⟩

/-- One step, if it can be taken. -/
def step (s : Service) : ServiceAction → Option Service
  | .control c =>
      if s.world.channel.registered then
        some { s with
          world := { s.world with channel := (s.world.channel.eventHandler c).2 }
          controls := s.controls ++ [c] }
      else none
  | .task i t =>
      (s.world.runtime.step i t).map fun runtime =>
        { s with world := { s.world with runtime := runtime } }
  | .perform outside =>
      (s.main.perform (s.world.answer outside)).map fun result =>
        { s with main := result.2.1, world := result.2.2 }

end Service

/-! ## What the operations come after -/

/-- The status that an operation sets. -/
def ServiceOp.status : ServiceOp → Option ServiceStatus
  | .setServiceStatus status => some status
  | _ => none

/-- What the manager was told. -/
def statusesOf (h : List ServiceEvent) : List ServiceStatus :=
  h.filterMap fun e => e.op.status

/-- The signal to stop was seen. -/
def SawShutdown (h : List ServiceEvent) : Prop :=
  ⟨.pollShutdown, true⟩ ∈ h

/-- The service was reported to run, and its server has a listener, a keystore and an
identity. -/
structure StartedUp (h : List ServiceEvent) : Prop where
  running : ⟨.setServiceStatus runningStatus, Except.ok ()⟩ ∈ h
  bound : ⟨.bind (.v4 0 defaultPort), Except.ok ()⟩ ∈ h
  loaded : ∃ contents : KeystoreContents,
    ⟨.start (.daemon .load), Except.ok (some contents)⟩ ∈ h ∧
    ⟨.start (.daemon (.parseIdentity contents.deviceIdentityBytes)), Except.ok ()⟩ ∈ h

/-- The operations of the service that fit its history. -/
def ServiceFits (h : List ServiceEvent) : ServiceOp → Prop
  | .setServiceStatus status =>
      status = runningStatus ∧ statusesOf h = [] ∨
      ∃ code, status = stoppedStatus code ∧ statusesOf h = [runningStatus] ∧
        (code = 0 ↔ SawShutdown h)
  | .pollShutdown => ¬ SawShutdown h ∧ statusesOf h = [runningStatus] ∧ StartedUp h
  | .pollAccept => ∃ front, h = front ++ [⟨.pollShutdown, false⟩]
  | .spawn peerAddr => statusesOf h = [runningStatus] ∧ StartedUp h ∧ ∃ front,
      h = front ++ [⟨.pollShutdown, false⟩, ⟨.pollAccept, some (Except.ok peerAddr)⟩,
        ⟨.readContents, ()⟩, ⟨.buildAcceptor, Except.ok ()⟩]
  | _ => True

/-- The manager was told nothing, that the service runs, or that it ran and stopped; the exit
code says whether it stopped because it was told to. -/
def ReportsRight (h : List ServiceEvent) : Prop :=
  statusesOf h = [] ∨ statusesOf h = [runningStatus] ∨
    ∃ code, statusesOf h = [runningStatus, stoppedStatus code] ∧ (code = 0 ↔ SawShutdown h)

/-- A service that was reported to run was reported to have stopped. -/
def ReportedStopped (h : List ServiceEvent) : Prop :=
  ⟨.setServiceStatus runningStatus, Except.ok ()⟩ ∈ h →
    ∃ code, statusesOf h = [runningStatus, stoppedStatus code]

/-- The last thing that the thread does is to drop the runtime, if it was built. -/
def RuntimeDropped (h : List ServiceEvent) : Prop :=
  (∃ front, h = front ++ [⟨.shutDownRuntime, ()⟩, ⟨.joinWorkers, ()⟩]) ∨
    ∃ e, h = [⟨.buildRuntime, Except.error e⟩]

/-- What holds when the thread is finished. -/
structure ServiceDone (h : List ServiceEvent) : Prop where
  stopped : ReportedStopped h
  dropped : RuntimeDropped h

theorem statusesOf_append (h events : List ServiceEvent) :
    statusesOf (h ++ events) = statusesOf h ++ statusesOf events :=
  List.filterMap_append ..

/-- An operation that sets no status. -/
theorem statusesOf_concat (h : List ServiceEvent) {e : ServiceEvent} (hnone : e.op.status = none) :
    statusesOf (h ++ [e]) = statusesOf h := by
  have hlast : statusesOf [e] = [] := List.filterMap_cons_none hnone
  rw [statusesOf_append, hlast, List.append_nil]

theorem not_sawShutdown {h : List ServiceEvent} (hops : ∀ e ∈ h, e.op ≠ .pollShutdown) :
    ¬ SawShutdown h :=
  fun hsaw => hops _ hsaw rfl

/-- What holds while the service accepts connections. -/
structure Accepting (h : List ServiceEvent) : Prop where
  statuses : statusesOf h = [runningStatus]
  waiting : ¬ SawShutdown h
  started : StartedUp h

theorem StartedUp.append {h : List ServiceEvent} (hstarted : StartedUp h)
    (events : List ServiceEvent) : StartedUp (h ++ events) := by
  obtain ⟨contents, hload, hparse⟩ := hstarted.loaded
  exact ⟨List.mem_append_left _ hstarted.running, List.mem_append_left _ hstarted.bound,
    contents, List.mem_append_left _ hload, List.mem_append_left _ hparse⟩

/-- An operation that sets no status and sees no signal. -/
theorem Accepting.concat {h : List ServiceEvent} (haccepting : Accepting h) {e : ServiceEvent}
    (hstatus : e.op.status = none) (hquiet : e ≠ ⟨.pollShutdown, true⟩) :
    Accepting (h ++ [e]) where
  statuses := (statusesOf_concat h hstatus).trans haccepting.statuses
  waiting := fun hsaw => (List.mem_append.mp hsaw).elim haccepting.waiting
    fun hnow => hquiet (List.mem_singleton.mp hnow).symm
  started := haccepting.started.append [e]

/-- How the listener ends: what it returns says whether it saw the signal. -/
def ListenerEnds (h : List ServiceEvent) (result : Except ServiceError Unit) : Prop :=
  statusesOf h = [runningStatus] ∧ (result = .ok () ↔ SawShutdown h)

/-- A listener that fails before it saw the signal. -/
theorem ListenerEnds.fails {h : List ServiceEvent} (hstatuses : statusesOf h = [runningStatus])
    (hwaiting : ¬ SawShutdown h) (e : ServiceError) : ListenerEnds h (.error e) :=
  ⟨hstatuses, nofun, fun hsaw => absurd hsaw hwaiting⟩

/-- A round accepts a connection only when there was no signal, and serves it when TLS was set
up. -/
theorem acceptRound_fits {h : List ServiceEvent} (haccepting : Accepting h) (u : Unit) :
    (acceptRound u).Safe ServiceFits h fun h' result =>
      match result with
      | .inl _ => Accepting h'
      | .inr a => ListenerEnds h' a := by
  refine ⟨⟨haccepting.waiting, haccepting.statuses, haccepting.started⟩,
    fun (signalled : Bool) => ?_⟩
  cases signalled with
  | true =>
      refine ⟨?_, fun _ => List.mem_append_right _ List.mem_cons_self, fun _ => rfl⟩
      rw [statusesOf_append, haccepting.statuses]
      rfl
  | false =>
      have hlooked : Accepting (h ++ [⟨.pollShutdown, false⟩]) := haccepting.concat rfl nofun
      refine ⟨⟨h, rfl⟩, fun (accepted : Option (Except IoError SocketAddr)) => ?_⟩
      have hpolled := hlooked.concat (e := ⟨.pollAccept, accepted⟩) rfl nofun
      cases accepted with
      | none => exact ⟨trivial, fun _ => hpolled.concat rfl nofun⟩
      | some result =>
          cases result with
          | error e => exact hpolled
          | ok peerAddr =>
              refine ⟨trivial, fun (_ : Unit) => ⟨trivial,
                fun (acceptor : Except Crypto.Error Unit) => ?_⟩⟩
              have hread := hpolled.concat (e := ⟨.readContents, ()⟩) rfl nofun
              have hbuilt := hread.concat (e := ⟨.buildAcceptor, acceptor⟩) rfl nofun
              cases acceptor with
              | error e => exact hbuilt
              | ok _ =>
                  exact ⟨⟨hbuilt.statuses, hbuilt.started, h, by simp⟩,
                    fun _ => hbuilt.concat rfl nofun⟩

/-- The accept loop ends with the signal, or does not start. -/
theorem acceptLoop_fits {h : List ServiceEvent} (haccepting : Accepting h) (rounds : ℕ) :
    (acceptLoop rounds).Safe ServiceFits h ListenerEnds := by
  refine ⟨trivial, fun (addr : Except IoError Unit) => ?_⟩
  have hread := haccepting.concat (e := ⟨.localAddr, addr⟩) rfl nofun
  cases addr with
  | error e => exact .fails hread.statuses hread.waiting _
  | ok _ =>
      refine safe_loop (fun h' _ => Accepting h') (fun h' u hI => ?_) rounds hread
      refine (acceptRound_fits hI u).mono fun h'' result hresult => ?_
      cases result with
      | inl u => exact hresult
      | inr a => exact hresult

/-- What holds while the server starts. -/
structure Starting (h : List ServiceEvent) : Prop where
  statuses : statusesOf h = [runningStatus]
  waiting : ¬ SawShutdown h
  running : ⟨.setServiceStatus runningStatus, Except.ok ()⟩ ∈ h
  bound : ⟨.bind (.v4 0 defaultPort), Except.ok ()⟩ ∈ h

theorem Starting.concat {h : List ServiceEvent} (hstarting : Starting h) (o : StartOp)
    (r : StartAns o) : Starting (h ++ [⟨.start o, r⟩]) where
  statuses := by
    rw [statusesOf_append, hstarting.statuses]
    rfl
  waiting := fun hsaw => (List.mem_append.mp hsaw).elim hstarting.waiting
    fun hnow => nomatch List.mem_singleton.mp hnow
  running := List.mem_append_left _ hstarting.running
  bound := List.mem_append_left _ hstarting.bound

/-- The server ends with the signal, or does not start. -/
theorem runWithListenerHandlersShutdown_fits {h : List ServiceEvent} (hstarting : Starting h)
    (rounds : ℕ) : (runWithListenerHandlersShutdown rounds).Safe ServiceFits h ListenerEnds := by
  refine ⟨trivial, fun (dir : Except KeystoreError Unit) => ?_⟩
  have hdir := hstarting.concat (.daemon .ensureDataDir) dir
  cases dir with
  | error e => exact .fails hdir.statuses hdir.waiting _
  | ok _ =>
      refine ⟨trivial, fun (loaded : Except KeystoreError (Option KeystoreContents)) => ?_⟩
      have hload := hdir.concat (.daemon .load) loaded
      cases loaded with
      | error e => exact .fails hload.statuses hload.waiting _
      | ok contents =>
          cases contents with
          | none => exact .fails hload.statuses hload.waiting _
          | some contents =>
              refine ⟨trivial, fun (identity : Except Crypto.Error Unit) => ?_⟩
              have hidentity := hload.concat
                (.daemon (.parseIdentity contents.deviceIdentityBytes)) identity
              cases identity with
              | error e => exact .fails hidentity.statuses hidentity.waiting _
              | ok _ =>
                  refine ⟨trivial, fun (prepared : Except OsHandlerError Unit) => ?_⟩
                  have hready := hidentity.concat .prepare prepared
                  exact acceptLoop_fits ⟨hready.statuses, hready.waiting, hready.running,
                    hready.bound, contents, by simp, by simp⟩ rounds

/-- The listener ends with the signal, or does not start. -/
theorem serviceListener_fits {h : List ServiceEvent} (hstatuses : statusesOf h = [runningStatus])
    (hwaiting : ¬ SawShutdown h) (hrunning : ⟨.setServiceStatus runningStatus, Except.ok ()⟩ ∈ h)
    (rounds : ℕ) : (serviceListener rounds).Safe ServiceFits h ListenerEnds := by
  refine ⟨trivial, fun (programData : Option String) => ?_⟩
  have hread : statusesOf (h ++ [⟨.programData, programData⟩]) = [runningStatus] ∧
      ¬ SawShutdown (h ++ [⟨.programData, programData⟩]) := by
    rw [statusesOf_append, hstatuses]
    exact ⟨rfl, fun hsaw => (List.mem_append.mp hsaw).elim hwaiting
      fun hnow => nomatch List.mem_singleton.mp hnow⟩
  cases programData with
  | none => exact .fails hread.1 hread.2 _
  | some dir =>
      refine ⟨trivial, fun (bound : Except IoError Unit) => ?_⟩
      have hbound : statusesOf (h ++ [⟨.programData, some dir⟩] ++
            [⟨.bind (.v4 0 defaultPort), bound⟩]) = [runningStatus] ∧
          ¬ SawShutdown (h ++ [⟨.programData, some dir⟩] ++
            [⟨.bind (.v4 0 defaultPort), bound⟩]) := by
        rw [statusesOf_append, hread.1]
        exact ⟨rfl, fun hsaw => (List.mem_append.mp hsaw).elim hread.2
          fun hnow => nomatch List.mem_singleton.mp hnow⟩
      cases bound with
      | error e => exact .fails hbound.1 hbound.2 _
      | ok _ =>
          exact runWithListenerHandlersShutdown_fits
            ⟨hbound.1, hbound.2, by simp [hrunning], by simp⟩ rounds

/-- The service tells the manager that it runs, and in the end that it stopped. -/
theorem runOnRuntime_fits (rounds : ℕ) :
    (runOnRuntime rounds).Safe ServiceFits [⟨.buildRuntime, Except.ok ()⟩]
      fun h _ => ReportedStopped h := by
  refine ⟨trivial, fun (registered : Except IoError Unit) => ?_⟩
  cases registered with
  | error e => exact nofun
  | ok _ =>
      refine ⟨.inl ⟨rfl, rfl⟩, fun (running : Except IoError Unit) => ?_⟩
      cases running with
      | error e => exact nofun
      | ok _ =>
          change (serviceListener rounds >>= fun result => _ : ServiceTask _).Safe _ _ _
          rw [safe_bind]
          refine (serviceListener_fits rfl (not_sawShutdown (by simp)) (by simp) rounds).mono ?_
          rintro h result ⟨hstatuses, hresult⟩
          have hdone : ∀ code r, ReportedStopped (h ++
              [⟨.setServiceStatus (stoppedStatus code), r⟩]) := by
            intro code r _
            rw [statusesOf_append, hstatuses]
            exact ⟨code, rfl⟩
          cases result with
          | error e =>
              refine ⟨.inr ⟨1, rfl, hstatuses, nofun, fun hsaw => ?_⟩, hdone 1⟩
              exact nomatch hresult.mpr hsaw
          | ok u =>
              exact ⟨.inr ⟨0, rfl, hstatuses, fun _ => hresult.mp rfl, fun _ => rfl⟩, hdone 0⟩

theorem ReportedStopped.concat {h : List ServiceEvent} (hstopped : ReportedStopped h)
    {e : ServiceEvent} (hnone : e.op.status = none) : ReportedStopped (h ++ [e]) := by
  intro hrunning
  rw [statusesOf_concat h hnone]
  rcases List.mem_append.mp hrunning with hold | hnew
  · exact hstopped hold
  · rw [← List.mem_singleton.mp hnew] at hnone
    cases hnone

/-- To drop the runtime changes nothing of what was reported. -/
theorem dropRuntime_fits {h : List ServiceEvent} (hstopped : ReportedStopped h) :
    dropRuntime.Safe ServiceFits h fun h' _ => ServiceDone h' := by
  refine ⟨trivial, fun (_ : Unit) => ⟨trivial, fun (_ : Unit) => ⟨?_, .inl ⟨h, by simp⟩⟩⟩⟩
  exact (hstopped.concat rfl).concat rfl

/-- The thread reports what happens to the service, and drops the runtime before it is
finished. -/
theorem serviceMain_fits (rounds : ℕ) :
    (serviceMain rounds).Safe ServiceFits [] fun h _ => ServiceDone h := by
  refine ⟨trivial, fun (runtime : Except IoError Unit) => ?_⟩
  cases runtime with
  | error e => exact ⟨nofun, .inr ⟨e, rfl⟩⟩
  | ok _ =>
      change ((runOnRuntime rounds >>= fun result => dropRuntime >>= fun _ => _) >>= fun _ => _ :
        ServiceTask Unit).Safe _ _ _
      rw [safe_bind, safe_bind]
      refine (runOnRuntime_fits rounds).mono fun h result hstopped => ?_
      exact (safe_bind ..).mpr ((dropRuntime_fits hstopped).mono fun h' _ hdone => hdone)

end Daemon
end WakeMyPc
