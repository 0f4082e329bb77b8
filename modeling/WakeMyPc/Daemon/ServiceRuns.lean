import WakeMyPc.Daemon.Service
import WakeMyPc.Foundations.Draining

/-!
# Runs of the Windows service

The operations of the thread of the service, the calls of its control handler and the steps of
the tasks come in any order.

Main results:

- Theorem `service_reports`: what the service has told the manager in every state.
- Theorem `service_stops`: what the service still does after it was told to stop.
-/

namespace WakeMyPc
namespace Daemon

open Foundations
open Foundations.Prog (EndsWithin DrainsWithin Lasts drainsWithin_call drainsWithin_loop
  endsWithin_loop lasts_loop lasts_call lasts_ret)

/-! ## The end of the thread -/

/-- An answer after the signal: the signal is seen. -/
def AnswersStop : (o : ServiceOp) → ServiceAns o → Prop
  | .pollShutdown => fun (signalled : Bool) => signalled = true
  | _ => fun _ => True

theorem acceptRound_ends (u : Unit) :
    (acceptRound u).EndsWithin AnswersStop 1 fun result => result.isRight = true := by
  rintro (signalled : Bool) rfl
  exact (Prog.endsWithin_ret 0 _ _).mpr rfl

theorem acceptRound_drains (u : Unit) : (acceptRound u).DrainsWithin AnswersStop 4 := by
  refine ⟨(acceptRound_ends u).mono (by omega) fun _ _ => trivial, fun (signalled : Bool) => ?_⟩
  cases signalled with
  | true => trivial
  | false =>
      refine drainsWithin_call fun (accepted : Option (Except IoError SocketAddr)) => ?_
      cases accepted with
      | none => exact drainsWithin_call fun _ => trivial
      | some result =>
          cases result with
          | error e => trivial
          | ok peerAddr =>
              refine drainsWithin_call fun _ => ?_
              refine drainsWithin_call fun (acceptor : Except Crypto.Error Unit) => ?_
              cases acceptor with
              | error e => trivial
              | ok _ => exact drainsWithin_call (n := 0) fun _ => trivial

theorem acceptLoop_ends (rounds : ℕ) :
    (acceptLoop rounds).EndsWithin AnswersStop 2 fun _ => True := by
  rintro (addr : Except IoError Unit) -
  cases addr with
  | error e => exact (Prog.endsWithin_ret 1 _ _).mpr trivial
  | ok _ => exact endsWithin_loop (acceptRound_ends ()) rounds

theorem acceptLoop_drains (rounds : ℕ) : (acceptLoop rounds).DrainsWithin AnswersStop 5 := by
  refine ⟨(acceptLoop_ends rounds).mono (by omega) fun _ _ => trivial,
    fun (addr : Except IoError Unit) => ?_⟩
  cases addr with
  | error e => trivial
  | ok _ => exact drainsWithin_loop acceptRound_ends acceptRound_drains rounds ()

theorem runWithListenerHandlersShutdown_drains (rounds : ℕ) :
    (runWithListenerHandlersShutdown rounds).DrainsWithin AnswersStop 8 := by
  refine drainsWithin_call fun (dir : Except KeystoreError Unit) => ?_
  cases dir with
  | error e => trivial
  | ok _ =>
      refine drainsWithin_call fun (loaded : Except KeystoreError (Option KeystoreContents)) => ?_
      cases loaded with
      | error e => trivial
      | ok contents =>
          cases contents with
          | none => trivial
          | some contents =>
              refine drainsWithin_call fun (identity : Except Crypto.Error Unit) => ?_
              cases identity with
              | error e => trivial
              | ok _ =>
                  exact ⟨fun _ _ => (acceptLoop_ends rounds).mono (by decide) fun _ h => h,
                    fun _ => acceptLoop_drains rounds⟩

theorem serviceListener_drains (rounds : ℕ) :
    (serviceListener rounds).DrainsWithin AnswersStop 10 := by
  refine drainsWithin_call fun (programData : Option String) => ?_
  cases programData with
  | none => trivial
  | some dir =>
      refine drainsWithin_call fun (bound : Except IoError Unit) => ?_
      cases bound with
      | error e => trivial
      | ok _ => exact runWithListenerHandlersShutdown_drains rounds

theorem runOnRuntime_drains (rounds : ℕ) :
    (runOnRuntime rounds).DrainsWithin AnswersStop 13 := by
  refine drainsWithin_call fun (registered : Except IoError Unit) => ?_
  cases registered with
  | error e => trivial
  | ok _ =>
      refine drainsWithin_call fun (running : Except IoError Unit) => ?_
      cases running with
      | error e => trivial
      | ok _ =>
          refine (serviceListener_drains rounds).bind (n := 1) (fun result => ?_)
            (fun result => ?_) (Nat.le_refl _)
          · exact fun _ _ => trivial
          · exact drainsWithin_call fun _ => trivial

/-- After the signal, sixteen operations end the thread. -/
theorem serviceMain_drains (rounds : ℕ) : (serviceMain rounds).DrainsWithin AnswersStop 16 := by
  refine drainsWithin_call fun (runtime : Except IoError Unit) => ?_
  cases runtime with
  | error e => trivial
  | ok _ =>
      change ((runOnRuntime rounds >>= fun result => _) >>= fun _ => _ :
        ServiceTask Unit).DrainsWithin _ _
      rw [Prog.bind_assoc]
      refine (runOnRuntime_drains rounds).bind (n := 2) (fun result => ?_)
        (fun result => ?_) (Nat.le_refl _)
      · exact fun _ _ _ _ => trivial
      · exact drainsWithin_call fun _ => drainsWithin_call fun _ => trivial

theorem acceptRound_lasts (u : Unit) :
    ∃ o k, acceptRound u = .call o k ∧ ∀ r n, (k r).Lasts n := by
  refine ⟨_, _, rfl, fun (signalled : Bool) n => ?_⟩
  cases signalled with
  | true => exact lasts_ret n _
  | false =>
      refine lasts_call fun (accepted : Option (Except IoError SocketAddr)) => ?_
      cases accepted with
      | none => exact lasts_call fun _ => lasts_ret n _
      | some result =>
          cases result with
          | error e => exact lasts_ret n _
          | ok peerAddr =>
              refine lasts_call fun _ => lasts_call fun (acceptor : Except Crypto.Error Unit) => ?_
              cases acceptor with
              | error e => exact lasts_ret n _
              | ok _ => exact lasts_call fun _ => lasts_ret n _

theorem runWithListenerHandlersShutdown_lasts (rounds : ℕ) :
    (runWithListenerHandlersShutdown rounds).Lasts rounds := by
  refine lasts_call fun (dir : Except KeystoreError Unit) => ?_
  cases dir with
  | error e => exact lasts_ret rounds _
  | ok _ =>
      refine lasts_call fun (loaded : Except KeystoreError (Option KeystoreContents)) => ?_
      cases loaded with
      | error e => exact lasts_ret rounds _
      | ok contents =>
          cases contents with
          | none => exact lasts_ret rounds _
          | some contents =>
              refine lasts_call fun (identity : Except Crypto.Error Unit) => ?_
              cases identity with
              | error e => exact lasts_ret rounds _
              | ok _ =>
                  refine lasts_call fun _ => lasts_call fun (addr : Except IoError Unit) => ?_
                  cases addr with
                  | error e => exact lasts_ret rounds _
                  | ok _ => exact lasts_loop acceptRound_lasts rounds ()

theorem serviceListener_lasts (rounds : ℕ) : (serviceListener rounds).Lasts rounds := by
  refine lasts_call fun (programData : Option String) => ?_
  cases programData with
  | none => exact lasts_ret rounds _
  | some dir =>
      refine lasts_call fun (bound : Except IoError Unit) => ?_
      cases bound with
      | error e => exact lasts_ret rounds _
      | ok _ => exact runWithListenerHandlersShutdown_lasts rounds

theorem runOnRuntime_lasts (rounds : ℕ) : (runOnRuntime rounds).Lasts rounds := by
  refine lasts_call fun (registered : Except IoError Unit) => ?_
  cases registered with
  | error e => exact lasts_ret rounds _
  | ok _ =>
      refine lasts_call fun (running : Except IoError Unit) => ?_
      cases running with
      | error e => exact lasts_ret rounds _
      | ok _ =>
          exact (serviceListener_lasts rounds).bind fun result =>
            lasts_call fun _ => lasts_ret rounds _

/-- The thread lasts for as many operations as the accept loop has rounds. -/
theorem serviceMain_lasts (rounds : ℕ) : (serviceMain rounds).Lasts rounds := by
  refine lasts_call fun (runtime : Except IoError Unit) => ?_
  cases runtime with
  | error e => exact lasts_ret rounds _
  | ok _ =>
      change ((runOnRuntime rounds >>= fun result => _) >>= fun _ => _ : ServiceTask Unit).Lasts _
      rw [Prog.bind_assoc]
      exact (runOnRuntime_lasts rounds).bind fun result =>
        lasts_call fun _ => lasts_call fun _ => lasts_ret rounds _

/-! ## Steps -/

theorem Channel.register_spec (c : Channel) (result : Except IoError Unit) :
    (c.register result).2 = c ∨ (c.register result).2 = { c with registered := true } := by
  cases result with
  | error e => exact .inl rfl
  | ok _ => exact .inr rfl

/-- What an operation of the thread does to what it shares with the handler, and when the
signal is seen. -/
theorem ServiceWorld.channel_of_answer {w w' : ServiceWorld}
    {outside : (o : ServiceOp) → ServiceAns o} {e : ServiceEvent}
    (hanswer : w.answer outside e.op = some (e.ans, w')) :
    (w'.channel = w.channel ∨ w'.channel = { w.channel with registered := true }) ∧
      (w.channel.signalled = true → AnswersStop e.op e.ans) ∧
      (e = ⟨.pollShutdown, true⟩ → w.channel.signalled = true) := by
  obtain ⟨o, r⟩ := e
  cases o with
  | buildRuntime =>
      obtain rfl := congrArg Prod.snd (Option.some.inj hanswer)
      refine ⟨.inl ?_, fun _ => trivial, nofun⟩
      cases outside .buildRuntime <;> rfl
  | registerHandler =>
      obtain rfl := congrArg Prod.snd (Option.some.inj hanswer)
      exact ⟨w.channel.register_spec _, fun _ => trivial, nofun⟩
  | pollShutdown =>
      obtain ⟨hlook, rfl⟩ := Prod.mk.inj (Option.some.inj hanswer)
      exact ⟨.inl rfl, fun hsignalled => hlook.symm.trans hsignalled,
        fun heq => hlook.trans (by cases heq; rfl)⟩
  | park =>
      refine ⟨.inl ?_, fun _ => trivial, nofun⟩
      rw [ServiceWorld.answer_park] at hanswer
      cases hwake : outside .park with
      | signal =>
          rw [hwake] at hanswer
          obtain ⟨-, heq⟩ := Option.ite_none_right_eq_some.mp hanswer
          exact congrArg (·.2.channel) (Option.some.inj heq).symm
      | listener =>
          rw [hwake] at hanswer
          exact congrArg (·.2.channel) (Option.some.inj hanswer).symm
  | readContents =>
      obtain ⟨-, heq⟩ := Option.ite_none_left_eq_some.mp hanswer
      exact ⟨.inl (congrArg (·.2.channel) (Option.some.inj heq).symm), fun _ => trivial, nofun⟩
  | joinWorkers =>
      obtain ⟨-, heq⟩ := Option.ite_none_right_eq_some.mp hanswer
      exact ⟨.inl (congrArg (·.2.channel) (Option.some.inj heq).symm), fun _ => trivial, nofun⟩
  | _ =>
      exact ⟨.inl (congrArg (·.2.channel) (Option.some.inj hanswer).symm), fun _ => trivial, nofun⟩

/-- The operation hands a connection to a task. -/
def ServiceOp.isSpawn : ServiceOp → Bool
  | .spawn _ => true
  | _ => false

/-- There is one task more when a connection was handed to one, and the wait for the workers ends
when everything is finished. -/
theorem ServiceWorld.tasks_of_answer {w w' : ServiceWorld}
    {outside : (o : ServiceOp) → ServiceAns o} {e : ServiceEvent}
    (hanswer : w.answer outside e.op = some (e.ans, w')) :
    w'.runtime.tasks.length = w.runtime.tasks.length + [e].countP (·.op.isSpawn) ∧
      (e.op = .joinWorkers → w'.runtime.finished = true) := by
  obtain ⟨o, r⟩ := e
  cases o with
  | buildRuntime =>
      obtain rfl := congrArg Prod.snd (Option.some.inj hanswer)
      refine ⟨?_, nofun⟩
      cases outside .buildRuntime <;> rfl
  | park =>
      refine ⟨?_, nofun⟩
      rw [ServiceWorld.answer_park] at hanswer
      cases hwake : outside .park with
      | signal =>
          rw [hwake] at hanswer
          obtain ⟨-, heq⟩ := Option.ite_none_right_eq_some.mp hanswer
          exact congrArg (·.2.runtime.tasks.length) (Option.some.inj heq).symm
      | listener =>
          rw [hwake] at hanswer
          exact congrArg (·.2.runtime.tasks.length) (Option.some.inj hanswer).symm
  | readContents =>
      obtain ⟨-, heq⟩ := Option.ite_none_left_eq_some.mp hanswer
      exact ⟨congrArg (·.2.runtime.tasks.length) (Option.some.inj heq).symm, nofun⟩
  | spawn peerAddr =>
      obtain rfl := congrArg Prod.snd (Option.some.inj hanswer)
      exact ⟨by simp [ServiceOp.isSpawn], nofun⟩
  | joinWorkers =>
      obtain ⟨hfinished, heq⟩ := Option.ite_none_right_eq_some.mp hanswer
      obtain rfl := congrArg Prod.snd (Option.some.inj heq)
      exact ⟨rfl, fun _ => hfinished⟩
  | _ =>
      exact ⟨congrArg (·.2.runtime.tasks.length) (Option.some.inj hanswer).symm, nofun⟩

/-- After the signal an operation is answered, unless it waits for a task. -/
theorem ServiceWorld.answer_isSome {w : ServiceWorld} (hsignalled : w.channel.signalled = true)
    (outside : (o : ServiceOp) → ServiceAns o) (o : ServiceOp) :
    (w.answer outside o).isSome ∨
      (o = .readContents ∨ o = .joinWorkers) ∧ w.runtime.finished = false := by
  cases o with
  | park =>
      refine .inl ?_
      rw [ServiceWorld.answer_park]
      cases outside .park with
      | signal =>
          rw [ServiceWorld.park, if_pos hsignalled]
          rfl
      | listener => rfl
  | readContents =>
      cases hwriting : w.runtime.writing with
      | true => exact .inr ⟨.inl rfl, Runtime.not_finished_of_writing hwriting⟩
      | false =>
          refine .inl ?_
          rw [ServiceWorld.answer_readContents, hwriting]
          rfl
  | joinWorkers =>
      cases hfinished : w.runtime.finished with
      | true =>
          refine .inl ?_
          rw [ServiceWorld.answer_joinWorkers, if_pos hfinished]
          rfl
      | false => exact .inr ⟨.inr rfl, rfl⟩
  | _ => exact .inl rfl

/-- The signal stays sent. -/
theorem Channel.eventHandler_signalled {c : Channel} (hsignalled : c.signalled = true)
    (control : ServiceControl) : (c.eventHandler control).2.signalled = true := by
  have hstop : (if c.sender then { c with sender := false, signalled := true } else c).signalled =
      true := by
    split
    · rfl
    · exact hsignalled
  cases control with
  | stop => exact hstop
  | shutdown => exact hstop
  | interrogate => exact hsignalled
  | other => exact hsignalled

/-- A request to stop. -/
def ServiceControl.Stops (c : ServiceControl) : Prop :=
  c = .stop ∨ c = .shutdown

/-- The sender is gone exactly when the signal was sent, and it was sent exactly when a
request to stop was handled. -/
structure Channel.Agrees (c : Channel) (controls : List ServiceControl) : Prop where
  sender : c.sender = !c.signalled
  asked : c.signalled = true ↔ ∃ control ∈ controls, control.Stops

theorem Channel.Agrees.handle {c : Channel} {controls : List ServiceControl}
    (hagrees : c.Agrees controls) (control : ServiceControl) :
    (c.eventHandler control).2.Agrees (controls ++ [control]) := by
  obtain ⟨registered, sender, signalled⟩ := c
  obtain ⟨hsender, hasked⟩ := hagrees
  change sender = !signalled at hsender
  subst hsender
  have hstop : control.Stops → Channel.Agrees
      (if (!signalled) = true then ⟨registered, false, true⟩
        else ⟨registered, !signalled, signalled⟩) (controls ++ [control]) := by
    intro hstops
    have hexists : ∃ x ∈ controls ++ [control], x.Stops := ⟨control, by simp, hstops⟩
    cases signalled with
    | true => exact ⟨rfl, fun _ => hexists, fun _ => rfl⟩
    | false => exact ⟨rfl, fun _ => hexists, fun _ => rfl⟩
  have hother : ¬ control.Stops →
      Channel.Agrees ⟨registered, !signalled, signalled⟩ (controls ++ [control]) := by
    intro hnot
    refine ⟨rfl, hasked.trans ⟨?_, ?_⟩⟩
    · rintro ⟨x, hx, hstops⟩
      exact ⟨x, List.mem_append_left _ hx, hstops⟩
    · rintro ⟨x, hx, hstops⟩
      rcases List.mem_append.mp hx with hold | hnew
      · exact ⟨x, hold, hstops⟩
      · exact absurd (List.mem_singleton.mp hnew ▸ hstops) hnot
  cases control with
  | stop => exact hstop (.inl rfl)
  | shutdown => exact hstop (.inr rfl)
  | interrogate => exact hother (by simp [ServiceControl.Stops])
  | other => exact hother (by simp [ServiceControl.Stops])

/-- What one step of the service does. -/
theorem Service.step_cases {s s' : Service} {a : ServiceAction} (hstep : s.step a = some s') :
    (∃ control, s.world.channel.registered = true ∧ s' = { s with
      world := { s.world with channel := (s.world.channel.eventHandler control).2 }
      controls := s.controls ++ [control] }) ∨
    (∃ i t runtime, s.world.runtime.step i t = some runtime ∧
      s' = { s with world := { s.world with runtime := runtime } }) ∨
    ∃ outside e t' w', s.main.perform (s.world.answer outside) = some (e, t', w') ∧
      s' = { s with main := t', world := w' } := by
  cases a with
  | control control =>
      obtain ⟨hregistered, heq⟩ := Option.ite_none_right_eq_some.mp hstep
      exact .inl ⟨control, hregistered, (Option.some.inj heq).symm⟩
  | task i t =>
      obtain ⟨runtime, hruntime, heq⟩ := Option.map_eq_some_iff.mp hstep
      exact .inr (.inl ⟨i, t, runtime, hruntime, heq.symm⟩)
  | perform outside =>
      obtain ⟨⟨e, t', w'⟩, hperform, heq⟩ := Option.map_eq_some_iff.mp hstep
      exact .inr (.inr ⟨outside, e, t', w', hperform, heq.symm⟩)

/-- The reports stay right with an operation that fits. -/
theorem ReportsRight.concat {h : List ServiceEvent} (hreports : ReportsRight h)
    {e : ServiceEvent} (hfits : ServiceFits h e.op) : ReportsRight (h ++ [e]) := by
  obtain ⟨o, r⟩ := e
  have hsaw : o ≠ .pollShutdown → (SawShutdown (h ++ [⟨o, r⟩]) ↔ SawShutdown h) := by
    refine fun hne => ⟨fun hnow => ?_, List.mem_append_left _⟩
    rcases List.mem_append.mp hnow with hold | hnew
    · exact hold
    · exact absurd (congrArg Event.op (List.mem_singleton.mp hnew)).symm hne
  cases o with
  | setServiceStatus status =>
      have hnext : statusesOf (h ++ [⟨.setServiceStatus status, r⟩]) = statusesOf h ++ [status] :=
        statusesOf_append ..
      rcases hfits with ⟨rfl, hnone⟩ | ⟨code, rfl, hone, hcode⟩
      · rw [hnone] at hnext
        exact .inr (.inl hnext)
      · rw [hone] at hnext
        exact .inr (.inr ⟨code, hnext, hcode.trans (hsaw nofun).symm⟩)
  | pollShutdown =>
      refine .inr (.inl ?_)
      rw [statusesOf_append, hfits.2.1]
      rfl
  | _ =>
      rw [ReportsRight, statusesOf_append, hsaw nofun]
      exact (List.append_nil (statusesOf h)).symm ▸ hreports

/-- The thread, what it shares with the handler, and the tasks, in every state of a run. -/
structure Service.Kept (s : Service) : Prop where
  safe : s.main.rest.Safe ServiceFits s.main.done fun h _ => ServiceDone h
  fits : Obeys ServiceFits s.main.done
  reports : ReportsRight s.main.done
  agrees : s.world.channel.Agrees s.controls
  seen : SawShutdown s.main.done → s.world.channel.signalled = true
  drains : s.main.rest.DrainsWithin AnswersStop 16
  spawned : s.world.runtime.tasks.length = s.main.done.countP (·.op.isSpawn)
  joined : ∀ front r, s.main.done = front ++ [⟨.joinWorkers, r⟩] → s.world.runtime.finished = true

theorem Service.kept_initial (rounds : ℕ) : (Service.initial rounds).Kept where
  safe := serviceMain_fits rounds
  fits := obeys_nil
  reports := .inl rfl
  agrees := ⟨rfl, nofun, by simp [initial]⟩
  seen := fun hsaw => nomatch (show _ ∈ [] from hsaw)
  drains := serviceMain_drains rounds
  spawned := rfl
  joined := fun _ _ h => absurd h.symm (by simp [initial])

theorem Service.Kept.step {s s' : Service} {a : ServiceAction} (hkept : s.Kept)
    (hstep : s.step a = some s') : s'.Kept := by
  rcases Service.step_cases hstep with ⟨control, -, rfl⟩ | ⟨i, t, runtime, hruntime, rfl⟩ |
    ⟨outside, e, t', w', hperform, rfl⟩
  · refine { hkept with
      agrees := hkept.agrees.handle control, seen := fun hsaw => ?_ }
    obtain ⟨x, hx, hstops⟩ := hkept.agrees.asked.mp (hkept.seen hsaw)
    exact (hkept.agrees.handle control).asked.mpr ⟨x, List.mem_append_left _ hx, hstops⟩
  · refine { hkept with
      spawned := (Runtime.length_of_step hruntime).trans hkept.spawned,
      joined := fun front r hdone => ?_ }
    -- when the workers were waited for, no task goes on
    have hnone := Runtime.step_of_finished (hkept.joined front r hdone) i t
    rw [hruntime] at hnone
    cases hnone
  · have hdrains := Thread.drains_of_perform hkept.drains hperform
    obtain ⟨k, hrest, hanswer, rfl⟩ := Thread.perform_eq_some hperform
    obtain ⟨hchannel, -, hsaw⟩ := ServiceWorld.channel_of_answer hanswer
    obtain ⟨htasks, hfinished⟩ := ServiceWorld.tasks_of_answer hanswer
    have hsafe := hkept.safe
    rw [hrest] at hsafe
    have hsame : w'.channel.sender = s.world.channel.sender ∧
        w'.channel.signalled = s.world.channel.signalled := by
      rcases hchannel with heq | heq <;> rw [heq] <;> exact ⟨rfl, rfl⟩
    refine ⟨hsafe.2 e.ans, hkept.fits.concat hsafe.1, hkept.reports.concat hsafe.1, ⟨?_, ?_⟩,
      fun hnow => ?_, hdrains, ?_, fun front r hdone => ?_⟩
    · rw [hsame.1, hsame.2]
      exact hkept.agrees.sender
    · rw [hsame.2]
      exact hkept.agrees.asked
    · rw [hsame.2]
      rcases List.mem_append.mp hnow with hold | hnew
      · exact hkept.seen hold
      · exact hsaw (List.mem_singleton.mp hnew).symm
    · rw [htasks, hkept.spawned, List.countP_append]
    · obtain ⟨-, hlast⟩ := List.append_inj' hdone rfl
      exact hfinished (congrArg Event.op (List.singleton_inj.mp hlast))

/-- Every state of a run is kept. -/
theorem Service.kept_of_steps {rounds : ℕ} {s : Service} {actions : List ServiceAction}
    (hsteps : takeSteps Service.step (Service.initial rounds) actions = some s) : s.Kept :=
  takeSteps_invariant Service.Kept (fun _ _ _ hkept hstep => hkept.step hstep)
    (Service.kept_initial rounds) hsteps

/-! ## Reports -/

/-- When the thread is finished, so are all tasks. -/
theorem Service.Kept.finished {s : Service} (hkept : s.Kept)
    (hdropped : RuntimeDropped s.main.done) :
    s.world.runtime.finished = true := by
  rcases hdropped with ⟨front, hdone⟩ | ⟨e, hdone⟩
  · exact hkept.joined (front ++ [⟨.shutDownRuntime, ()⟩]) () (by simp [hdone])
  · have hnone : s.world.runtime.tasks.length = 0 := by
      rw [hkept.spawned, hdone]
      rfl
    rw [Runtime.finished, List.eq_nil_of_length_eq_zero hnone]
    rfl

/-- In every state the manager was told nothing, that the service runs, or that it ran and
stopped, with code 0 exactly when it was told to; it stops only after a request; a connection is
handed to a task only while the service is reported to run, after it was accepted and TLS was set
up for it, and there are no other tasks; and when the thread is finished, no task goes on, and a
service that was reported to run was reported to have stopped. -/
theorem service_reports {rounds : ℕ} {s : Service} {actions : List ServiceAction}
    (hsteps : takeSteps Service.step (Service.initial rounds) actions = some s) :
    ReportsRight s.main.done ∧
      (SawShutdown s.main.done → ∃ control ∈ s.controls, control.Stops) ∧
      (∀ front peerAddr r back, s.main.done = front ++ ⟨.spawn peerAddr, r⟩ :: back →
        statusesOf front = [runningStatus] ∧ StartedUp front ∧ ∃ front',
          front = front' ++ [⟨.pollShutdown, false⟩, ⟨.pollAccept, some (Except.ok peerAddr)⟩,
            ⟨.readContents, ()⟩, ⟨.buildAcceptor, Except.ok ()⟩]) ∧
      s.world.runtime.tasks.length = s.main.done.countP (·.op.isSpawn) ∧
      (s.main.rest = .ret () → ReportedStopped s.main.done ∧ s.world.runtime.finished = true) := by
  have hkept := Service.kept_of_steps hsteps
  refine ⟨hkept.reports, fun hsaw => hkept.agrees.asked.mp (hkept.seen hsaw), ?_, hkept.spawned,
    fun hrest => ?_⟩
  · intro front peerAddr r back hdone
    exact hkept.fits front _ back hdone
  · have hdone := hkept.safe
    rw [hrest] at hdone
    exact ⟨hdone.stopped, hkept.finished hdone.dropped⟩

/-- Every operation succeeds, and the phone connects. -/
def serviceSucceeding (o : ServiceOp) : ServiceAns o :=
  match o with
  | .buildRuntime => Except.ok ()
  | .registerHandler => Except.ok ()
  | .setServiceStatus _ => Except.ok ()
  | .programData => some "C:\\ProgramData"
  | .bind _ => Except.ok ()
  | .start (.daemon o) => succeeding pairedContents o
  | .start .prepare => Except.ok ()
  | .localAddr => Except.ok ()
  | .pollShutdown => false
  | .pollAccept => some (Except.ok phoneAddress)
  | .park => .listener
  | .readContents => ()
  | .buildAcceptor => Except.ok ()
  | .spawn _ => ()
  | .shutDownRuntime => ()
  | .joinWorkers => ()

/-- The service starts, and the phone connects; then it is told to stop. -/
def stoppedOnConnect : List ServiceAction :=
  List.replicate 12 (.perform serviceSucceeding) ++ [.control .stop]

/-- The phone is served until the runtime is dropped, which waits for the end of a poll. -/
def serviceEnding : List ServiceAction :=
  List.replicate 6 (.perform serviceSucceeding) ++
    [.task 0 .poll, .task 0 .yield, .task 0 .drop, .perform serviceSucceeding]

/-- A service that is stopped while a phone connects reports that it ran and stopped. -/
theorem stopped_service_reports :
    ∃ s, takeSteps Service.step (Service.initial 20) (stoppedOnConnect ++ serviceEnding) = some s ∧
      statusesOf s.main.done = [runningStatus, stoppedStatus 0] ∧
      s.world.runtime.tasks = [.gone false] ∧
      ReportsRight s.main.done ∧
      (SawShutdown s.main.done → ∃ control ∈ s.controls, control.Stops) ∧
      (∀ front peerAddr r back, s.main.done = front ++ ⟨.spawn peerAddr, r⟩ :: back →
        statusesOf front = [runningStatus] ∧ StartedUp front ∧ ∃ front',
          front = front' ++ [⟨.pollShutdown, false⟩, ⟨.pollAccept, some (Except.ok peerAddr)⟩,
            ⟨.readContents, ()⟩, ⟨.buildAcceptor, Except.ok ()⟩]) ∧
      s.world.runtime.tasks.length = s.main.done.countP (·.op.isSpawn) ∧
      (s.main.rest = .ret () → ReportedStopped s.main.done ∧ s.world.runtime.finished = true) := by
  have hview : (takeSteps Service.step (Service.initial 20)
      (stoppedOnConnect ++ serviceEnding)).map
        (fun s => (statusesOf s.main.done, s.world.runtime.tasks)) =
        some ([runningStatus, stoppedStatus 0], [.gone false]) := rfl
  obtain ⟨s, hsteps, hview⟩ := Option.map_eq_some_iff.mp hview
  obtain ⟨hstatuses, htasks⟩ := Prod.mk.inj hview
  exact ⟨s, hsteps, hstatuses, htasks, service_reports hsteps⟩

/-! ## The end of the service -/

/-- The thread waits for the lock of the contents or for the end of the workers, and some task
can go on. -/
def Service.WaitsForTask (s : Service) : Prop :=
  (s.main.next = some .readContents ∨ s.main.next = some .joinWorkers) ∧
    ∃ i t, (s.step (.task i t)).isSome

theorem Service.waitsForTask {s : Service} {o : ServiceOp} {k : ServiceAns o → ServiceTask Unit}
    (hrest : s.main.rest = .call o k) (hop : o = .readContents ∨ o = .joinWorkers)
    (hfinished : s.world.runtime.finished = false) : s.WaitsForTask := by
  have hnext : s.main.next = some o := by
    rw [Thread.next, hrest]
  obtain ⟨i, t, hstep⟩ := Runtime.goes_on hfinished
  refine ⟨?_, i, t, (Option.isSome_map ..).trans hstep⟩
  rw [hnext]
  exact hop.imp (congrArg some) (congrArg some)

/-- What the thread does after the signal. -/
structure Service.Ends (s s' : Service) (later : List ServiceEvent) : Prop where
  done : s'.main.done = s.main.done ++ later
  signalled : s'.world.channel.signalled = true
  answers : ∀ e ∈ later, AnswersStop e.op e.ans
  ends : ∃ n, later.length + n ≤ 16 ∧ s'.main.rest.EndsWithin AnswersStop n fun _ => True

theorem Service.Ends.refl {s : Service} (hkept : s.Kept)
    (hsignalled : s.world.channel.signalled = true) : s.Ends s [] :=
  ⟨(List.append_nil _).symm, hsignalled, nofun, 16, Nat.le_refl 16, hkept.drains.ends⟩

theorem Service.Ends.step {s s₁ s₂ : Service} {later : List ServiceEvent} {a : ServiceAction}
    (hends : s.Ends s₁ later) (hstep : s₁.step a = some s₂) : ∃ later', s.Ends s₂ later' := by
  obtain ⟨hdone, hsignalled, hanswers, n, hn, hwithin⟩ := hends
  rcases Service.step_cases hstep with ⟨control, -, rfl⟩ | ⟨i, t, runtime, -, rfl⟩ |
    ⟨outside, e, t', w', hperform, rfl⟩
  · exact ⟨later, hdone, Channel.eventHandler_signalled hsignalled control, hanswers, n, hn,
      hwithin⟩
  · exact ⟨later, hdone, hsignalled, hanswers, n, hn, hwithin⟩
  · have hrest := Thread.perform_eq_some hperform
    obtain ⟨k, -, hanswer, hafter⟩ := hrest
    obtain ⟨hchannel, hstops, -⟩ := ServiceWorld.channel_of_answer hanswer
    obtain ⟨m, rfl, hm⟩ := Thread.ends_of_perform hwithin hperform (hstops hsignalled)
    refine ⟨later ++ [e], ?_, ?_, ?_, m, ?_, hm⟩
    · rw [hafter]
      exact (congrArg (· ++ [e]) hdone).trans (List.append_assoc ..)
    · rcases hchannel with heq | heq <;> rw [heq] <;> exact hsignalled
    · intro e' he'
      rcases List.mem_append.mp he' with hold | hnew
      · exact hanswers e' hold
      · obtain rfl := List.mem_singleton.mp hnew
        exact hstops hsignalled
    · rw [List.length_append, List.length_singleton]
      omega

theorem Service.ends_of_steps {s s' : Service} {more : List ServiceAction} (hkept : s.Kept)
    (hsignalled : s.world.channel.signalled = true)
    (hmore : takeSteps Service.step s more = some s') : ∃ later, s.Ends s' later :=
  takeSteps_invariant (fun s' => ∃ later, s.Ends s' later)
    (fun _ _ _ hends hstep => hends.elim fun _ hends => hends.step hstep)
    ⟨[], Service.Ends.refl hkept hsignalled⟩ hmore

/-- The thread does not give up before its rounds are used up. -/
theorem Service.lasts_of_steps {rounds : ℕ} {s : Service} {actions : List ServiceAction}
    (hsteps : takeSteps Service.step (Service.initial rounds) actions = some s) {n : ℕ}
    (hn : s.main.done.length + n ≤ rounds) : s.main.rest.Lasts n := by
  refine takeSteps_invariant
    (fun s : Service => ∀ n, s.main.done.length + n ≤ rounds → s.main.rest.Lasts n) ?_ ?_
    hsteps n hn
  · intro s a s' hlasts hstep n hn
    rcases Service.step_cases hstep with ⟨control, -, rfl⟩ | ⟨i, t, runtime, -, rfl⟩ |
      ⟨outside, e, t', w', hperform, rfl⟩
    · exact hlasts n hn
    · exact hlasts n hn
    · refine Thread.lasts_of_perform (hlasts (n + 1) ?_) hperform
      obtain ⟨k, -, -, rfl⟩ := Thread.perform_eq_some hperform
      rw [List.length_append, List.length_singleton] at hn
      omega
  · intro n hn
    exact (serviceMain_lasts rounds).mono (by simpa [Service.initial] using hn)

/-- What has happened since is shorter than what follows an event before it. -/
theorem length_le_of_append {before later front tail : List ServiceEvent} {e : ServiceEvent}
    (heq : before ++ later = front ++ e :: tail) (hnot : e ∉ later) :
    later.length ≤ tail.length := by
  rcases List.append_eq_append_iff.mp heq with ⟨between, -, rfl⟩ | ⟨between, -, htail⟩
  · exact absurd (by simp) hnot
  · cases between with
    | nil =>
        obtain rfl : e :: tail = later := htail
        exact absurd List.mem_cons_self hnot
    | cons e' between =>
        obtain ⟨-, rfl⟩ := List.cons_eq_cons.mp (htail.trans (List.cons_append ..))
        rw [List.length_append]
        exact Nat.le_add_left _ _

/-- After a request to stop was handled, the thread performs at most sixteen more operations.  It
looks at the listener at most once, when it had just looked at the signal; a connection is handed
to a task only when it was accepted then or before, within four operations; and the thread waits
for nothing but tasks that can go on. -/
theorem service_stops {rounds : ℕ} {s s' : Service} {actions more : List ServiceAction}
    (hsteps : takeSteps Service.step (Service.initial rounds) actions = some s)
    (hasked : ∃ control ∈ s.controls, control.Stops)
    (hmore : takeSteps Service.step s more = some s') (hrounds : s'.main.done.length < rounds) :
    ∃ later, s'.main.done = s.main.done ++ later ∧ later.length ≤ 16 ∧
      (∀ front r back, later = front ++ ⟨.pollAccept, r⟩ :: back → front = []) ∧
      (∀ front peerAddr r back, later = front ++ ⟨.spawn peerAddr, r⟩ :: back →
        front.length ≤ 3) ∧
      (s'.main.rest = .ret () ∨ s'.WaitsForTask ∨
        ∀ outside, (s'.step (.perform outside)).isSome) := by
  have hkept := Service.kept_of_steps hsteps
  have hboth : takeSteps Service.step (Service.initial rounds) (actions ++ more) = some s' := by
    rw [takeSteps_append, hsteps]
    exact hmore
  have hfits := (Service.kept_of_steps hboth).fits
  obtain ⟨later, hends⟩ := Service.ends_of_steps hkept (hkept.agrees.asked.mpr hasked) hmore
  have hlook : ⟨.pollShutdown, false⟩ ∉ later := fun hmem => nomatch hends.answers _ hmem
  have hbefore : ∀ front e back, later = front ++ e :: back →
      ServiceFits (s.main.done ++ front) e.op := by
    rintro front e back rfl
    refine hfits (s.main.done ++ front) e back ?_
    rw [hends.done, List.append_assoc]
  refine ⟨later, hends.done, ?_, ?_, ?_, ?_⟩
  · obtain ⟨n, hn, -⟩ := hends.ends
    omega
  · rintro front r back rfl
    obtain ⟨front', hfront⟩ := hbefore front _ back rfl
    have hlength := length_le_of_append hfront fun hmem => hlook (List.mem_append_left _ hmem)
    exact List.eq_nil_of_length_eq_zero (Nat.le_zero.mp hlength)
  · rintro front peerAddr r back rfl
    obtain ⟨-, -, front', hfront⟩ := hbefore front _ back rfl
    exact length_le_of_append hfront fun hmem => hlook (List.mem_append_left _ hmem)
  · have hlasts : s'.main.rest.Lasts 1 := Service.lasts_of_steps hboth hrounds
    cases hrest : s'.main.rest with
    | ret u => exact .inl rfl
    | stall =>
        rw [hrest] at hlasts
        exact hlasts.elim
    | call o k =>
        refine .inr (or_iff_not_imp_left.mpr fun hwaits outside => ?_)
        rw [Service.step, Option.isSome_map, Thread.perform, hrest]
        refine (Option.isSome_map ..).trans ?_
        refine (ServiceWorld.answer_isSome hends.signalled outside o).resolve_right ?_
        rintro ⟨hop, hfinished⟩
        exact hwaits (Service.waitsForTask hrest hop hfinished)

/-- A service that is stopped while a phone connects still serves it, and ends. -/
theorem stopped_service_ends :
    ∃ s s', takeSteps Service.step (Service.initial 30) stoppedOnConnect = some s ∧
      takeSteps Service.step s serviceEnding = some s' ∧
      ∃ later, s'.main.done = s.main.done ++ later ∧ later.length ≤ 16 ∧
        (∀ front r back, later = front ++ ⟨.pollAccept, r⟩ :: back → front = []) ∧
        (∀ front peerAddr r back, later = front ++ ⟨.spawn peerAddr, r⟩ :: back →
          front.length ≤ 3) ∧
        (s'.main.rest = .ret () ∨ s'.WaitsForTask ∨
          ∀ outside, (s'.step (.perform outside)).isSome) := by
  have hview : ((takeSteps Service.step (Service.initial 30) stoppedOnConnect).bind fun s =>
      (takeSteps Service.step s serviceEnding).map fun s' =>
        (s.controls, s'.main.done.length)) = some ([.stop], 19) := rfl
  obtain ⟨s, hsteps, hview⟩ := Option.bind_eq_some_iff.mp hview
  obtain ⟨s', hmore, hview⟩ := Option.map_eq_some_iff.mp hview
  obtain ⟨hcontrols, hlength⟩ := Prod.mk.inj hview
  refine ⟨s, s', hsteps, hmore, service_stops hsteps ⟨.stop, ?_, .inl rfl⟩ hmore (by omega)⟩
  rw [hcontrols]
  exact List.mem_singleton_self _

end Daemon
end WakeMyPc
