import WakeMyPc.Daemon.KeystoreInvariant
import WakeMyPc.Daemon.WindowsPromises

/-!
# The processes on Windows refine the host

In the host every operation of the daemon is one step, and a server starts in one step.  On
Windows they are many calls, between which other threads make theirs.

Main results:

- Theorem `winRefines_step`: a step on Windows is matched by steps of the host.
- Theorem `windows_refines`: every run on Windows in which no saves of one process overlap is one
  of the host.
- Theorem `windows_distinct`: so the keystore has one record for each key on Windows.
-/

namespace WakeMyPc
namespace Daemon

open Foundations
open Protocol (SpkiHash)

/-! ## States that correspond -/

/-- The thread is a connection or a subcommand. -/
def WinKind.isThread (kind : WinKind) : Bool :=
  match kind.job with
  | .startServer => false
  | .thread _ => true

/-- The connections and subcommands. -/
def WinHost.daemonThreads (h : WinHost) : List WinThread :=
  h.threads.filter fun t => t.kind.isThread

/-- What is promised: whether the server that is starting will serve, and how the load that each
thread is in will fail. -/
structure Promise where
  serves : Bool
  failure : ℕ → Option KeystoreError

/-- A server that is starting has read these bytes. -/
def Pending (h : WinHost) (cipher : Bytes) : Prop :=
  ∃ t ∈ h.threads, IsStarting t ∧ ⟨.readKeystore, Except.ok cipher⟩ ∈ t.done

/-- The thread on Windows is one of the host. -/
def SameThread (opens : Bytes → Option Bytes) (failure : Option KeystoreError) (t : WinThread)
    (q : DaemonThread) : Prop :=
  (∃ process, t.kind = ⟨process, .thread q.kind⟩) ∧ Carried opens failure t q

section Refinement

variable {extractSpkiHash : Bytes → Except Crypto.Error SpkiHash} {opens : Bytes → Option Bytes}

variable (opens) in
/-- The state of the host is the one of the processes on Windows, where a server that will serve
has started when it read the file. -/
structure WinRefines (h : WinHost) (promise : Promise) (g : Host) : Prop where
  stored : SameStored opens h.world g
  waits : h.world.server = none →
    (promise.serves = false ∨ ∀ cipher, ¬ Pending h cipher) → g.world.server = none
  started : h.world.server = none → promise.serves = true → ∀ cipher, Pending h cipher →
    g.world.server = contentsOf opens cipher
  threads : Matched (fun j => SameThread opens (promise.failure j)) h.daemonThreads g.threads

variable {h h' : WinHost} {g : Host} {promise : Promise}

/-- A thread that is no start leaves what is pending. -/
theorem pending_spawn {k : Kind} {process n : ℕ} {cipher : Bytes} :
    Pending { h.spawn extractSpkiHash ⟨process, .thread k⟩ with processes := n } cipher ↔
      Pending h cipher := by
  constructor
  · rintro ⟨t, ht, hstart, hread⟩
    rcases List.mem_append.mp ht with hold | hnew
    · exact ⟨t, hold, hstart, hread⟩
    · obtain rfl := List.mem_singleton.mp hnew
      cases hread
  · rintro ⟨t, ht, hstart, hread⟩
    exact ⟨t, List.mem_append_left _ ht, hstart, hread⟩

theorem spawn_refines (hR : WinRefines opens h promise g) {k : Kind}
    {process n : ℕ}
    (hgoes : Goes extractSpkiHash g
      { g with threads := g.threads ++ [k.thread extractSpkiHash] }) :
    ∃ bs g', takeSteps (Host.step extractSpkiHash) g bs = some g' ∧
      WinRefines opens
        { h.spawn extractSpkiHash ⟨process, .thread k⟩ with processes := n } promise g' := by
  obtain ⟨bs, hbs⟩ := hgoes
  refine ⟨bs, _, hbs, ⟨⟨hR.stored.file, hR.stored.server⟩, fun hnone hwaits => ?_,
    fun hnone hserves cipher hpending => ?_, ?_⟩⟩
  · exact hR.waits hnone (hwaits.imp_right fun hno cipher hpending =>
      hno cipher (pending_spawn.mpr hpending))
  · exact hR.started hnone hserves cipher (pending_spawn.mp hpending)
  · have hthreads : WinHost.daemonThreads
        { h.spawn extractSpkiHash ⟨process, .thread k⟩ with processes := n } =
        h.daemonThreads ++ [WinKind.start extractSpkiHash ⟨process, .thread k⟩] := by
      simp only [WinHost.daemonThreads, WinHost.spawn, List.filter_append]
      rfl
    rw [hthreads]
    exact hR.threads.concat ⟨⟨process, rfl⟩, carried_of_rest .nil rfl⟩

/-- A server that boots has not started yet. -/
theorem boot_refines (hone : OneStart h) (hprocess : h.world.process = none)
    (hR : WinRefines opens h promise g) :
    WinRefines opens
      { h.spawn extractSpkiHash ⟨h.processes, .startServer⟩ with
        world := { h.world with process := some h.processes }
        processes := h.processes + 1 } promise g := by
  have hnopending : ∀ cipher, ¬ Pending h cipher := by
    rintro cipher ⟨t, ht, hstart, -⟩
    exact (hone.alone t ht hstart).2 hprocess
  refine ⟨⟨hR.stored.file, hR.stored.server⟩, fun hnone _ => hR.waits hnone (.inr hnopending),
    fun _ _ cipher hpending => ?_, ?_⟩
  · obtain ⟨t, ht, hstart, hread⟩ := hpending
    rcases List.mem_append.mp ht with hold | hnew
    · exact absurd ⟨t, hold, hstart, hread⟩ (hnopending cipher)
    · obtain rfl := List.mem_singleton.mp hnew
      cases hread
  · have hthreads : (h.threads ++ [WinKind.start extractSpkiHash
        ⟨h.processes, .startServer⟩]).filter (fun t => t.kind.isThread) = h.daemonThreads := by
      rw [List.filter_append]
      exact List.append_nil _
    simp only [WinHost.daemonThreads, WinHost.spawn, hthreads]
    exact hR.threads

/-- A thread of the server ends in both. -/
theorem sameThread_end {failure : Option KeystoreError} {t : WinThread} {q : DaemonThread}
    (hsame : SameThread opens failure t q) :
    SameThread opens failure (endServerThread t) (endConnection q) := by
  obtain ⟨⟨process, hkind⟩, hcarried⟩ := hsame
  have hserver : t.kind.isServer = q.kind.isConnection := by rw [hkind]; rfl
  unfold endServerThread endConnection
  rw [hserver]
  split
  · exact ⟨⟨process, hkind⟩, .cutOff rfl⟩
  · exact ⟨⟨process, hkind⟩, hcarried⟩

theorem stop_refines (hR : WinRefines opens h promise g) :
    ∃ bs g', takeSteps (Host.step extractSpkiHash) g bs = some g' ∧
      WinRefines opens
        { h with
          world := { h.world with server := none, process := none }
          threads := h.threads.map endServerThread } promise g' := by
  have hgoes : Goes extractSpkiHash g
      ⟨{ g.world with server := none }, g.threads.map endConnection⟩ :=
    Goes.step (a := .stop) rfl
  obtain ⟨bs, hbs⟩ := hgoes
  refine ⟨bs, _, hbs, ⟨⟨hR.stored.file, nofun⟩, fun _ _ => rfl, fun _ _ cipher hpending => ?_, ?_⟩⟩
  · obtain ⟨t, ht, hstart, -⟩ := hpending
    obtain ⟨t₀, -, rfl⟩ := List.mem_map.mp ht
    exact absurd hstart (not_isStarting_end t₀)
  · have hthreads : (h.threads.map endServerThread).filter (fun t => t.kind.isThread) =
        h.daemonThreads.map endServerThread := by
      rw [List.filter_map]
      refine congrArg _ (List.filter_congr fun t _ => ?_)
      simp
    simp only [WinHost.daemonThreads, hthreads]
    exact hR.threads.map fun j t q hsame => sameThread_end hsame

/-! ## Calls -/

/-- A call of a thread that is no start leaves what is pending. -/
theorem pending_set {i : ℕ} {t t' : WinThread} {w : WinWorld} {cipher : Bytes}
    (ht : h.threads[i]? = some t) (hnot : ¬ IsStarting t) (hnot' : ¬ IsStarting t') :
    Pending { h with world := w, threads := h.threads.set i t' } cipher ↔ Pending h cipher := by
  constructor
  · rintro ⟨u, hu, hstart, hread⟩
    rcases List.mem_or_eq_of_mem_set hu with hold | rfl
    · exact ⟨u, hold, hstart, hread⟩
    · exact absurd hstart hnot'
  · rintro ⟨u, hu, hstart, hread⟩
    obtain ⟨j, hj⟩ := List.getElem?_of_mem hu
    have hne : i ≠ j := by
      rintro rfl
      obtain rfl := Option.some.inj (ht.symm.trans hj)
      exact hnot hstart
    refine ⟨u, List.mem_of_getElem? (i := j) ?_, hstart, hread⟩
    rwa [List.getElem?_set_ne hne]

/-- A call of the server that starts leaves what is pending, and adds what it reads. -/
theorem pending_perform {i : ℕ} {t t' : WinThread} {e : WinEvent} {w : WinWorld} {cipher : Bytes}
    {answer : (o : WinOp) → Option (WinAns o × WinWorld)} (ht : h.threads[i]? = some t)
    (hone : OneStart h) (hstart : IsStarting t) (hstart' : IsStarting t')
    (hthread : t.perform answer = some (e, t', w)) :
    Pending { h with world := w, threads := h.threads.set i t' } cipher ↔
      Pending h cipher ∨ e = ⟨.readKeystore, Except.ok cipher⟩ := by
  have hdone := Thread.done_of_perform hthread
  have hmem' : t' ∈ h.threads.set i t' := List.mem_set (List.getElem?_eq_some_iff.mp ht).1 t'
  constructor
  · rintro ⟨u, hu, hu', hin⟩
    obtain rfl := hone.eq_of_mem_set ht hstart hu hu'
    rw [hdone] at hin
    rcases List.mem_append.mp hin with hold | hnew
    · exact .inl ⟨t, List.mem_of_getElem? ht, hstart, hold⟩
    · exact .inr (List.mem_singleton.mp hnew).symm
  · rintro (⟨u, hu, hu', hin⟩ | rfl)
    · obtain rfl := hone.eq_of_mem ht hstart hu hu'
      exact ⟨t', hmem', hstart', by rw [hdone]; exact List.mem_append_left _ hin⟩
    · exact ⟨t', hmem', hstart', by rw [hdone]; simp⟩

/-- A call of a connection or a subcommand. -/
theorem thread_refines {i j : ℕ} {t t' : WinThread} {e : WinEvent} {w : WinWorld} {k : Kind}
    {process : ℕ} {outside : (o : WinOp) → WinAns o} {filled : Bytes} {promise' : Promise}
    {failure : Option KeystoreError} (horderly : SavesOrderly h) (ht : h.threads[i]? = some t)
    (hkind : t.kind = ⟨process, .thread k⟩) (hright : JobRight t)
    (hj : h.daemonThreads[j]? = some t)
    (hset : (h.threads.set i t').filter (fun t => t.kind.isThread) = h.daemonThreads.set j t')
    (hthread : t.perform (t.kind.answer extractSpkiHash opens outside filled h.world) =
      some (e, t', w))
    (hcopied : t'.done.IsChain (CopiedRight opens))
    (hends : ∀ result, FinishesLoad t'.done result → failure = failureOf result)
    (hlater : (∀ result, ¬ FinishesLoad t'.done result) → failure = promise'.failure j)
    (hR : WinRefines opens h
      ⟨promise'.serves, Function.update promise'.failure j failure⟩ g) :
    ∃ bs g', takeSteps (Host.step extractSpkiHash) g bs = some g' ∧
      WinRefines opens { h with world := w, threads := h.threads.set i t' }
        promise' g' := by
  obtain ⟨q, hq, ⟨process', hkind'⟩, hcarried⟩ := hR.threads.get hj
  change Carried opens (Function.update promise'.failure j failure j) t q at hcarried
  rw [Function.update_self] at hcarried
  obtain ⟨kt, -, hanswer, -⟩ := Thread.perform_eq_some hthread
  have hstep := (horderly.leaves (List.mem_of_getElem? ht) (Thread.next_of_perform hthread)
    (winEffect_of_answer hanswer)).file
  obtain ⟨g', q', ⟨bs, hbs⟩, hthreads, hqkind, hcarried', hfile, hserver, hnone⟩ :=
    carried_perform hR.stored hq hkind' hcarried hthread hstep hcopied hends hlater
  have hkind'' := Thread.kind_of_perform hthread
  have hjob : t.kind.job ≠ .startServer := by
    rw [hkind]
    nofun
  have hgoesOn := (hright.other hjob).next (Thread.next_of_perform hthread)
  obtain ⟨-, hserving, -⟩ := goesOn_of_effect (winEffect_of_answer hanswer) hgoesOn
  have hpending : ∀ cipher, Pending { h with world := w, threads := h.threads.set i t' } cipher ↔
      Pending h cipher :=
    fun cipher => pending_set ht (fun hstart => hjob hstart.1)
      fun hstart => hjob (hkind'' ▸ hstart.1)
  refine ⟨bs, g', hbs, ⟨⟨hfile, hserver⟩, fun hnone' hwaits => ?_,
    fun hnone' hserves cipher hread => ?_, ?_⟩⟩
  · rw [(hnone (hserving.mp hnone')).2]
    exact hR.waits (hserving.mp hnone') (hwaits.imp_right fun hno cipher hread =>
      hno cipher ((hpending cipher).mpr hread))
  · rw [(hnone (hserving.mp hnone')).2]
    exact hR.started (hserving.mp hnone') hserves cipher ((hpending cipher).mp hread)
  · rw [hthreads]
    simp only [WinHost.daemonThreads, hset]
    refine hR.threads.set ⟨⟨process', ?_⟩, hcarried'⟩ fun j' t₀ q₀ hne hsame => ?_
    · rw [hkind'', hkind', hqkind]
    · change SameThread opens (Function.update promise'.failure j failure j') t₀ q₀ at hsame
      rwa [Function.update_of_ne hne] at hsame

/-- A call of a server that starts, when it goes on. -/
theorem start_refines {i : ℕ} {t t' : WinThread} {e : WinEvent} {w : WinWorld}
    {promise' : Promise} {answer : (o : WinOp) → Option (WinAns o × WinWorld)}
    (ht : h.threads[i]? = some t) (hjob : t.kind.job = .startServer) (hright : StartRight t)
    (hone : OneStart h) (hstart : IsStarting t) (hstart' : IsStarting t')
    (hset : (h.threads.set i t').filter (fun t => t.kind.isThread) = h.daemonThreads)
    (hthread : t.perform answer = some (e, t', w))
    (heffect : WinEffect extractSpkiHash opens t.kind h.world e w)
    (hgoesOn : e.op.goesOn = true) (hR : WinRefines opens h promise' g) :
    ∃ bs g', takeSteps (Host.step extractSpkiHash) g bs = some g' ∧
      WinRefines opens { h with world := w, threads := h.threads.set i t' }
        promise' g' := by
  have hmem := List.mem_of_getElem? ht
  obtain ⟨hnone, -⟩ := hone.alone t hmem hstart
  have hserver : w.server = h.world.server := (goesOn_of_effect heffect hgoesOn).2.2 hjob
  have hnext := hright.fits.next (Thread.next_of_perform hthread)
  have hfile : w.file = h.world.file := by
    rcases files_of_effect heffect with hsame | ⟨o, r, rfl⟩
    · exact congrArg (fun files : Files FileName => files.read .keystore) hsame
    · exact hnext.elim
  have hstored : ∀ server, SameStored opens w
      { g with world := ⟨g.world.file, server⟩ } := fun server =>
    ⟨by rw [hfile]; exact hR.stored.file, fun c hc => by
      rw [hserver, hnone] at hc
      cases hc⟩
  have hthreads : Matched (fun j => SameThread opens (promise'.failure j))
      (WinHost.daemonThreads { h with world := w, threads := h.threads.set i t' }) g.threads := by
    simp only [WinHost.daemonThreads, hset]
    exact hR.threads
  have hpending : ∀ cipher, Pending { h with world := w, threads := h.threads.set i t' } cipher ↔
      Pending h cipher ∨ e = ⟨.readKeystore, Except.ok cipher⟩ :=
    fun cipher => pending_perform ht hone hstart hstart' hthread
  by_cases hread : IsRead e
  · obtain ⟨cipher, rfl⟩ := hread
    have hgfile : g.world.file = contentsOf opens cipher := by
      rw [hR.stored.file, file_of_read heffect]
      rfl
    have hnopending : ∀ cipher', ¬ Pending h cipher' := by
      rintro cipher' ⟨u, hu, hu', hin⟩
      obtain rfl := hone.eq_of_mem ht hstart hu hu'
      exact hnext cipher' hin
    have hgnone : g.world.server = none := hR.waits hnone (.inr hnopending)
    have hsame : ∀ cipher',
        Pending { h with world := w, threads := h.threads.set i t' } cipher' →
          cipher' = cipher := by
      intro cipher' hin
      rcases (hpending cipher').mp hin with hold | hnew
      · exact absurd hold (hnopending cipher')
      · cases hnew
        rfl
    by_cases hstarts : promise'.serves = true ∧ (contentsOf opens cipher).isSome = true
    · -- the host starts its server with what is read now
      obtain ⟨hserves, hsome⟩ := hstarts
      obtain ⟨c, hc⟩ := Option.isSome_iff_exists.mp hsome
      have hgoes : Goes extractSpkiHash g { g with world := ⟨g.world.file, some c⟩ } := by
        refine Goes.step (a := .start) ?_
        simp only [Host.step, hgnone, hgfile, hc]
      obtain ⟨bs, hbs⟩ := hgoes
      refine ⟨bs, _, hbs, ⟨hstored (some c), fun _ hwaits => ?_, fun _ _ cipher' hin => ?_,
        hthreads⟩⟩
      · rcases hwaits with hnot | hno
        · rw [hserves] at hnot
          cases hnot
        · exact absurd ((hpending cipher).mpr (.inr rfl)) (hno cipher)
      · rw [hsame cipher' hin, hc]
    · refine ⟨[], g, rfl, ⟨hstored g.world.server, fun _ _ => hgnone,
        fun _ hserves cipher' hin => ?_, hthreads⟩⟩
      have hnocontents : contentsOf opens cipher = none := by
        rw [← Option.not_isSome_iff_eq_none]
        exact fun hsome => hstarts ⟨hserves, hsome⟩
      rw [hsame cipher' hin, hnocontents, hgnone]
  · -- what is pending is what was
    refine ⟨[], g, rfl, ⟨hstored g.world.server, fun _ hwaits => ?_, fun _ hserves cipher hin => ?_,
      hthreads⟩⟩
    · exact hR.waits hnone (hwaits.imp_right fun hno cipher hin =>
        hno cipher ((hpending cipher).mpr (.inl hin)))
    · rcases (hpending cipher).mp hin with hold | hnew
      · exact hR.started hnone hserves cipher hold
      · exact absurd ⟨cipher, hnew⟩ hread

/-- The last call of a start. -/
theorem end_refines {i : ℕ} {t t' : WinThread} {e : WinEvent} {w : WinWorld}
    {promise' : Promise} {serves : Bool} {answer : (o : WinOp) → Option (WinAns o × WinWorld)}
    (ht : h.threads[i]? = some t) (hone : OneStart h) (hstart : IsStarting t)
    (hended : ¬ IsStarting t')
    (hset : (h.threads.set i t').filter (fun t => t.kind.isThread) = h.daemonThreads)
    (hthread : t.perform answer = some (e, t', w))
    (heffect : WinEffect extractSpkiHash opens t.kind h.world e w)
    (hgoesOn : e.op.goesOn = false)
    (hloaded : ∀ c, e = ⟨.serve c, ()⟩ → ∃ cipher,
      ⟨.readKeystore, Except.ok cipher⟩ ∈ t'.done ∧ contentsOf opens cipher = some c)
    (hserves : serves = true ↔ ∃ c, e = ⟨.serve c, ()⟩)
    (hR : WinRefines opens h ⟨serves, promise'.failure⟩ g) :
    WinRefines opens { h with world := w, threads := h.threads.set i t' }
      promise' g := by
  have hmem := List.mem_of_getElem? ht
  obtain ⟨hnone, -⟩ := hone.alone t hmem hstart
  have hdone := Thread.done_of_perform hthread
  have hpending : ∀ cipher,
      ¬ Pending { h with world := w, threads := h.threads.set i t' } cipher := by
    rintro cipher ⟨u, hu, hu', -⟩
    exact hended (hone.eq_of_mem_set ht hstart hu hu' ▸ hu')
  have hthreads : Matched (fun j => SameThread opens (promise'.failure j))
      (WinHost.daemonThreads { h with world := w, threads := h.threads.set i t' }) g.threads := by
    simp only [WinHost.daemonThreads, hset]
    exact hR.threads
  cases heffect with
  | served c =>
      obtain ⟨cipher, hread, hc⟩ := hloaded c rfl
      rw [hdone] at hread
      have hin : ⟨.readKeystore, Except.ok cipher⟩ ∈ t.done := by
        rcases List.mem_append.mp hread with hold | hnew
        · exact hold
        · cases List.mem_singleton.mp hnew
      have hserver : g.world.server = some c := by
        rw [hR.started hnone (hserves.mpr ⟨c, rfl⟩) cipher ⟨t, hmem, hstart, hin⟩, hc]
      exact ⟨⟨hR.stored.file, fun _ h => hserver.trans h⟩, nofun, nofun, hthreads⟩
  | exited =>
      have hnot : serves = false := by
        cases serves with
        | false => rfl
        | true =>
            obtain ⟨c, hc⟩ := hserves.mp rfl
            cases hc
      exact ⟨⟨hR.stored.file, hR.stored.server⟩, fun _ _ => hR.waits hnone (.inl hnot),
        fun _ _ cipher hin => absurd hin (hpending cipher), hthreads⟩
  | other hother =>
      obtain ⟨o, r⟩ := e
      cases o with
      | serve contents => cases hother
      | exit => cases hother
      | _ => cases hgoesOn
  | _ => cases hgoesOn

/-! ## Steps and runs -/

variable (extractSpkiHash opens) in
/-- The state is one of a run that starts with these files and in which no save opens the
temporary file of its process while another has yet to rename it. -/
def WinReached (files : Files FileName) (h : WinHost) : Prop :=
  ∃ actions, Along (WinHost.step extractSpkiHash opens) WinHost.SavesAlone
      (WinHost.initial files) actions ∧
    takeSteps (WinHost.step extractSpkiHash opens) (WinHost.initial files) actions = some h

variable {files : Files FileName}

theorem WinReached.step (hreached : WinReached extractSpkiHash opens files h) {a : WinAction}
    (halone : h.SavesAlone a) (hstep : h.step extractSpkiHash opens a = some h') :
    WinReached extractSpkiHash opens files h' := by
  obtain ⟨actions, halong, hsteps⟩ := hreached
  refine ⟨actions ++ [a], halong.concat fun h₁ hsteps₁ => ?_, ?_⟩
  · obtain rfl := Option.some.inj (hsteps.symm.trans hsteps₁)
    exact halone
  · rw [takeSteps_append, hsteps, Option.bind_some, takeSteps, hstep]
    rfl

theorem WinReached.orderly (hreached : WinReached extractSpkiHash opens files h) :
    SavesOrderly h := by
  obtain ⟨actions, halong, hsteps⟩ := hreached
  exact savesOrderly_of_steps halong hsteps

theorem WinReached.starts (hreached : WinReached extractSpkiHash opens files h) :
    (∀ t ∈ h.threads, JobRight t) ∧ OneStart h := by
  obtain ⟨actions, -, hsteps⟩ := hreached
  refine takeSteps_invariant (fun h : WinHost => (∀ t ∈ h.threads, JobRight t) ∧ OneStart h)
    (fun h a h' hall hstep => ⟨jobRight_of_step hall.1 hstep,
      oneStart_of_step hall.1 hall.2 hstep⟩) ⟨?_, ?_⟩ hsteps
  · simp [WinHost.initial]
  · refine ⟨fun _ => rfl, by simp [WinHost.initial], fun i j t u hi => ?_⟩
    simp [WinHost.initial] at hi

/-- A step of the processes on Windows is matched by steps of the host, for a promise that
depends on what is promised after it. -/
theorem winRefines_step (hreached : WinReached extractSpkiHash opens files h) {a : WinAction}
    (halone : h.SavesAlone a) (hstep : h.step extractSpkiHash opens a = some h')
    (promise' : Promise) :
    ∃ promise, ∀ g, WinRefines opens h promise g →
      ∃ bs g', takeSteps (Host.step extractSpkiHash) g bs = some g' ∧
        WinRefines opens h' promise' g' := by
  obtain ⟨hright, hone⟩ := hreached.starts
  have hreached' := hreached.step halone hstep
  cases WinHost.stepped_of_step hstep with
  | boot hprocess =>
      exact ⟨promise', fun g hR => ⟨[], g, rfl, boot_refines hone hprocess hR⟩⟩
  | stop => exact ⟨promise', fun g hR => stop_refines hR⟩
  | accept hprocess hserver certs peerAddr rounds reads =>
      refine ⟨promise', fun g hR => spawn_refines hR ?_⟩
      refine Goes.step (a := .accept certs peerAddr rounds reads) ?_
      simp only [Host.step, hR.stored.server _ hserver, Option.isSome_some, if_true]
  | launch command =>
      exact ⟨promise', fun g hR => spawn_refines hR (Goes.step (a := .launch command) rfl)⟩
  | @perform i outside filled t t' e w ht hthread heffect hfree =>
      have hmem := List.mem_of_getElem? ht
      have hmem' : t' ∈ h.threads.set i t' := List.mem_set (List.getElem?_eq_some_iff.mp ht).1 t'
      obtain ⟨actions, halong, hsteps⟩ := hreached'
      have hcopied := (blobsRight_of_steps hsteps t' hmem').copied
      have hkind' := Thread.kind_of_perform hthread
      cases hjob : t.kind.job with
      | thread k =>
          have hthreadKind : t.kind.isThread = true := by
            unfold WinKind.isThread
            rw [hjob]
          obtain ⟨j, hj, hset⟩ := filter_set_of_pos (p := fun t : WinThread => t.kind.isThread)
            ht hthreadKind
          obtain ⟨failure, hends, hlater⟩ := exists_failure t'.done (promise'.failure j)
          refine ⟨⟨promise'.serves, Function.update promise'.failure j failure⟩, fun g hR => ?_⟩
          have hkind : t.kind = ⟨t.kind.process, .thread k⟩ := by rw [← hjob]
          exact thread_refines hreached.orderly ht hkind (hright t hmem) hj
            (hset t' (hkind' ▸ hthreadKind)) hthread hcopied hends hlater hR
      | startServer =>
          have hnotThread : t.kind.isThread = false := by
            unfold WinKind.isThread
            rw [hjob]
          have hset := filter_set_of_neg (p := fun t : WinThread => t.kind.isThread) ht hnotThread
            (hkind' ▸ hnotThread)
          have hnext := Thread.next_of_perform hthread
          have hstart : IsStarting t := ⟨hjob, by rw [hnext]; rfl⟩
          rcases goesOn_or_ends (hright t hmem) hthread with ⟨hgoesOn, hsame⟩ | ⟨hends, -, hended⟩
          · exact ⟨promise', fun g hR => start_refines ht hjob ((hright t hmem).start hjob) hone
              hstart (hsame.mpr hstart) hset hthread heffect hgoesOn hR⟩
          · classical
            obtain ⟨serves, hserves⟩ : ∃ serves : Bool, serves = true ↔ ∃ c, e = ⟨.serve c, ()⟩ :=
              ⟨decide (∃ c, e = ⟨.serve c, ()⟩), decide_eq_true_iff⟩
            refine ⟨⟨serves, promise'.failure⟩, fun g hR => ⟨[], g, rfl, ?_⟩⟩
            refine end_refines ht hone hstart hended hset hthread heffect hends ?_ hserves hR
            rintro c rfl
            have hserve : ⟨.serve c, ()⟩ ∈ t'.done := by
              rw [Thread.done_of_perform hthread]
              exact List.mem_append_right _ (List.mem_singleton.mpr rfl)
            exact (served_is_loaded hsteps hmem' hserve).contents hcopied

/-- What is read of a keystore file is written to it in full. -/
theorem unscoped_of_contentsOf {cipher : Bytes} {c : KeystoreContents}
    (hc : contentsOf opens cipher = some c) : c.Unscoped := by
  obtain ⟨plain, -, hload⟩ := Option.bind_eq_some_iff.mp hc
  cases hplain : loadPlaintext plain with
  | error e =>
      rw [hplain] at hload
      cases hload
  | ok contents =>
      rw [hplain] at hload
      cases hload
      exact (loadPlaintext_yields hplain).unscoped

theorem winRefines_initial (promise : Promise) :
    WinRefines opens (WinHost.initial files) promise
      (Host.initial ((files.read .keystore).bind (contentsOf opens))) := by
  refine ⟨⟨?_, nofun⟩, fun _ _ => rfl, fun _ _ cipher hpending => ?_, ⟨rfl, ?_⟩⟩
  · -- what is read back once has nothing more to lose
    change ((files.read .keystore).bind (contentsOf opens)).map KeystoreContents.reloaded = _
    cases hcontents : (files.read .keystore).bind (contentsOf opens) with
    | none => exact hcontents.symm
    | some c =>
        obtain ⟨cipher, -, hc⟩ := Option.bind_eq_some_iff.mp hcontents
        rw [Option.map_some, c.reloaded_eq_iff.mpr (unscoped_of_contentsOf hc)]
        exact hcontents.symm
  · obtain ⟨t, ht, -⟩ := hpending
    cases ht
  · intro j t q ht
    simp [WinHost.daemonThreads, WinHost.initial] at ht

/-- For all that can be promised of what is under way, a run on Windows in which no save opens
the temporary file of its process while another has yet to rename it is one of the host. -/
theorem promised_of_steps {actions : List WinAction}
    (halong : Along (WinHost.step extractSpkiHash opens) WinHost.SavesAlone
      (WinHost.initial files) actions)
    (hsteps : takeSteps (WinHost.step extractSpkiHash opens) (WinHost.initial files) actions =
      some h)
    (promise : Promise) :
    ∃ bs g, takeSteps (Host.step extractSpkiHash)
        (Host.initial ((files.read .keystore).bind (contentsOf opens))) bs = some g ∧
      WinRefines opens h promise g := by
  exact takeSteps_promised (WinRefines opens)
    (fun _ _ _ hreached halone hstep => WinReached.step hreached halone hstep)
    (fun _ _ _ hreached halone hstep promise' => winRefines_step hreached halone hstep promise')
    (⟨[], trivial, rfl⟩ : WinReached extractSpkiHash opens files _) winRefines_initial
    halong hsteps promise

/-- No load and no start that is under way will succeed. -/
def nothingSucceeds : Promise :=
  ⟨false, fun _ => some (.encryption (osText ""))⟩

/-- When no start that is under way will succeed, the host shares just what is shared. -/
theorem world_of_nothingSucceeds (hR : WinRefines opens h nothingSucceeds g) :
    g.world = ⟨h.world.file.bind (contentsOf opens), h.world.server⟩ := by
  have hserver : g.world.server = h.world.server := by
    cases hserving : h.world.server with
    | none => exact hR.waits hserving (.inl rfl)
    | some c => exact hR.stored.server c hserving
  rw [← hserver, ← hR.stored.file]

/-- What the thread of the host has done, the one on Windows has carried out, and at most part
of the next operation. -/
def CarriedOut (t : WinThread) (q : DaemonThread) : Prop :=
  ∃ front back, t.done = front ++ back ∧ Prog.Carries onWindows q.done front ∧
    (back = [] ∨ ∃ o, q.next = some o ∧ (onWindows o).Performs back)

/-- When no load that is under way will succeed, each thread is in the operation that its thread
of the host has next. -/
theorem carriedOut_of_carried {error : KeystoreError} {t : WinThread} {q : DaemonThread}
    (hcarried : Carried opens (some error) t q) : t.rest = .stall ∨ CarriedOut t q := by
  cases hcarried with
  | cutOff hrest => exact .inl hrest
  | ended hcarries hrest => exact .inr ⟨t.done, [], (List.append_nil _).symm, hcarries, .inl rfl⟩
  | during hcarries hdone hq hleads hrest hlive hload =>
      exact .inr ⟨_, _, hdone, hcarries, .inr ⟨_, by rw [Thread.next, hq], hleads.performs⟩⟩
  | loading hfailure => cases hfailure

/-- Every run of the processes on Windows, in any order of their calls in which no save opens the
temporary file of its process while another has yet to rename it, is a run of the host in which
each operation of the daemon is one step: the file has the contents that the host has, the server
has the same contents in memory, and each connection and subcommand that was not cut off has
carried out what its thread of the host has done. -/
theorem windows_refines {actions : List WinAction}
    (halong : Along (WinHost.step extractSpkiHash opens) WinHost.SavesAlone
      (WinHost.initial files) actions)
    (hsteps : takeSteps (WinHost.step extractSpkiHash opens) (WinHost.initial files) actions =
      some h) :
    ∃ bs g, takeSteps (Host.step extractSpkiHash)
        (Host.initial ((files.read .keystore).bind (contentsOf opens))) bs = some g ∧
      g.world = ⟨h.world.file.bind (contentsOf opens), h.world.server⟩ ∧
      Matched (fun _ t q => (∃ process, t.kind = ⟨process, .thread q.kind⟩) ∧
        (t.rest = .stall ∨ CarriedOut t q)) h.daemonThreads g.threads := by
  obtain ⟨bs, g, hbs, hR⟩ := promised_of_steps halong hsteps nothingSucceeds
  refine ⟨bs, g, hbs, world_of_nothingSucceeds hR, hR.threads.1, fun j t q ht hq => ?_⟩
  obtain ⟨hkind, hcarried⟩ := hR.threads.2 j t q ht hq
  exact ⟨hkind, carriedOut_of_carried hcarried⟩

/-- In every such run on Windows, the keystore file and the memory of the server have one record
for each key if the file had at first. -/
theorem windows_distinct {actions : List WinAction}
    (hfile : ∀ c, (files.read .keystore).bind (contentsOf opens) = some c → c.Distinct)
    (halong : Along (WinHost.step extractSpkiHash opens) WinHost.SavesAlone
      (WinHost.initial files) actions)
    (hsteps : takeSteps (WinHost.step extractSpkiHash opens) (WinHost.initial files) actions =
      some h) :
    (∀ c, h.world.file.bind (contentsOf opens) = some c → c.Distinct) ∧
      ∀ c, h.world.server = some c → c.Distinct := by
  obtain ⟨bs, g, hbs, hR⟩ := promised_of_steps halong hsteps nothingSucceeds
  obtain ⟨hinFile, hinServer⟩ := distinct_of_steps hfile hbs
  rw [world_of_nothingSucceeds hR] at hinFile hinServer
  exact ⟨hinFile, hinServer⟩

end Refinement

/-- A server that was overtaken while it started accepts a phone that is revoked by then. -/
def overtakenStart : List WinAction :=
  overtakenLoad ++ .accept [[]] phoneAddress 2 2 ::
    List.replicate 4 (goOn pairedContents 2 (succeeding pairedContents))

theorem overtakenStart_alone : Along (WinHost.step phoneSpki opensPlain) WinHost.SavesAlone
    (WinHost.initial savedFiles) overtakenStart := by
  decide

/-- The server serves what the file had before, as a host does that has started before. -/
theorem overtaken_start_refines :
    ∃ h, takeSteps (WinHost.step phoneSpki opensPlain) (WinHost.initial savedFiles)
        overtakenStart = some h ∧
      h.world.server = some pairedContents ∧
      h.world.file ≠ some (savePlaintext pairedContents) ∧
      ∃ bs g, takeSteps (Host.step phoneSpki)
          (Host.initial ((savedFiles.read .keystore).bind (contentsOf opensPlain))) bs = some g ∧
        g.world = ⟨h.world.file.bind (contentsOf opensPlain), h.world.server⟩ ∧
        Matched (fun _ t q => (∃ process, t.kind = ⟨process, .thread q.kind⟩) ∧
          (t.rest = .stall ∨ CarriedOut t q)) h.daemonThreads g.threads := by
  have hview : ((takeSteps (WinHost.step phoneSpki opensPlain) (WinHost.initial savedFiles)
      overtakenStart).map fun h =>
        (h.world.server, h.world.file == some (savePlaintext pairedContents))) =
      some (some pairedContents, false) := by
    rfl
  obtain ⟨h, hsteps, hworld⟩ := Option.map_eq_some_iff.mp hview
  obtain ⟨hserver, hfile⟩ := Prod.mk.inj hworld
  exact ⟨h, hsteps, hserver, by simpa using hfile, windows_refines overtakenStart_alone hsteps⟩

/-- The keys stay distinct when a start is overtaken. -/
theorem overtaken_start_distinct :
    ∃ h, takeSteps (WinHost.step phoneSpki opensPlain) (WinHost.initial savedFiles)
        overtakenStart = some h ∧
      (∀ c, h.world.file.bind (contentsOf opensPlain) = some c → c.Distinct) ∧
      ∀ c, h.world.server = some c → c.Distinct := by
  have hsome : (takeSteps (WinHost.step phoneSpki opensPlain) (WinHost.initial savedFiles)
      overtakenStart).isSome := by
    rfl
  obtain ⟨h, hsteps⟩ := Option.isSome_iff_exists.mp hsome
  refine ⟨h, hsteps, windows_distinct (fun c hc => ?_) overtakenStart_alone hsteps⟩
  have hfirst : (savedFiles.read .keystore).bind (contentsOf opensPlain) =
      some pairedContents := by
    rfl
  obtain rfl := Option.some.inj (hfirst.symm.trans hc)
  exact List.nodup_singleton _

end Daemon
end WakeMyPc
