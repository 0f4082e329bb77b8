import WakeMyPc.Daemon.WindowsStart

/-!
# One thread on Windows and one of the host

A thread on Windows that is between two operations, or in one, goes on as a thread of the host
without calls does.  The host has carried out a load at the read of the file when it is promised
that the load succeeds, and at its end otherwise.

Main results:

- Theorem `carried_perform`: a call of the thread on Windows is matched by steps of the thread of
  the host.
-/

namespace WakeMyPc
namespace Daemon

open Foundations
open Protocol (SpkiHash)

/-! ## Loads that end -/

/-- The error of a result. -/
def failureOf {α : Type} : Except KeystoreError α → Option KeystoreError
  | .error e => some e
  | .ok _ => none

/-- The last call of the thread has finished a load of bytes with this result. -/
def FinishesLoad (done : List WinEvent)
    (result : Except KeystoreError (Option KeystoreContents)) : Prop :=
  ∃ front cipher es, done = front ++ ⟨.readKeystore, Except.ok cipher⟩ :: es ∧
    (Windows.loadCipher cipher).Trace es result

/-- The event is a read of bytes. -/
def IsRead (e : WinEvent) : Prop :=
  ∃ cipher, e = ⟨.readKeystore, Except.ok cipher⟩

theorem not_isRead_of_isInner {e : WinEvent} (h : e.op.isInner = true) : ¬ IsRead e := by
  rintro ⟨cipher, rfl⟩
  cases h

/-- After a read and part of a load, nothing else is finished than that load. -/
theorem finishesLoad_of_leads {done front es : List WinEvent} {cipher : Bytes}
    {p : WinTask (Except KeystoreError (Option KeystoreContents))}
    (hdone : done = front ++ ⟨.readKeystore, Except.ok cipher⟩ :: es)
    (hleads : (Windows.loadCipher cipher).Leads es p)
    {result : Except KeystoreError (Option KeystoreContents)} (h : FinishesLoad done result) :
    p = .ret result := by
  obtain ⟨front', cipher', es', hdone', htrace⟩ := h
  have hinner := (Windows.loadCipher_inner cipher).of_leads hleads
  have hinner' := (Windows.loadCipher_inner cipher').of_trace htrace
  obtain ⟨heq, rfl⟩ := last_split_unique (P := IsRead) (hdone.symm.trans hdone') ⟨cipher, rfl⟩
    ⟨cipher', rfl⟩ (fun e he => not_isRead_of_isInner (hinner e he))
    (fun e he => not_isRead_of_isInner (hinner' e he))
  cases heq
  exact htrace.leads_unique hleads

/-- What is promised of the load that ends now, and else what was promised. -/
theorem exists_failure (done : List WinEvent) (later : Option KeystoreError) :
    ∃ failure, (∀ result, FinishesLoad done result → failure = failureOf result) ∧
      ((∀ result, ¬ FinishesLoad done result) → failure = later) := by
  by_cases h : ∃ result, FinishesLoad done result
  · obtain ⟨result, front, cipher, es, hdone, htrace⟩ := h
    refine ⟨failureOf result, fun result' h' => ?_, fun hnone => ?_⟩
    · have hsame := finishesLoad_of_leads hdone htrace.leads h'
      cases hsame
      rfl
    · exact absurd ⟨front, cipher, es, hdone, htrace⟩ (hnone result)
  · exact ⟨later, fun result h' => absurd ⟨result, h'⟩ h, fun _ => rfl⟩

/-! ## Threads that correspond -/

/-- What the thread on Windows has done and has left to do is what the thread of the host has,
when the load that it is in will have this failure. -/
inductive Carried (opens : Bytes → Option Bytes) (failure : Option KeystoreError)
    (t : WinThread) (q : DaemonThread) : Prop where
  /-- It was cut off. -/
  | cutOff (hrest : t.rest = .stall)
  | ended {a : Unit} (hcarries : Prog.Carries onWindows q.done t.done) (hrest : t.rest = .ret a)
  /-- It is in an operation that the host still has to carry out. -/
  | during {front es : List WinEvent} {o : Op} {k : Ans o → Task Unit} {p : WinTask (Ans o)}
      (hcarries : Prog.Carries onWindows q.done front) (hdone : t.done = front ++ es)
      (hq : q.rest = .call o k) (hleads : (onWindows o).Leads es p)
      (hrest : t.rest = p >>= fun r => Prog.interpret onWindows (k r))
      (hlive : es = [] ∨ ∃ c kp, p = .call c kp)
      (hload : o = .load → es = [] ∨ failure.isSome = true)
  /-- It is in a load that the host has carried out. -/
  | loading {front es : List WinEvent} {cipher : Bytes} {qdone : List TaskEvent}
      {k : Ans .load → Task Unit} {p : WinTask (Ans .load)} (hfailure : failure = none)
      (hcarries : Prog.Carries onWindows qdone front)
      (hdone : t.done = front ++ ⟨.readKeystore, Except.ok cipher⟩ :: es)
      (hqdone : q.done = qdone ++ [⟨.load, Except.ok (contentsOf opens cipher)⟩])
      (hq : q.rest = k (Except.ok (contentsOf opens cipher)))
      (hleads : (Windows.loadCipher cipher).Leads es p)
      (hrest : t.rest = p >>= fun r => Prog.interpret onWindows (k r))
      (hlive : ∃ c kp, p = .call c kp)

/-- A thread that is between two operations. -/
theorem carried_of_rest {opens : Bytes → Option Bytes} {failure : Option KeystoreError}
    {t : WinThread} {q : DaemonThread} (hcarries : Prog.Carries onWindows q.done t.done)
    (hrest : t.rest = Prog.interpret onWindows q.rest) : Carried opens failure t q := by
  cases hq : q.rest with
  | ret a => exact .ended hcarries (hrest.trans (by rw [hq]; rfl))
  | stall => exact .cutOff (hrest.trans (by rw [hq]; rfl))
  | call o k =>
      exact .during hcarries (List.append_nil _).symm hq (Prog.leads_nil.mpr rfl)
        (hrest.trans (by rw [hq]; rfl)) (.inl rfl) fun _ => .inl rfl

/-! ## Steps of the host -/

section Steps

variable {extractSpkiHash : Bytes → Except Crypto.Error SpkiHash} {opens : Bytes → Option Bytes}

/-- The host takes steps from one state to another. -/
def Goes (extractSpkiHash : Bytes → Except Crypto.Error SpkiHash) (g g' : Host) : Prop :=
  ∃ bs, takeSteps (Host.step extractSpkiHash) g bs = some g'

theorem Goes.refl (g : Host) : Goes extractSpkiHash g g :=
  ⟨[], rfl⟩

theorem Goes.trans {g g₁ g₂ : Host} (h : Goes extractSpkiHash g g₁)
    (h' : Goes extractSpkiHash g₁ g₂) : Goes extractSpkiHash g g₂ := by
  obtain ⟨bs, hbs⟩ := h
  obtain ⟨cs, hcs⟩ := h'
  refine ⟨bs ++ cs, ?_⟩
  rw [takeSteps_append, hbs]
  exact hcs

theorem Goes.step {g g' : Host} {a : Action} (hstep : g.step extractSpkiHash a = some g') :
    Goes extractSpkiHash g g' := by
  refine ⟨[a], ?_⟩
  rw [takeSteps, hstep]
  rfl

/-- A thread carries out its next operation. -/
theorem Goes.perform {g : Host} {j : ℕ} {q : DaemonThread} {o : Op} {k : Ans o → Task Unit}
    {outside : (o : Op) → Ans o} {a : Ans o} {w : World} (hq : g.threads[j]? = some q)
    (hrest : q.rest = .call o k)
    (hanswer : q.kind.answer extractSpkiHash outside g.world o = some (a, w)) :
    Goes extractSpkiHash g
      ⟨w, g.threads.set j { q with done := q.done ++ [⟨o, a⟩], rest := k a }⟩ := by
  have hthread : q.perform (q.kind.answer extractSpkiHash outside g.world) =
      some (⟨o, a⟩, { q with done := q.done ++ [⟨o, a⟩], rest := k a }, w) := by
    simp only [Thread.perform, hrest, hanswer, Option.map_some]
  refine Goes.step (a := .perform j outside) ?_
  simp only [Host.step, Host.perform_of_thread hq hthread, Option.map_some]

/-- A thread carries out operations that are finished without a call. -/
theorem Goes.fails {es : List TaskEvent} {g : Host} {j : ℕ} {q : DaemonThread} {p : Task Unit}
    (hq : g.threads[j]? = some q) (hleads : q.rest.Leads es p)
    (hes : ∀ e ∈ es, onWindows e.op = .ret e.ans) :
    Goes extractSpkiHash g
      ⟨g.world, g.threads.set j { q with done := q.done ++ es, rest := p }⟩ := by
  induction es generalizing g q with
  | nil =>
      obtain rfl := Prog.leads_nil.mp hleads
      rw [List.append_nil]
      have hsame : g.threads.set j q = g.threads := set_of_getElem? hq
      change Goes extractSpkiHash g ⟨g.world, g.threads.set j q⟩
      rw [hsame]
      exact .refl g
  | cons e es ih =>
      cases hrest : q.rest with
      | ret a =>
          rw [hrest] at hleads
          exact hleads.elim
      | stall =>
          rw [hrest] at hleads
          exact hleads.elim
      | call o k =>
          rw [hrest] at hleads
          obtain ⟨a, rfl, hlater⟩ := hleads
          obtain ⟨hfirst, hes⟩ := List.forall_mem_cons.mp hes
          obtain ⟨contents, error, heq⟩ := saveFailed_of_ret hfirst
          obtain ⟨outside, hout⟩ := exists_outside (o := .saveFile contents) (Except.error error)
          have hanswer : q.kind.answer extractSpkiHash outside g.world o = some (a, g.world) := by
            cases heq
            simp only [Kind.answer, hout]
          have hlt : j < g.threads.length := (List.getElem?_eq_some_iff.mp hq).1
          have hlast := ih (g := ⟨g.world, g.threads.set j
            { q with done := q.done ++ [⟨o, a⟩], rest := k a }⟩)
            (q := { q with done := q.done ++ [⟨o, a⟩], rest := k a })
            (List.getElem?_set_self hlt) hlater hes
          refine (Goes.perform hq hrest hanswer).trans ?_
          simpa only [List.set_set, List.append_assoc, List.singleton_append] using hlast

/-! ## Calls -/

section Calls

variable {g : Host} {j : ℕ} {q : DaemonThread} {t t' : WinThread} {e : WinEvent} {w w' : WinWorld}
  {failure later : Option KeystoreError}

variable (extractSpkiHash opens) in
/-- The host goes on to a state that corresponds to what a call leaves. -/
def GoesOn (g : Host) (j : ℕ) (q : DaemonThread) (later : Option KeystoreError) (t' : WinThread)
    (w w' : WinWorld) : Prop :=
  ∃ g' q', Goes extractSpkiHash g g' ∧ g'.threads = g.threads.set j q' ∧ q'.kind = q.kind ∧
    Carried opens later t' q' ∧ g'.world.file = w'.file.bind (contentsOf opens) ∧
    (∀ c, w'.server = some c → g'.world.server = some c) ∧
    (w.server = none → w'.server = none ∧ g'.world.server = g.world.server)

/-- The state of the host is the one of the threads on Windows. -/
structure SameStored (opens : Bytes → Option Bytes) (w : WinWorld) (g : Host) : Prop where
  file : g.world.file = w.file.bind (contentsOf opens)
  server : ∀ c, w.server = some c → g.world.server = some c

/-- A call that is not seen in the host. -/
theorem goesOn_same (hstored : SameStored opens w g) (hq : g.threads[j]? = some q)
    (hsame : w'.file = w.file ∧ w'.server = w.server ∧ w'.process = w.process)
    (hcarried : Carried opens later t' q) :
    GoesOn extractSpkiHash opens g j q later t' w w' := by
  obtain ⟨hfile, hserver, -⟩ := hsame
  refine ⟨g, q, .refl g, (set_of_getElem? hq).symm, rfl, hcarried, ?_, ?_, ?_⟩
  · rw [hfile]
    exact hstored.file
  · rw [hserver]
    exact hstored.server
  · exact fun hnone => ⟨hserver.trans hnone, rfl⟩

/-- A call with which the host carries out an operation. -/
theorem goesOn_answers {o : Op} {k : Ans o → Task Unit} {a : Ans o}
    (hstored : SameStored opens w g) (hq : g.threads[j]? = some q) (hrest : q.rest = .call o k)
    (hanswers : HostAnswers extractSpkiHash opens q.kind w g.world.server o a w')
    (hcarried : Carried opens later t' { q with done := q.done ++ [⟨o, a⟩], rest := k a }) :
    GoesOn extractSpkiHash opens g j q later t' w w' := by
  obtain ⟨outside, server', hanswer, hserver, hnone⟩ := hanswers
  have hworld : g.world = ⟨w.file.bind (contentsOf opens), g.world.server⟩ := by
    rw [← hstored.file]
  rw [← hworld] at hanswer
  exact ⟨_, _, .perform hq hrest hanswer, rfl, rfl, hcarried, rfl, hserver, hnone⟩

/-- A load that has finished has made one call, or has finished a load of bytes. -/
theorem finishesLoad_of_trace {done front es : List WinEvent} {a : Ans .load}
    (hdone : done = front ++ es) (htrace : (onWindows .load).Trace es a) :
    es.length = 1 ∨ FinishesLoad done a := by
  obtain ⟨read, rest, rfl, hrest⟩ := htrace
  cases read with
  | error e =>
      cases e <;>
      · obtain ⟨rfl, -⟩ := hrest
        exact .inl rfl
  | ok cipher => exact .inr ⟨front, cipher, rest, hdone, hrest⟩

/-- A load that goes on has made no call, or has read the file. -/
theorem read_of_leads {es : List WinEvent} {c : WinOp} {kp : WinAns c → WinTask (Ans .load)}
    (hleads : (onWindows .load).Leads es (.call c kp)) : es = [] ∨
      ∃ cipher es', es = ⟨.readKeystore, Except.ok cipher⟩ :: es' ∧
        (Windows.loadCipher cipher).Leads es' (.call c kp) := by
  cases es with
  | nil => exact .inl rfl
  | cons e es =>
      obtain ⟨read, rfl, hrest⟩ := hleads
      cases read with
      | error error => cases error <;> cases es <;> cases hrest
      | ok cipher => exact .inr ⟨cipher, es, rfl, hrest⟩

/-- A load that succeeds is carried out by the host at the read of the file. -/
theorem hostAnswers_read {k : Kind} {cipher : Bytes} {server : Option KeystoreContents}
    (hfile : w.file = some cipher)
    (hsame : w'.file = w.file ∧ w'.server = w.server ∧ w'.process = w.process)
    (hserver : ∀ c, w.server = some c → server = some c) :
    HostAnswers extractSpkiHash opens k w server .load (Except.ok (contentsOf opens cipher))
      w' := by
  obtain ⟨hsame, hsame', -⟩ := hsame
  obtain ⟨outside, hout⟩ := exists_outside (o := .load) (Except.ok none)
  refine ⟨outside, server, ?_, ?_, ?_⟩
  · simp only [Kind.answer, hout, hsame, hfile, Option.bind_some]
  · rw [hsame']
    exact hserver
  · exact fun hnone => ⟨hsame'.trans hnone, rfl⟩

/-- A call of an operation that the host still has to carry out. -/
theorem goesOn_during {process : ℕ} {outside : (o : WinOp) → WinAns o} {filled : Bytes}
    {front es : List WinEvent} {o : Op} {k : Ans o → Task Unit}
    {kp : WinAns e.op → WinTask (Ans o)} (hstored : SameStored opens w g)
    (hq : g.threads[j]? = some q)
    (hcarries : Prog.Carries onWindows q.done front) (hrest : q.rest = .call o k)
    (hleads : (onWindows o).Leads es (.call e.op kp))
    (hload : o = .load → es = [] ∨ failure.isSome = true)
    (hanswer : (⟨process, .thread q.kind⟩ : WinKind).answer extractSpkiHash opens outside filled w
      e.op = some (e.ans, w'))
    (hstep : FileStep (front ++ es) w e w') (hdone : t'.done = front ++ (es ++ [e]))
    (hafter : t'.rest = kp e.ans >>= fun r => Prog.interpret onWindows (k r))
    (hcopied : t'.done.IsChain (CopiedRight opens))
    (hends : ∀ result, FinishesLoad t'.done result → failure = failureOf result)
    (hlater : (∀ result, ¬ FinishesLoad t'.done result) → failure = later) :
    GoesOn extractSpkiHash opens g j q later t' w w' := by
  have heffect : WinEffect extractSpkiHash opens ⟨process, .thread q.kind⟩ w e w' :=
    winEffect_of_answer hanswer
  have hgoes : (onWindows o).Leads (es ++ [e]) (kp e.ans) := hleads.concat e.ans
  -- all calls but the last one are quiet
  have hquiet : (∀ a, kp e.ans ≠ .ret a) →
      w'.file = w.file ∧ w'.server = w.server ∧ w'.process = w.process := by
    intro hnot
    rcases (onWindows_commits o).leads hleads with hquiet | hlast
    · exact same_of_quiet heffect hstep hquiet.1
    · obtain ⟨a, ha⟩ := hlast e.ans
      exact absurd ha (hnot a)
  cases hret : kp e.ans with
  | ret a =>
      have htrace : (onWindows o).Trace (es ++ [e]) a := Prog.trace_of_leads (hret ▸ hgoes)
      have hcarried : Carried opens later t'
          { q with done := q.done ++ [⟨o, a⟩], rest := k a } := by
        refine carried_of_rest (hdone ▸ hcarries.concat htrace) ?_
        rw [hafter, hret]
        rfl
      refine goesOn_answers hstored hq hrest ?_ hcarried
      by_cases hl : o = .load
      · subst hl
        refine load_answers hleads hret hanswer hstep ?_ hstored.server
        rcases finishesLoad_of_trace hdone htrace with hone | hfinishes
        · exact .inl (List.length_eq_zero_iff.mp (by simpa using hone))
        · refine (hload rfl).imp_right fun hsome => ?_
          rw [hends a hfinishes] at hsome
          cases a with
          | error error => exact ⟨error, rfl⟩
          | ok found => cases hsome
      · have hchain : (front ++ es ++ [e]).IsChain (CopiedRight opens) := by
          rw [List.append_assoc]
          exact hdone ▸ hcopied
        exact answers_of_ret hl hleads hret hanswer hstep hchain hstored.server
  | stall =>
      have hsame := hquiet fun a ha => by cases hret.symm.trans ha
      refine goesOn_same hstored hq hsame (.cutOff ?_)
      rw [hafter, hret]
      rfl
  | call c' kp' =>
      have hsame := hquiet fun a ha => by cases hret.symm.trans ha
      by_cases hl : o = .load
      · subst hl
        rcases read_of_leads (hret ▸ hgoes) with hnil | ⟨cipher, es', heq, hcipher⟩
        · simp at hnil
        · have hread : t'.done = front ++ ⟨.readKeystore, Except.ok cipher⟩ :: es' :=
            heq ▸ hdone
          have hsame' : failure = later := hlater fun result hfinishes => by
            cases finishesLoad_of_leads hread hcipher hfinishes
          subst hsame'
          cases hf : failure with
          | some error =>
              refine goesOn_same hstored hq hsame ?_
              exact .during hcarries hdone hrest hgoes hafter (.inr ⟨c', kp', hret⟩)
                fun _ => .inr rfl
          | none =>
              obtain rfl : es = [] := (hload rfl).resolve_right (by simp [hf])
              obtain ⟨rfl, rfl⟩ := List.cons.inj heq
              have hfile := file_of_read heffect
              refine goesOn_answers hstored hq hrest
                (hostAnswers_read hfile hsame hstored.server) ?_
              exact .loading rfl hcarries hread rfl rfl hcipher
                (hafter.trans (by rw [hret]; rfl)) ⟨c', kp', rfl⟩
      · refine goesOn_same hstored hq hsame ?_
        exact .during hcarries hdone hrest hgoes hafter (.inr ⟨c', kp', hret⟩)
          fun heq => absurd heq hl

/-- A load of bytes that succeeds finds contents. -/
theorem loadCipher_some (cipher : Bytes) (h : List WinEvent) :
    (Windows.loadCipher cipher).Safe (fun _ _ => True) h fun _ result => result ≠ .ok none := by
  refine (Prog.safe_bind (Windows.decrypt cipher) _ _ _).mpr
    ((Windows.decrypt_spec cipher h).mono fun h' result _ => ?_)
  cases result with
  | error detail => exact nofun
  | ok plain =>
      change (loadPlaintext plain).map some ≠ .ok none
      cases loadPlaintext plain <;> exact nofun

/-- A call of a load that the host has carried out. -/
theorem goesOn_loading {kind : WinKind} {front es : List WinEvent} {cipher : Bytes}
    {qdone : List TaskEvent} {k : Ans .load → Task Unit} {kp : WinAns e.op → WinTask (Ans .load)}
    (hstored : SameStored opens w g) (hq : g.threads[j]? = some q) (hfailure : failure = none)
    (hcarries : Prog.Carries onWindows qdone front)
    (hqdone : q.done = qdone ++ [⟨.load, Except.ok (contentsOf opens cipher)⟩])
    (hrest : q.rest = k (Except.ok (contentsOf opens cipher)))
    (hleads : (Windows.loadCipher cipher).Leads es (.call e.op kp))
    (heffect : WinEffect extractSpkiHash opens kind w e w') (hstep : FileStep t.done w e w')
    (hdone : t'.done = front ++ ⟨.readKeystore, Except.ok cipher⟩ :: (es ++ [e]))
    (hafter : t'.rest = kp e.ans >>= fun r => Prog.interpret onWindows (k r))
    (hcopied : t'.done.IsChain (CopiedRight opens))
    (hends : ∀ result, FinishesLoad t'.done result → failure = failureOf result)
    (hlater : (∀ result, ¬ FinishesLoad t'.done result) → failure = later) :
    GoesOn extractSpkiHash opens g j q later t' w w' := by
  have hgoes : (Windows.loadCipher cipher).Leads (es ++ [e]) (kp e.ans) := hleads.concat e.ans
  have hinner := (Windows.loadCipher_inner cipher).of_leads hgoes e (by simp)
  refine goesOn_same hstored hq (same_of_quiet heffect hstep (WinOp.isQuiet_of_isInner hinner)) ?_
  cases hret : kp e.ans with
  | stall => exact .cutOff (by rw [hafter, hret]; rfl)
  | call c' kp' =>
      have hsame : failure = later := hlater fun result hfinishes => by
        cases hret ▸ finishesLoad_of_leads hdone hgoes hfinishes
      exact .loading (hsame ▸ hfailure) hcarries hdone hqdone hrest hgoes hafter ⟨c', kp', hret⟩
  | ret a =>
      have htrace : (Windows.loadCipher cipher).Trace (es ++ [e]) a :=
        Prog.trace_of_leads (hret ▸ hgoes)
      have hload : (onWindows .load).Trace (⟨.readKeystore, Except.ok cipher⟩ :: (es ++ [e])) a :=
        ⟨Except.ok cipher, _, rfl, htrace⟩
      have hnone := (hends a ⟨front, cipher, es ++ [e], hdone, htrace⟩).symm.trans hfailure
      -- what was promised to succeed has given the contents of the bytes
      have hcontents : a = Except.ok (contentsOf opens cipher) := by
        cases a with
        | error error => cases hnone
        | ok found =>
            cases found with
            | none => exact absurd rfl ((loadCipher_some cipher []).trace htrace)
            | some c =>
                rw [hdone] at hcopied
                obtain ⟨cipher', rest, heq, hcontents⟩ :=
                  contents_of_trace hload (List.isChain_append.mp hcopied).2.1
                cases (List.cons.inj heq).1
                rw [hcontents]
      refine carried_of_rest ?_ ?_
      · rw [hqdone, hdone]
        exact hcarries.concat (hcontents ▸ hload)
      · rw [hafter, hret, hrest, ← hcontents]
        rfl

/-- A call of a thread on Windows is matched by steps of its thread of the host. -/
theorem carried_perform {process : ℕ} {outside : (o : WinOp) → WinAns o} {filled : Bytes}
    (hstored : SameStored opens w g) (hq : g.threads[j]? = some q)
    (hkind : t.kind = ⟨process, .thread q.kind⟩) (hcarried : Carried opens failure t q)
    (hperform : t.perform (t.kind.answer extractSpkiHash opens outside filled w) =
      some (e, t', w'))
    (hstep : FileStep t.done w e w') (hcopied : t'.done.IsChain (CopiedRight opens))
    (hends : ∀ result, FinishesLoad t'.done result → failure = failureOf result)
    (hlater : (∀ result, ¬ FinishesLoad t'.done result) → failure = later) :
    GoesOn extractSpkiHash opens g j q later t' w w' := by
  obtain ⟨kt, hcall, hanswer, hafter⟩ := Thread.perform_eq_some hperform
  rw [hkind] at hanswer
  have hdone' := Thread.done_of_perform hperform
  have hrest' : t'.rest = kt e.ans := by rw [hafter]
  cases hcarried with
  | cutOff hrest => cases hrest.symm.trans hcall
  | ended hcarries hrest => cases hrest.symm.trans hcall
  | @loading front es cipher qdone k p hfailure hcarries hdone hqdone hqrest hleads hrest hlive =>
      obtain ⟨c, kp, rfl⟩ := hlive
      cases hrest.symm.trans hcall
      refine goesOn_loading hstored hq hfailure hcarries hqdone hqrest hleads
        (winEffect_of_answer hanswer) hstep ?_ hrest' hcopied hends hlater
      rw [hdone', hdone, List.append_assoc]
      rfl
  | @during front es o k p hcarries hdone hqrest hleads hrest hlive hload =>
      rcases hlive with rfl | ⟨c, kp, rfl⟩
      · -- operations that need no call come first
        obtain rfl := Prog.leads_nil.mp hleads
        have hinterpret : Prog.interpret onWindows q.rest = .call e.op kt := by
          rw [hqrest, ← hcall, hrest]
          rfl
        obtain ⟨es, o', k', kp, hleads', hes, ho', rfl⟩ := Prog.interpret_eq_call hinterpret
        have hlt : j < g.threads.length := (List.getElem?_eq_some_iff.mp hq).1
        have hfails : Goes extractSpkiHash g ⟨g.world, g.threads.set j
            { q with done := q.done ++ es, rest := .call o' k' }⟩ := Goes.fails hq hleads' hes
        obtain ⟨g', q', hgoes, hthreads, hkind', hafter'⟩ := goesOn_during
          (g := ⟨g.world, g.threads.set j { q with done := q.done ++ es, rest := .call o' k' }⟩)
          (q := { q with done := q.done ++ es, rest := .call o' k' })
          ⟨hstored.file, hstored.server⟩
          (List.getElem?_set_self hlt) (hcarries.append_silent hes) rfl
          (Prog.leads_nil.mpr ho') (fun _ => .inl rfl) hanswer (hdone ▸ hstep)
          (by rw [hdone', hdone, List.append_nil]; rfl) hrest' hcopied hends hlater
        refine ⟨g', q', hfails.trans hgoes, ?_, hkind', hafter'⟩
        rw [hthreads, List.set_set]
      · cases hrest.symm.trans hcall
        refine goesOn_during hstored hq hcarries hqrest hleads hload hanswer (hdone ▸ hstep) ?_
          hrest' hcopied hends hlater
        rw [hdone', hdone, List.append_assoc]

end Calls

end Steps

end Daemon
end WakeMyPc
