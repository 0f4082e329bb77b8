import WakeMyPc.Daemon.WindowsOperations

/-!
# The start of a server on Windows

A start reads the keystore file once, writes no file, and ends with serving or with the end of
its process.

Main results:

- Theorem `startRight_of_step`: every start goes on until it serves or ends its process.
- Theorem `oneStart_of_step`: at most one server is starting, and none serves then.
-/

namespace WakeMyPc
namespace Daemon

open Foundations
open Foundations.Prog (safe_bind)
open Protocol (SpkiHash)

/-! ## The calls of a start -/

/-- A start reads the keystore file once, and writes no file. -/
def StartFits (h : List WinEvent) : WinOp → Prop
  | .readKeystore => ∀ cipher, ⟨.readKeystore, Except.ok cipher⟩ ∉ h
  | .file _ => False
  | _ => True

theorem startFits_of_isInner {h : List WinEvent} {o : WinOp} (ho : o.isInner = true) :
    StartFits h o := by
  cases o <;> trivial

theorem Inner.startFits {α : Type} {p : WinTask α} (hp : Inner p) (h : List WinEvent) :
    p.Safe StartFits h fun _ _ => True :=
  Prog.Uses.safe hp (fun _ _ => startFits_of_isInner) h

theorem startUp_startFits :
    (startUp.interpret startOnWindows).Safe StartFits [] fun _ _ => True := by
  refine ⟨trivial, fun (dir : Except KeystoreError Unit) => ?_⟩
  cases dir with
  | error e => trivial
  | ok _ =>
      have hload : Windows.load.Safe StartFits
          [⟨.daemon .ensureDataDir, Except.ok ()⟩] fun _ _ => True := by
        refine ⟨?_, fun (read : Except ReadError Bytes) => ?_⟩
        · intro cipher hread
          cases List.mem_singleton.mp hread
        · cases read with
          | error e => cases e <;> trivial
          | ok cipher => exact Inner.startFits (Windows.loadCipher_inner cipher) _
      refine (safe_bind Windows.load _ _ _).mpr (hload.mono fun h result _ => ?_)
      cases result with
      | error e => trivial
      | ok found =>
          cases found with
          | none => trivial
          | some contents =>
              refine ⟨trivial, fun (identity : Except Crypto.Error Unit) => ?_⟩
              cases identity with
              | error e => trivial
              | ok _ =>
                  refine (safe_bind Windows.prepare _ _ _).mpr
                    ((Inner.startFits Windows.prepare_inner _).mono fun _ _ _ => ?_)
                  trivial

theorem startServer_startFits : startServer.Safe StartFits [] fun _ _ => True := by
  refine (safe_bind _ _ _ _).mpr (startUp_startFits.mono fun h result _ => ?_)
  cases result <;> exact ⟨trivial, fun _ => trivial⟩

theorem startUp_unending : Unending (startUp.interpret startOnWindows) := by
  refine ⟨rfl, fun (dir : Except KeystoreError Unit) => ?_⟩
  cases dir with
  | error e => trivial
  | ok _ =>
      refine (onWindows_unending .load).bind
        fun (loaded : Except KeystoreError (Option KeystoreContents)) => ?_
      cases loaded with
      | error e => trivial
      | ok found =>
          cases found with
          | none => trivial
          | some contents =>
              refine ⟨rfl, fun (identity : Except Crypto.Error Unit) => ?_⟩
              cases identity with
              | error e => trivial
              | ok _ => exact prepare_unending.bind fun _ => trivial

/-- A start ends with serving, or with the end of its process. -/
theorem startServer_endsLoud : startServer.EndsLoud fun o => o.goesOn = true := by
  refine startUp_unending.endsLoud_bind fun result => ?_
  cases result <;> exact .inr ⟨nofun, fun r => ⟨r, rfl⟩⟩

/-! ## Threads -/

section Runs

variable {extractSpkiHash : Bytes → Except Crypto.Error SpkiHash} {opens : Bytes → Option Bytes}

/-- A start goes on until it serves or ends its process, and reads the file once. -/
structure StartRight (t : WinThread) : Prop where
  fits : t.Keeps StartFits
  loud : t.rest = .stall ∨ (∃ a, t.rest = .ret a) ∨ t.rest.EndsLoud fun o => o.goesOn = true
  once : ∀ cipher cipher', ⟨.readKeystore, Except.ok cipher⟩ ∈ t.done →
    ⟨.readKeystore, Except.ok cipher'⟩ ∈ t.done → cipher = cipher'

/-- A thread is a start that goes right, or never ends one. -/
structure JobRight (t : WinThread) : Prop where
  start : t.kind.job = .startServer → StartRight t
  other : t.kind.job ≠ .startServer → t.Keeps fun _ o => o.goesOn = true

theorem StartRight.perform {t t' : WinThread} (ht : StartRight t)
    {answer : (o : WinOp) → Option (WinAns o × WinWorld)} {e : WinEvent} {w : WinWorld}
    (hperform : t.perform answer = some (e, t', w)) : StartRight t' := by
  have hnext := ht.fits.next (Thread.next_of_perform hperform)
  have hfits := ht.fits.perform hperform
  obtain ⟨k, hrest, -, rfl⟩ := Thread.perform_eq_some hperform
  refine ⟨hfits, ?_, ?_⟩
  · have hloud := ht.loud
    rw [hrest] at hloud
    rcases hloud with hstall | ⟨a, ha⟩ | hquiet | hlast
    · cases hstall
    · cases ha
    · exact .inr (.inr (hquiet.2 e.ans))
    · exact .inr (.inl (hlast.2 e.ans))
  · intro cipher cipher' hread hread'
    rcases List.mem_append.mp hread with hold | hnew <;>
      rcases List.mem_append.mp hread' with hold' | hnew'
    · exact ht.once cipher cipher' hold hold'
    · obtain rfl := List.mem_singleton.mp hnew'
      exact absurd hold (hnext cipher)
    · obtain rfl := List.mem_singleton.mp hnew
      exact absurd hold' (hnext cipher')
    · obtain rfl := List.mem_singleton.mp hnew
      cases List.mem_singleton.mp hnew'
      rfl

theorem jobRight_of_step {h h' : WinHost} {a : WinAction} (hall : ∀ t ∈ h.threads, JobRight t)
    (hstep : h.step extractSpkiHash opens a = some h') : ∀ t ∈ h'.threads, JobRight t := by
  refine WinHost.threads_of_step ?_ ?_ ?_ hall hstep
  · rintro ⟨process, job⟩
    cases job with
    | startServer =>
        exact ⟨fun _ => ⟨startServer_startFits, .inr (.inr startServer_endsLoud),
          fun _ _ hread => absurd hread List.not_mem_nil⟩, fun hjob => absurd rfl hjob⟩
    | thread k =>
        refine ⟨fun hjob => (by cases hjob), fun _ => ?_⟩
        exact Prog.safe_interpret (I := fun _ => True)
          (fun o h _ => (onWindows_unending o).safe (fun _ _ ho => ho) h) _ trivial
  · intro t t' answer w w' e ht hperform heffect
    have hkind := Thread.kind_of_perform hperform
    refine ⟨fun hjob => (ht.start (hkind ▸ hjob)).perform hperform, fun hjob => ?_⟩
    exact (ht.other (hkind ▸ hjob)).perform hperform
  · intro t ht
    unfold endServerThread
    split
    · exact ⟨fun hjob => ⟨trivial, .inl rfl, (ht.start hjob).once⟩, fun _ => trivial⟩
    · exact ht

/-! ## At most one server is starting -/

/-- A server is starting. -/
def IsStarting (t : WinThread) : Prop :=
  t.kind.job = .startServer ∧ t.next.isSome = true

/-- At most one server is starting, and none serves then. -/
structure OneStart (h : WinHost) : Prop where
  idle : h.world.process = none → h.world.server = none
  alone : ∀ t ∈ h.threads, IsStarting t → h.world.server = none ∧ h.world.process ≠ none
  one : ∀ (i j : ℕ) t u, h.threads[i]? = some t → h.threads[j]? = some u → IsStarting t →
    IsStarting u → i = j

/-- No other thread is starting. -/
theorem OneStart.eq_of_mem {h : WinHost} (hone : OneStart h) {i : ℕ} {t u : WinThread}
    (ht : h.threads[i]? = some t) (hstart : IsStarting t) (hu : u ∈ h.threads)
    (hstart' : IsStarting u) : u = t := by
  obtain ⟨j, hj⟩ := List.getElem?_of_mem hu
  obtain rfl := hone.one j i u t hj ht hstart' hstart
  exact Option.some.inj (hj.symm.trans ht)

/-- After a call of the thread that is starting, no other one is. -/
theorem OneStart.eq_of_mem_set {h : WinHost} (hone : OneStart h) {i : ℕ} {t t' u : WinThread}
    (ht : h.threads[i]? = some t) (hstart : IsStarting t) (hu : u ∈ h.threads.set i t')
    (hstart' : IsStarting u) : u = t' := by
  obtain ⟨j, hj⟩ := List.getElem?_of_mem hu
  rcases getElem?_set_cases hj with ⟨-, rfl⟩ | ⟨hne, hj⟩
  · rfl
  · exact absurd (hone.one j i u t hj ht hstart' hstart) hne

/-- A server that is stopped is not starting. -/
theorem not_isStarting_end (t : WinThread) : ¬ IsStarting (endServerThread t) := by
  rintro ⟨hjob, hnext⟩
  rw [endServerThread_kind] at hjob
  have hserver : t.kind.isServer = true := by
    unfold WinKind.isServer
    rw [hjob]
  simp only [endServerThread, hserver, if_true, Thread.next] at hnext
  cases hnext

/-- A call that ends no start leaves the process of the server, and whether it serves. -/
theorem goesOn_of_effect {kind : WinKind} {w w' : WinWorld} {e : WinEvent}
    (heffect : WinEffect extractSpkiHash opens kind w e w') (hgoes : e.op.goesOn = true) :
    w'.process = w.process ∧ (w'.server = none ↔ w.server = none) ∧
      (kind.job = .startServer → w'.server = w.server) := by
  cases heffect with
  | served contents => cases hgoes
  | exited => cases hgoes
  | daemon hjob heffect =>
      refine ⟨rfl, ?_, fun hstart => by cases hjob.symm.trans hstart⟩
      cases heffect <;> simp_all
  | _ => exact ⟨rfl, Iff.rfl, fun _ => rfl⟩

/-- What a thread that performs a call is, and stays. -/
theorem goesOn_or_ends {t t' : WinThread} (ht : JobRight t)
    {answer : (o : WinOp) → Option (WinAns o × WinWorld)} {e : WinEvent} {w : WinWorld}
    (hperform : t.perform answer = some (e, t', w)) :
    (e.op.goesOn = true ∧ (IsStarting t' ↔ IsStarting t)) ∨
      (e.op.goesOn = false ∧ IsStarting t ∧ ¬ IsStarting t') := by
  have hnext := Thread.next_of_perform hperform
  obtain ⟨k, hrest, -, rfl⟩ := Thread.perform_eq_some hperform
  by_cases hjob : t.kind.job = .startServer
  · have hloud := (ht.start hjob).loud
    rw [hrest] at hloud
    rcases hloud with hstall | ⟨a, ha⟩ | hquiet | hlast
    · cases hstall
    · cases ha
    · obtain ⟨o', k', hgoes⟩ := (hquiet.2 e.ans).goesOn
      refine .inl ⟨hquiet.1, fun _ => ⟨hjob, by rw [hnext]; rfl⟩, fun _ => ⟨hjob, ?_⟩⟩
      simp only [Thread.next, hgoes, Option.isSome_some]
    · obtain ⟨a, hret⟩ := hlast.2 e.ans
      refine .inr ⟨by simpa using hlast.1, ⟨hjob, by rw [hnext]; rfl⟩, fun hstart => ?_⟩
      have hsome := hstart.2
      simp only [Thread.next, hret] at hsome
      cases hsome
  · exact .inl ⟨(ht.other hjob).next hnext, fun hstart => absurd hstart.1 hjob,
      fun hstart => absurd hstart.1 hjob⟩

theorem oneStart_of_step {h h' : WinHost} {a : WinAction} (hall : ∀ t ∈ h.threads, JobRight t)
    (hone : OneStart h) (hstep : h.step extractSpkiHash opens a = some h') : OneStart h' := by
  -- a thread that is no start changes nothing
  have hspawn : ∀ (process : ℕ) (k : Kind) (n : ℕ), OneStart
      { h.spawn extractSpkiHash ⟨process, .thread k⟩ with processes := n } := by
    intro process k n
    have hnot : ¬ IsStarting (WinKind.start extractSpkiHash ⟨process, .thread k⟩) := by
      rintro ⟨hjob, -⟩
      cases hjob
    refine ⟨hone.idle, fun t ht hstart => ?_, fun i j t u hi hj ht hu => ?_⟩
    · rcases List.mem_append.mp ht with hold | hnew
      · exact hone.alone t hold hstart
      · obtain rfl := List.mem_singleton.mp hnew
        exact absurd hstart hnot
    · rcases getElem?_concat_cases hi with hi | ⟨-, rfl⟩
      · rcases getElem?_concat_cases hj with hj | ⟨-, rfl⟩
        · exact hone.one i j t u hi hj ht hu
        · exact absurd hu hnot
      · exact absurd ht hnot
  cases WinHost.stepped_of_step hstep with
  | boot hprocess =>
      have hnone : ∀ t ∈ h.threads, ¬ IsStarting t :=
        fun t ht hstart => (hone.alone t ht hstart).2 hprocess
      refine ⟨nofun, fun t ht hstart => ⟨hone.idle hprocess, nofun⟩, fun i j t u hi hj ht hu => ?_⟩
      rcases getElem?_concat_cases hi with hi | ⟨rfl, -⟩
      · exact absurd ht (hnone t (List.mem_of_getElem? hi))
      · rcases getElem?_concat_cases hj with hj | ⟨rfl, -⟩
        · exact absurd hu (hnone u (List.mem_of_getElem? hj))
        · rfl
  | stop =>
      have hnone : ∀ t ∈ h.threads.map endServerThread, ¬ IsStarting t := by
        intro t ht
        obtain ⟨t₀, -, rfl⟩ := List.mem_map.mp ht
        exact not_isStarting_end t₀
      exact ⟨fun _ => rfl, fun t ht hstart => absurd hstart (hnone t ht),
        fun i j t u hi _ ht _ => absurd ht (hnone t (List.mem_of_getElem? hi))⟩
  | accept hprocess hserver certs peerAddr rounds reads => exact hspawn _ _ _
  | launch command => exact hspawn _ _ _
  | @perform i outside filled t t' e w ht hthread heffect hfree =>
      have hmem := List.mem_of_getElem? ht
      rcases goesOn_or_ends (hall t hmem) hthread with ⟨hgoes, hsame⟩ | ⟨hends, hstart, hended⟩
      · obtain ⟨hprocess, hserver, -⟩ := goesOn_of_effect heffect hgoes
        have halone : ∀ u, IsStarting u → u ∈ h.threads →
            w.server = none ∧ w.process ≠ none := fun u hu hmem =>
          ⟨hserver.mpr (hone.alone u hmem hu).1, hprocess ▸ (hone.alone u hmem hu).2⟩
        refine ⟨fun hnone => hserver.mpr (hone.idle (hprocess ▸ hnone)), fun u hu hu' => ?_,
          fun j j' u u' hj hj' hu hu' => ?_⟩
        · rcases List.mem_or_eq_of_mem_set hu with hold | rfl
          · exact halone u hu' hold
          · exact halone t (hsame.mp hu') hmem
        · have hbefore : ∀ (j : ℕ) u, (h.threads.set i t')[j]? = some u → IsStarting u →
              ∃ u₀, h.threads[j]? = some u₀ ∧ IsStarting u₀ := by
            intro j u hj hu
            rcases getElem?_set_cases hj with ⟨rfl, rfl⟩ | ⟨-, hold⟩
            · exact ⟨t, ht, hsame.mp hu⟩
            · exact ⟨u, hold, hu⟩
          obtain ⟨u₀, hu₀, hstart₀⟩ := hbefore j u hj hu
          obtain ⟨u₁, hu₁, hstart₁⟩ := hbefore j' u' hj' hu'
          exact hone.one j j' u₀ u₁ hu₀ hu₁ hstart₀ hstart₁
      · -- the only start has ended
        have hnone : ∀ u ∈ h.threads.set i t', ¬ IsStarting u := fun u hu hu' =>
          hended (hone.eq_of_mem_set ht hstart hu hu' ▸ hu')
        refine ⟨fun hprocess => ?_, fun u hu hstart' => absurd hstart' (hnone u hu),
          fun j j' u u' hj hj' hu hu' => absurd hu (hnone u (List.mem_of_getElem? hj))⟩
        obtain ⟨hserver, hrunning⟩ := hone.alone t hmem hstart
        cases heffect with
        | exited => exact hserver
        | served contents => exact absurd hprocess hrunning
        | other hother => exact hserver
        | _ => cases hends

end Runs

end Daemon
end WakeMyPc
