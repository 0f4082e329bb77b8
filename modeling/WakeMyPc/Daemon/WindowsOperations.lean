import WakeMyPc.Daemon.WindowsLoads
import WakeMyPc.Foundations.Promises

/-!
# The operations as calls

Each operation of the daemon on Windows takes effect with its last call, except that a load that
succeeds gives what was in the file at its first one.

Main results:

- Theorem `onWindows_commits`: all calls of an operation but the last one are quiet.
- Theorems `answers_of_ret` and `load_answers`: an operation that is finished is one of the host
  without calls.
-/

namespace WakeMyPc
namespace Daemon

open Foundations
open Foundations.Prog (safe_bind)
open Protocol (SpkiHash)

/-! ## Quiet calls -/

/-- The call changes neither the keystore file nor the server. -/
def WinOp.isQuiet : WinOp → Bool
  | .readKeystore => true
  | .file (.create _) => true
  | .file (.write _ _) => true
  | o => o.isInner

theorem WinOp.isQuiet_of_isInner {o : WinOp} (h : o.isInner = true) : o.isQuiet = true := by
  cases o <;> first | rfl | cases h

namespace Windows

/-- What a load does once it has read the file. -/
def loadCipher (cipher : Bytes) : WinTask (Except KeystoreError (Option KeystoreContents)) := do
  match ← decrypt cipher with
  | .error detail => return .error (.encryption detail)
  | .ok plain => return (loadPlaintext plain).map some

theorem loadCipher_inner (cipher : Bytes) : Inner (loadCipher cipher) := by
  refine (decrypt_inner cipher).bind fun result => ?_
  cases result <;> trivial

theorem load_quiet : load.Uses fun o => o.isQuiet = true := by
  refine ⟨rfl, fun (read : Except ReadError Bytes) => ?_⟩
  cases read with
  | error e => cases e <;> trivial
  | ok cipher => exact Prog.Uses.mono (loadCipher_inner cipher) fun _ => WinOp.isQuiet_of_isInner

/-- A save takes effect when it renames its file. -/
theorem replaceKeystore_commits (cipher : Bytes) :
    (replaceKeystore cipher).Commits fun c => c.isQuiet = true := by
  rw [replaceKeystore_eq]
  refine .inl ⟨rfl, fun (pid : UInt32) => .inl ⟨rfl, fun (opened : Except IoError ℕ) => ?_⟩⟩
  cases opened with
  | error e => trivial
  | ok file =>
      refine .inl ⟨rfl, fun (written : Except IoError Unit) => ?_⟩
      cases written with
      | error e => trivial
      | ok _ =>
          refine .inr fun (renamed : Except IoError Unit) => ?_
          cases renamed <;> exact ⟨_, rfl⟩

end Windows

theorem handler_inner {o : Op} (ho : o.isHandler = true) : Inner (onWindows o) := by
  cases o with
  | sleep => exact ⟨rfl, fun ok => Windows.oneCall_inner ok _⟩
  | lock => exact ⟨rfl, fun ok => Windows.oneCall_inner ok _⟩
  | powerOff => exact Windows.powerOff_inner
  | currentSessionState => exact Windows.currentSessionState_inner
  | _ => cases ho

/-- All calls of an operation but the last one are quiet. -/
theorem onWindows_commits (o : Op) : (onWindows o).Commits fun c => c.isQuiet = true := by
  have hinner : ∀ {α : Type} {p : WinTask α}, Inner p → p.Uses fun c => c.isQuiet = true :=
    fun hp => Prog.Uses.mono hp fun _ => WinOp.isQuiet_of_isInner
  cases hhandler : o.isHandler with
  | true => exact (hinner (handler_inner hhandler)).commits
  | false =>
      cases o with
      | load => exact Windows.load_quiet.commits
      | saveFile contents =>
          refine (hinner (Windows.encrypt_inner _)).commits_bind fun result => ?_
          cases result with
          | error detail => trivial
          | ok cipher => exact Windows.replaceKeystore_commits cipher
      | sleep => cases hhandler
      | lock => cases hhandler
      | powerOff => cases hhandler
      | currentSessionState => cases hhandler
      | _ => exact .inr fun r => ⟨r, rfl⟩

/-- Only a save can be finished without a call, and it has failed then. -/
theorem saveFailed_of_ret {o : Op} {a : Ans o} (h : onWindows o = .ret a) :
    ∃ contents error, (⟨o, a⟩ : TaskEvent) = ⟨.saveFile contents, Except.error error⟩ := by
  cases o with
  | saveFile contents =>
      change Windows.save contents = _ at h
      unfold Windows.save Windows.encrypt at h
      split at h
      · cases h
        exact ⟨contents, _, rfl⟩
      · cases h
  | _ => cases h

/-! ## Saves -/

/-- Putting bytes in the keystore file fails without changing it, or ends with a rename. -/
theorem Windows.replaceKeystore_trace {cipher : Bytes} {events : List WinEvent}
    {a : Except KeystoreError Unit} (htrace : (replaceKeystore cipher).Trace events a) :
    ((∀ e ∈ events, e.op.isQuiet = true) ∧ ∃ error, a = .error error) ∨
      ∃ pid file renamed, events = [⟨.processId, pid⟩,
          ⟨.file (.create (.tmp pid)), Except.ok file⟩,
          ⟨.file (.write file cipher), Except.ok ()⟩,
          ⟨.file (.rename (.tmp pid) .keystore), renamed⟩] ∧
        a = Except.mapError KeystoreError.io renamed := by
  rw [replaceKeystore_eq] at htrace
  obtain ⟨(pid : UInt32), -, rfl, (opened : Except IoError ℕ), rest, rfl, htrace⟩ := htrace
  cases opened with
  | error e =>
      obtain ⟨rfl, rfl⟩ := htrace
      exact .inl ⟨by simp [WinOp.isQuiet, WinOp.isInner], _, rfl⟩
  | ok file =>
      obtain ⟨(written : Except IoError Unit), rest, rfl, htrace⟩ := htrace
      cases written with
      | error e =>
          obtain ⟨rfl, rfl⟩ := htrace
          exact .inl ⟨by simp [WinOp.isQuiet, WinOp.isInner], _, rfl⟩
      | ok _ =>
          obtain ⟨(renamed : Except IoError Unit), rest, rfl, htrace⟩ := htrace
          refine .inr ⟨pid, file, renamed, ?_⟩
          cases renamed <;>
          · obtain ⟨rfl, rfl⟩ := htrace
            exact ⟨rfl, rfl⟩

/-- A save fails without changing the keystore file, or ends with a rename of what was
encrypted. -/
theorem Windows.save_trace {contents : KeystoreContents} {events : List WinEvent}
    {a : Except KeystoreError Unit} (htrace : (save contents).Trace events a) :
    ((∀ e ∈ events, e.op.isQuiet = true) ∧ ∃ error, a = .error error) ∨
      ∃ blob len cipher pid file renamed,
        (u32TryFrom (savePlaintext contents).length).isSome = true ∧
        events = [⟨.cryptProtectData (savePlaintext contents) 5, some (blob, len)⟩,
          ⟨.copyBlob blob len, cipher⟩, ⟨.localFree blob, ()⟩, ⟨.processId, pid⟩,
          ⟨.file (.create (.tmp pid)), Except.ok file⟩,
          ⟨.file (.write file cipher), Except.ok ()⟩] ++
          [⟨.file (.rename (.tmp pid) .keystore), renamed⟩] ∧
        a = Except.mapError KeystoreError.io renamed := by
  obtain ⟨front, back, result, rfl, hencrypt, hback⟩ := (Prog.trace_bind _ _ _ _).mp htrace
  have hquiet : ∀ e ∈ front, e.op.isQuiet = true := fun e he =>
    WinOp.isQuiet_of_isInner ((encrypt_inner _).of_trace hencrypt e he)
  cases result with
  | error detail =>
      obtain ⟨rfl, rfl⟩ := hback
      rw [List.append_nil]
      exact .inl ⟨hquiet, _, rfl⟩
  | ok cipher =>
      rcases replaceKeystore_trace hback with ⟨hquiet', herror⟩ | ⟨pid, file, renamed, rfl, ha⟩
      · exact .inl ⟨fun e he => (List.mem_append.mp he).elim (hquiet e) (hquiet' e), herror⟩
      · have hfits : (encrypt (savePlaintext contents)).Safe (WinFits .startServer fun _ => True) []
            _ := encrypt_fits _ []
        obtain ⟨hsize, blob, len, hfront⟩ := hfits.trace hencrypt cipher rfl
        rw [List.nil_append, List.nil_append] at hfront
        exact .inr ⟨blob, len, cipher, pid, file, renamed, hsize, by rw [hfront]; rfl, ha⟩

section Answers

-- the hash of the public key of a certificate, by the X.509 parser and SHA-256
variable (extractSpkiHash : Bytes → Except Crypto.Error SpkiHash)

-- what the encryption of the operating system makes of a ciphertext of this machine
variable (opens : Bytes → Option Bytes)

/-- In the host without calls, the operation has this answer, and the same effect. -/
def HostAnswers (k : Kind) (w : WinWorld) (server : Option KeystoreContents) (o : Op) (a : Ans o)
    (w' : WinWorld) : Prop :=
  ∃ outside server', k.answer extractSpkiHash outside ⟨w.file.bind (contentsOf opens), server⟩ o =
      some (a, ⟨w'.file.bind (contentsOf opens), server'⟩) ∧
    (∀ c, w'.server = some c → server' = some c) ∧
    (w.server = none → w'.server = none ∧ server' = server)

variable {extractSpkiHash opens}
variable {k : Kind} {w w' : WinWorld} {server : Option KeystoreContents}

/-- Each answer of an operation can come from outside. -/
theorem exists_outside {o : Op} (a : Ans o) : ∃ outside : (o : Op) → Ans o, outside o = a := by
  classical
  exact ⟨Function.update (succeeding pairedContents) o a, Function.update_self o a _⟩

/-- A call into the file system leaves the server. -/
theorem server_of_file {kind : WinKind} {o : FileOp} {r : FileAns o}
    (heffect : WinEffect extractSpkiHash opens kind w ⟨.file o, r⟩ w') :
    w'.server = w.server ∧ w'.process = w.process := by
  cases heffect <;> exact ⟨rfl, rfl⟩

/-- A quiet call changes neither the keystore file nor the server. -/
theorem same_of_quiet {kind : WinKind} {done : List WinEvent} {e : WinEvent}
    (heffect : WinEffect extractSpkiHash opens kind w e w') (hfile : FileStep done w e w')
    (hquiet : e.op.isQuiet = true) :
    w'.file = w.file ∧ w'.server = w.server ∧ w'.process = w.process := by
  refine ⟨?_, ?_⟩
  · cases hfile with
    | same hfile hnot => exact hfile
    | renamed he hdone hfile =>
        subst he
        cases hquiet
  · cases heffect <;> first | exact ⟨rfl, rfl⟩ | cases hquiet

/-- An answer that leaves the world as it is. -/
theorem hostAnswers_same {o : Op} {a : Ans o} (outside : (o : Op) → Ans o)
    (hsame : w'.file = w.file ∧ w'.server = w.server ∧ w'.process = w.process)
    (hserver : ∀ c, w.server = some c → server = some c)
    (hanswer : ∀ world, k.answer extractSpkiHash outside world o = some (a, world)) :
    HostAnswers extractSpkiHash opens k w server o a w' := by
  obtain ⟨hfile, hsame, -⟩ := hsame
  refine ⟨outside, server, ?_, ?_, ?_⟩
  · rw [hfile]
    exact hanswer _
  · rw [hsame]
    exact hserver
  · exact fun hnone => ⟨hsame.trans hnone, rfl⟩

/-- An operation that is not about the file is answered as it is without one. -/
theorem answer_of_server {o : Op} {a : Ans o} {outside : (o : Op) → Ans o}
    {file : Option KeystoreContents} {s : Option KeystoreContents} {after : World}
    (hload : o ≠ .load) (hsave : ∀ contents, o ≠ .saveFile contents)
    (hs : ∀ c, s = some c → server = some c)
    (h : k.answer extractSpkiHash outside ⟨none, s⟩ o = some (a, after)) :
    ∃ server', k.answer extractSpkiHash outside ⟨file, server⟩ o = some (a, ⟨file, server'⟩) ∧
      (∀ c, after.server = some c → server' = some c) ∧
      (s = none → after.server = none ∧ server' = server) := by
  cases o with
  | load => exact absurd rfl hload
  | saveFile contents => exact absurd rfl (hsave contents)
  | snapshot =>
      obtain ⟨c, rfl, heq⟩ := Option.map_eq_some_iff.mp h
      obtain rfl := hs c rfl
      cases heq
      exact ⟨_, rfl, fun _ h => h, nofun⟩
  | write u =>
      obtain ⟨c, rfl, heq⟩ := Option.map_eq_some_iff.mp h
      obtain rfl := hs c rfl
      cases heq
      exact ⟨_, rfl, fun _ h => h, nofun⟩
  | handshake mode =>
      cases k <;> cases h <;> exact ⟨_, rfl, hs, fun hnone => ⟨hnone, rfl⟩⟩
  | peerCertificates =>
      cases k <;> cases h <;> exact ⟨_, rfl, hs, fun hnone => ⟨hnone, rfl⟩⟩
  | _ => cases h; exact ⟨_, rfl, hs, fun hnone => ⟨hnone, rfl⟩⟩

variable {process : ℕ} {outside : (o : WinOp) → WinAns o} {filled : Bytes} {c : WinOp}
  {r : WinAns c} {front es : List WinEvent}

/-- An operation that is not about the platform is one of the host. -/
theorem daemon_answers {o : Op} {a : Ans o} (hload : o ≠ .load)
    (hsave : ∀ contents, o ≠ .saveFile contents)
    (hanswer : (⟨process, .thread k⟩ : WinKind).answer extractSpkiHash opens outside filled w
      (.daemon o) = some (a, w'))
    (hserver : ∀ c, w.server = some c → server = some c) :
    HostAnswers extractSpkiHash opens k w server o a w' := by
  obtain ⟨⟨a', after⟩, hdaemon, heq⟩ := Option.map_eq_some_iff.mp hanswer
  cases heq
  obtain ⟨server', hhost, hafter, hnone⟩ := answer_of_server hload hsave hserver hdaemon
  exact ⟨_, server', hhost, hafter, hnone⟩

/-- A save that is finished with this call is one of the host. -/
theorem save_answers {kind : WinKind} {contents : KeystoreContents}
    {a : Except KeystoreError Unit} (htrace : (Windows.save contents).Trace (es ++ [⟨c, r⟩]) a)
    (heffect : WinEffect extractSpkiHash opens kind w ⟨c, r⟩ w')
    (hfile : FileStep (front ++ es) w ⟨c, r⟩ w')
    (hchain : (front ++ es ++ [(⟨c, r⟩ : WinEvent)]).IsChain (CopiedRight opens))
    (hserver : ∀ c, w.server = some c → server = some c) :
    HostAnswers extractSpkiHash opens k w server (.saveFile contents) a w' := by
  obtain ⟨outside', hout⟩ := exists_outside (o := .saveFile contents) a
  -- a save that fails leaves the file
  have herror : ∀ error, a = .error error →
      (w'.file = w.file ∧ w'.server = w.server ∧ w'.process = w.process) →
      HostAnswers extractSpkiHash opens k w server (.saveFile contents) a w' := by
    rintro error rfl hsame
    refine hostAnswers_same outside' hsame hserver fun world => ?_
    simp only [Kind.answer, hout]
  rcases Windows.save_trace htrace with
    ⟨hquiet, error, ha⟩ | ⟨blob, len, cipher, pid, file, renamed, hsize, heq, rfl⟩
  · exact herror error ha (same_of_quiet heffect hfile (hquiet ⟨c, r⟩ (by simp)))
  · obtain ⟨rfl, hcall⟩ := List.append_inj' heq rfl
    cases hcall
    obtain ⟨hsame, hsame'⟩ := server_of_file heffect
    cases hfile with
    | same hfile hnot =>
        cases renamed with
        | error e => exact herror _ rfl ⟨hfile, hsame, hsame'⟩
        | ok _ => exact absurd rfl (hnot _ _)
    | @renamed source file' cipher' before he hdone hfile =>
        cases he
        have hlast : (⟨.file (.write file cipher), Except.ok ()⟩ : WinEvent) =
            ⟨.file (.write file' cipher'), Except.ok ()⟩ := by
          simpa using congrArg List.getLast? hdone
        cases hlast
        have hopens : opens cipher = some (savePlaintext contents) := by
          simp only [List.append_assoc, List.cons_append, List.nil_append] at hchain
          exact (List.isChain_append_cons_cons.mp hchain).2.1 rfl
        have hcontents : w'.file.bind (contentsOf opens) = some contents.reloaded := by
          rw [hfile]
          exact contentsOf_eq hopens (loaded_of_encrypted hsize)
        refine ⟨outside', server, ?_, ?_, fun hnone => ⟨hsame.trans hnone, rfl⟩⟩
        · simp only [Kind.answer, hout, hcontents]
          rfl
        · rw [hsame]
          exact hserver

/-- An operation other than a load that is finished with this call is one of the host. -/
theorem answers_of_ret {o : Op} {kp : WinAns c → WinTask (Ans o)} {a : Ans o} (hload : o ≠ .load)
    (hleads : (onWindows o).Leads es (.call c kp)) (hret : kp r = .ret a)
    (hanswer : (⟨process, .thread k⟩ : WinKind).answer extractSpkiHash opens outside filled w c =
      some (r, w'))
    (hfile : FileStep (front ++ es) w ⟨c, r⟩ w')
    (hchain : (front ++ es ++ [(⟨c, r⟩ : WinEvent)]).IsChain (CopiedRight opens))
    (hserver : ∀ c, w.server = some c → server = some c) :
    HostAnswers extractSpkiHash opens k w server o a w' := by
  have heffect : WinEffect extractSpkiHash opens ⟨process, .thread k⟩ w ⟨c, r⟩ w' :=
    winEffect_of_answer hanswer
  have htrace : (onWindows o).Trace (es ++ [⟨c, r⟩]) a :=
    Prog.trace_of_leads (hret ▸ hleads.concat r)
  have hlast : (⟨c, r⟩ : WinEvent) ∈ es ++ [⟨c, r⟩] := by simp
  obtain ⟨outside', hout⟩ := exists_outside a
  cases hhandler : o.isHandler with
  | true =>
      have hquiet := WinOp.isQuiet_of_isInner ((handler_inner hhandler).of_trace htrace _ hlast)
      refine hostAnswers_same outside' (same_of_quiet heffect hfile hquiet) hserver ?_
      intro world
      cases o <;> first | exact hout ▸ rfl | cases hhandler
  | false =>
      cases o with
      | load => exact absurd rfl hload
      | sleep => cases hhandler
      | lock => cases hhandler
      | powerOff => cases hhandler
      | currentSessionState => cases hhandler
      | saveFile contents => exact save_answers htrace heffect hfile hchain hserver
      | _ =>
          obtain ⟨r', rest, heq, rfl, rfl⟩ := htrace
          have hcall := (List.append_inj' (heq.trans (List.nil_append _).symm) rfl).2
          cases hcall
          exact daemon_answers hload (fun contents h => by cases h) hanswer hserver

/-- A load that ends with the read of a file has failed. -/
theorem failed_of_trace_nil {cipher : Bytes} {a : Except KeystoreError (Option KeystoreContents)}
    (h : (Windows.loadCipher cipher).Trace [] a) : ∃ e, a = .error e := by
  unfold Windows.loadCipher Windows.decrypt at h
  split at h
  · exact ⟨_, h.2.symm⟩
  · obtain ⟨r, rest, heq, -⟩ := h
    cases heq

/-- A load that has failed, or found no file, is one of the host. -/
theorem load_answers {done : List WinEvent} {kp : WinAns c → WinTask (Ans .load)} {a : Ans .load}
    (hleads : (onWindows .load).Leads es (.call c kp)) (hret : kp r = .ret a)
    (hanswer : (⟨process, .thread k⟩ : WinKind).answer extractSpkiHash opens outside filled w c =
      some (r, w'))
    (hfile : FileStep done w ⟨c, r⟩ w') (hfailed : es = [] ∨ ∃ e, a = Except.error e)
    (hserver : ∀ c, w.server = some c → server = some c) :
    HostAnswers extractSpkiHash opens k w server .load a w' := by
  have heffect : WinEffect extractSpkiHash opens ⟨process, .thread k⟩ w ⟨c, r⟩ w' :=
    winEffect_of_answer hanswer
  have htrace : (onWindows .load).Trace (es ++ [⟨c, r⟩]) a :=
    Prog.trace_of_leads (hret ▸ hleads.concat r)
  have hquiet := Windows.load_quiet.of_trace htrace ⟨c, r⟩ (by simp)
  have hsame := same_of_quiet heffect hfile hquiet
  obtain ⟨outside', hout⟩ := exists_outside a
  have herror : ∀ e, a = Except.error e →
      HostAnswers extractSpkiHash opens k w server .load a w' := by
    rintro e rfl
    refine hostAnswers_same outside' hsame hserver ?_
    intro world
    simp only [Kind.answer, hout]
  rcases hfailed with rfl | ⟨e, he⟩
  · -- the load has made one call
    obtain ⟨read, rest, heq, hrest⟩ := htrace
    obtain ⟨hcall, rfl⟩ := List.cons.inj heq
    cases hcall
    cases read with
    | error e =>
        cases e with
        | notFound =>
            obtain ⟨-, rfl⟩ := hrest
            cases heffect with
            | notFound hempty =>
                refine ⟨outside', server, ?_, hserver, fun hnone => ⟨hnone, rfl⟩⟩
                simp only [Kind.answer, hout, hempty]
                rfl
            | other hother => cases hother
        | other e =>
            obtain ⟨-, rfl⟩ := hrest
            exact herror _ rfl
    | ok cipher =>
        obtain ⟨e, rfl⟩ := failed_of_trace_nil hrest
        exact herror e rfl
  · exact herror e he

end Answers

end Daemon
end WakeMyPc
