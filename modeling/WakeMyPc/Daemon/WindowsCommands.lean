import WakeMyPc.Daemon.ActivePhones
import WakeMyPc.Daemon.WindowsRuns

/-!
# Who commands a Windows PC

The calls that suspend the PC, lock it or turn it off are made only for a paired phone that
asked for just that, and the PC is turned off only after the server of that process has
enabled the shutdown privilege.

Main results:

- Theorem `readyKeeps_of_steps`: what the cell of the shutdown privilege says is true.
- Theorem `calls_authorized`: all calls of all runs that change what the PC does are
  authorized.
-/

namespace WakeMyPc
namespace Daemon

open Foundations
open Protocol (SpkiHash wireBytes)

section Runs

variable {extractSpkiHash : Bytes → Except Crypto.Error SpkiHash} {opens : Bytes → Option Bytes}

/-! ## The shutdown privilege -/

/-- The cell of a process says that the privilege is enabled only after the start of a server
of that process enabled it, and what was read of the cell is still so. -/
structure ReadyKeeps (h : WinHost) : Prop where
  enabled : ∀ process, h.world.ready process = some true →
    ∃ t ∈ h.threads, t.kind = ⟨process, .startServer⟩ ∧ Enabled t.done
  asked : ∀ t ∈ h.threads, ⟨.readyGet, some true⟩ ∈ t.done →
    h.world.ready t.kind.process = some true

/-- A cell that is set stays as it is. -/
theorem ready_of_effect {kind : WinKind} {w w' : WinWorld} {e : WinEvent}
    (heffect : WinEffect extractSpkiHash opens kind w e w') {process : ℕ}
    (hready : w.ready process = some true) : w'.ready process = some true := by
  cases heffect with
  | readySet ready =>
      change (if _ then _ else _) = _
      rw [hready]
      split <;> rfl
  | _ => exact hready

/-- A cell is set by the start of a server. -/
theorem readySet_of_effect {kind : WinKind} {w w' : WinWorld} {e : WinEvent}
    (heffect : WinEffect extractSpkiHash opens kind w e w') {process : ℕ}
    (hready : w'.ready process = some true) :
    w.ready process = some true ∨ process = kind.process ∧ ∃ ready, e.op = .readySet ready := by
  cases heffect with
  | readySet ready =>
      change (if _ then _ else _) = _ at hready
      split at hready
      · next heq => exact .inr ⟨heq, ready, rfl⟩
      · exact .inl hready
  | _ => exact .inl hready

theorem readyKeeps_of_step {h h' : WinHost} {a : WinAction}
    (hfits : ∀ t ∈ h.threads, t.Keeps (WinFits t.kind.job fun _ => True)) (hkeeps : ReadyKeeps h)
    (hstep : h.step extractSpkiHash opens a = some h') : ReadyKeeps h' := by
  have hold : ∀ process, h.world.ready process = some true →
      ∃ t ∈ h'.threads, t.kind = ⟨process, .startServer⟩ ∧ Enabled t.done := by
    intro process hready
    obtain ⟨t, ht, hkind, henabled⟩ := hkeeps.enabled process hready
    obtain ⟨t', ht', hkind', events, hdone⟩ := threads_persist hstep ht
    exact ⟨t', ht', hkind'.trans hkind, hdone ▸ henabled.append events⟩
  have hspawn : ∀ kind : WinKind, ∀ t ∈ h.threads ++ [kind.start extractSpkiHash],
      ⟨.readyGet, some true⟩ ∈ t.done → h.world.ready t.kind.process = some true := by
    intro kind t ht hasked
    rcases List.mem_append.mp ht with hmem | hnew
    · exact hkeeps.asked t hmem hasked
    · obtain rfl := List.mem_singleton.mp hnew
      exact absurd hasked List.not_mem_nil
  cases WinHost.stepped_of_step hstep with
  | boot hprocess => exact ⟨hold, hspawn _⟩
  | stop =>
      refine ⟨hold, fun t ht hasked => ?_⟩
      obtain ⟨t₀, ht₀, rfl⟩ := List.mem_map.mp ht
      rw [endServerThread_done] at hasked
      rw [endServerThread_kind]
      exact hkeeps.asked t₀ ht₀ hasked
  | accept hprocess hserver certs peerAddr rounds reads => exact ⟨hold, hspawn _⟩
  | launch command => exact ⟨hold, hspawn _⟩
  | @perform i outside filled t t' e w ht hthread heffect hfree =>
      obtain ⟨k, -, -, hafter⟩ := Thread.perform_eq_some hthread
      have hkind : t'.kind = t.kind := by rw [hafter]
      have hdone : t'.done = t.done ++ [e] := by rw [hafter]
      have hmem := List.mem_of_getElem? ht
      refine ⟨fun process hready => ?_, fun u hu hasked => ?_⟩
      · rcases readySet_of_effect heffect hready with hbefore | ⟨rfl, ready, hop⟩
        · exact hold process hbefore
        · have hset := (hfits t hmem).next (Thread.next_of_perform hthread)
          rw [hop] at hset
          have hjob : t.kind = ⟨t.kind.process, .startServer⟩ := by
            rw [← hset.1]
          exact ⟨t', List.mem_set (List.getElem?_eq_some_iff.mp ht).1 t', hkind.trans hjob,
            hdone ▸ hset.2.append [e]⟩
      · rcases List.mem_or_eq_of_mem_set hu with hu | rfl
        · exact ready_of_effect heffect (hkeeps.asked u hu hasked)
        · rw [hkind]
          rw [hdone] at hasked
          rcases List.mem_append.mp hasked with hasked | hnow
          · exact ready_of_effect heffect (hkeeps.asked t hmem hasked)
          · obtain rfl := List.mem_singleton.mp hnow
            generalize hanswer : (some true : WinAns .readyGet) = answer at heffect
            cases heffect with
            | readyGet => rfl
            | other hother => cases hother

/-- What the cells say is true in every run, and all calls fit their histories. -/
theorem readyKeeps_of_steps {files : Files FileName} {h : WinHost} {actions : List WinAction}
    (hsteps : takeSteps (WinHost.step extractSpkiHash opens) (WinHost.initial files) actions =
      some h) :
    (∀ t ∈ h.threads, t.Keeps (WinFits t.kind.job fun _ => True)) ∧ ReadyKeeps h := by
  refine takeSteps_invariant
    (fun h : WinHost => (∀ t ∈ h.threads, t.Keeps (WinFits t.kind.job fun _ => True)) ∧
      ReadyKeeps h)
    (fun h a h' hall hstep => ⟨fits_of_step hall.1 hstep,
      readyKeeps_of_step hall.1 hall.2 hstep⟩) ⟨?_, ?_, ?_⟩ hsteps <;> simp [WinHost.initial]

/-! ## Commands -/

/-- The operation that a call carries out, when the call changes what the PC does. -/
def WinOp.commands : WinOp → Option Op
  | .setSuspendState _ _ _ => some .sleep
  | .lockWorkStation => some .lock
  | .exitWindowsEx _ _ => some .powerOff
  | _ => none

/-- A call that carries out an operation fits only where that is served. -/
theorem serving_of_fits {job : WinJob} {serving : Op → Prop} {h : List WinEvent} {o : WinOp}
    (hfits : WinFits job serving h o) {command : Op} (hcommand : o.commands = some command) :
    serving command := by
  cases o with
  | setSuspendState _ _ _ => exact Option.some.inj hcommand ▸ hfits
  | lockWorkStation => exact Option.some.inj hcommand ▸ hfits
  | exitWindowsEx _ _ => exact Option.some.inj hcommand ▸ hfits.1
  | _ => cases hcommand

theorem isCommand_of_commands {o : WinOp} {command : Op} (hcommand : o.commands = some command) :
    command.isCommand = true := by
  cases o with
  | setSuspendState _ _ _ => exact Option.some.inj hcommand ▸ rfl
  | lockWorkStation => exact Option.some.inj hcommand ▸ rfl
  | exitWindowsEx _ _ => exact Option.some.inj hcommand ▸ rfl
  | _ => cases hcommand

/-- Before the PC is turned off, the cell said that the privilege is enabled. -/
theorem asked_of_fits {job : WinJob} {serving : Op → Prop} {h : List WinEvent} {o : WinOp}
    (hfits : WinFits job serving h o) (hcommand : o.commands = some .powerOff) :
    ⟨.readyGet, some true⟩ ∈ h := by
  cases o with
  | exitWindowsEx flags reason =>
      obtain ⟨-, front, rfl⟩ := hfits
      exact List.mem_append_right _ List.mem_cons_self
  | _ => cases hcommand

/-- Every thread of a run has performed part of its program. -/
theorem winFollows_of_steps {files : Files FileName} {h : WinHost} {actions : List WinAction}
    (hsteps : takeSteps (WinHost.step extractSpkiHash opens) (WinHost.initial files) actions =
      some h) :
    ∀ t ∈ h.threads, t.Follows (t.kind.program extractSpkiHash) := by
  refine WinHost.threads_of_steps (T := fun t => t.Follows (t.kind.program extractSpkiHash))
    ?_ ?_ ?_ hsteps
  · intro kind
    exact ⟨Prog.performs_nil _, .inr (Prog.leads_nil.mpr rfl)⟩
  · intro t t' answer w w' e ht hperform _
    rw [Thread.kind_of_perform hperform]
    exact ht.perform hperform
  · intro t ht
    unfold endServerThread
    split
    · exact ⟨ht.1, .inl rfl⟩
    · exact ht

/-- The answers that a connection got about its peer are true of the certificates. -/
theorem winFromPeer_of_steps {files : Files FileName} {h : WinHost} {actions : List WinAction}
    (hsteps : takeSteps (WinHost.step extractSpkiHash opens) (WinHost.initial files) actions =
      some h) :
    ∀ t ∈ h.threads, ∀ certs, t.kind.certs = some certs → ∀ o r, ⟨.daemon o, r⟩ ∈ t.done →
      FromPeer extractSpkiHash certs ⟨o, r⟩ := by
  refine WinHost.threads_of_steps (T := fun t => ∀ certs, t.kind.certs = some certs →
    ∀ o r, ⟨.daemon o, r⟩ ∈ t.done → FromPeer extractSpkiHash certs ⟨o, r⟩) ?_ ?_ ?_ hsteps
  · intro kind certs _ o r hr
    exact absurd hr List.not_mem_nil
  · intro t t' answer w w' e ht hperform heffect certs hcerts o r hr
    obtain ⟨k, -, -, hafter⟩ := Thread.perform_eq_some hperform
    rw [hafter] at hcerts hr
    rcases List.mem_append.mp hr with hold | hnew
    · exact ht certs hcerts o r hold
    · obtain rfl := List.mem_singleton.mp hnew
      cases heffect with
      | starting hjob o r => simp [WinKind.certs, hjob] at hcerts
      | daemon hjob heffect =>
          cases heffect with
          | other hother hpeer => exact hpeer certs (by simpa [WinKind.certs, hjob] using hcerts)
          | _ => trivial
      | other hother => cases hother
  · intro t ht certs hcerts o r hr
    rw [endServerThread_kind] at hcerts
    rw [endServerThread_done] at hr
    exact ht certs hcerts o r hr

/-- What a connection has carried out agrees with the certificates of its peer. -/
theorem fromPeer_of_carries {certs : List Bytes} {es : List TaskEvent} {tr : List WinEvent}
    (hcarries : Prog.Carries onWindows es tr)
    (hpeer : ∀ o r, ⟨.daemon o, r⟩ ∈ tr → FromPeer extractSpkiHash certs ⟨o, r⟩) :
    ∀ x ∈ es, FromPeer extractSpkiHash certs x := by
  intro x hx
  obtain ⟨events, htrace, hmem⟩ := hcarries.events hx
  obtain ⟨o, r⟩ := x
  cases o with
  | handshake mode =>
      obtain ⟨r', rest, rfl, -, hr⟩ := htrace
      have hsame : r' = r := hr
      exact hsame ▸ hpeer _ _ (hmem _ List.mem_cons_self)
  | peerCertificates =>
      obtain ⟨r', rest, rfl, -, hr⟩ := htrace
      have hsame : r' = r := hr
      exact hsame ▸ hpeer _ _ (hmem _ List.mem_cons_self)
  | _ => trivial

/-- In every run, a call that suspends the PC, locks it or turns it off is made by a
connection whose peer was paired at both checks, for the message of that command, in the open
re-auth window; and the PC is turned off only after the start of the server of that process
has enabled the shutdown privilege. -/
theorem calls_authorized {files : Files FileName} {h h' : WinHost} {actions : List WinAction}
    (hsteps : takeSteps (WinHost.step extractSpkiHash opens) (WinHost.initial files) actions =
      some h)
    {i : ℕ} {outside : (o : WinOp) → WinAns o} {filled : Bytes} {e : WinEvent}
    (hperform : h.perform extractSpkiHash opens i outside filled = some (e, h'))
    {command : Op} (hcommand : e.op.commands = some command) :
    ∃ t certs es front back, h.threads[i]? = some t ∧ t.kind.certs = some certs ∧
      t.done = front ++ back ∧ Prog.Carries onWindows es front ∧
      AdmittedPeer extractSpkiHash certs es ∧ Commanded es command ∧
      (command = .powerOff →
        ∃ u ∈ h.threads, u.kind = ⟨t.kind.process, .startServer⟩ ∧ Enabled u.done) := by
  obtain ⟨t, t', w, ht, hthread, -, -⟩ := WinHost.thread_of_perform hperform
  have hmem := List.mem_of_getElem? ht
  obtain ⟨k, hrest, -, -⟩ := Thread.perform_eq_some hthread
  have hprivileged : command.isCommand = true ∧ (command = .powerOff →
      ∃ u ∈ h.threads, u.kind = ⟨t.kind.process, .startServer⟩ ∧ Enabled u.done) := by
    refine ⟨isCommand_of_commands hcommand, ?_⟩
    rintro rfl
    obtain ⟨hfits, hready⟩ := readyKeeps_of_steps hsteps
    have hnext := (hfits t hmem).next (Thread.next_of_perform hthread)
    exact hready.enabled _ (hready.asked t hmem (asked_of_fits hnext hcommand))
  have hleads : (t.kind.program extractSpkiHash).Leads t.done (.call e.op k) := by
    rcases (winFollows_of_steps hsteps t hmem).2 with hstall | hleads
    · rw [hstall] at hrest
      cases hrest
    · exact hrest ▸ hleads
  unfold WinKind.program at hleads
  cases hjob : t.kind.job with
  | startServer =>
      -- the start of a server commands nothing
      rw [hjob] at hleads
      have hfits := (startServer_fits fun _ ho => ho).awaits ⟨k, hleads⟩
      have hserved := serving_of_fits hfits hcommand
      cases command <;> first | exact hserved.elim | cases hprivileged.1
  | thread kind =>
      rw [hjob] at hleads
      obtain ⟨es, front, back, o, hdone, hcarries, hawaits, k', hback⟩ :=
        Prog.awaits_interpret ⟨k, hleads⟩
      -- the call is one of the command itself
      have honly : (onWindows o).Safe (WinFits .startServer (Eq o)) [] fun _ _ => True :=
        onWindows_fits rfl []
      obtain rfl : o = command := serving_of_fits (honly.awaits ⟨k', hback⟩) hcommand
      have hkeeps : ThreadKeeps extractSpkiHash (kind.thread extractSpkiHash) :=
        threadKeeps_start kind
      cases kind with
      | command c =>
          have hop := Prog.Safe.awaits hkeeps hawaits
          rw [not_command hop] at hprivileged
          cases hprivileged.1
      | connection certs peerAddr rounds reads =>
          obtain ⟨hadmitted, hcommanded⟩ :=
            commanded_of_command (Prog.Safe.awaits hkeeps.keeps hawaits) hprivileged.1
          have hcerts : t.kind.certs = some certs := by
            rw [WinKind.certs, hjob]
            rfl
          have hpeer := fromPeer_of_carries hcarries fun o r hr =>
            winFromPeer_of_steps hsteps t hmem certs hcerts o r
              (hdone ▸ List.mem_append_left back hr)
          exact ⟨t, certs, es, front, back, ht, hcerts, hdone, hcarries,
            admittedPeer_of_admitted hpeer hadmitted, hcommanded, hprivileged.2⟩

end Runs

/-! ## A phone that turns the PC off -/

/-- A request to turn the PC off. -/
def powerOffRequest : Protocol.Envelope :=
  ⟨Protocol.protocolVersion, 1, Protocol.ClientFrame.format.encode .powerOff⟩

/-- Answers to a phone that asks to turn the PC off. -/
def powerOffOutside (o : Op) : Ans o :=
  match o with
  | .recv => Except.ok (wireBytes powerOffRequest)
  | o => succeeding lanContents o

/-- The server starts, accepts the phone and serves it up to the call that turns the PC
off. -/
def powerOffActions : List WinAction :=
  .boot :: List.replicate 14 (goOn lanContents 0 powerOffOutside) ++
    .accept [[]] phoneAddress 2 2 :: List.replicate 9 (goOn lanContents 1 powerOffOutside)

set_option maxRecDepth 2000 in
/-- The paired phone turns the PC off. -/
theorem paired_phone_turns_off :
    ∃ h h' e, takeSteps (WinHost.step phoneSpki opensPlain)
        (WinHost.initial (keystoreFiles (savePlaintext lanContents))) powerOffActions = some h ∧
      h.perform phoneSpki opensPlain 1 (winSucceeding powerOffOutside) [] = some (e, h') ∧
      ∃ t certs es front back, h.threads[1]? = some t ∧ t.kind.certs = some certs ∧
        t.done = front ++ back ∧ Prog.Carries onWindows es front ∧
        AdmittedPeer phoneSpki certs es ∧ Commanded es .powerOff ∧
        (Op.powerOff = .powerOff →
          ∃ u ∈ h.threads, u.kind = ⟨t.kind.process, .startServer⟩ ∧ Enabled u.done) := by
  have hview : ((takeSteps (WinHost.step phoneSpki opensPlain)
      (WinHost.initial (keystoreFiles (savePlaintext lanContents))) powerOffActions).bind fun h =>
        (h.perform phoneSpki opensPlain 1 (winSucceeding powerOffOutside) []).map
          fun r => r.1.op.commands) = some (some .powerOff) := by
    rfl
  obtain ⟨h, hsteps, hcall⟩ := Option.bind_eq_some_iff.mp hview
  obtain ⟨⟨e, h'⟩, hperform, hcommand⟩ := Option.map_eq_some_iff.mp hcall
  exact ⟨h, h', e, hsteps, hperform, calls_authorized hsteps hperform hcommand⟩

end Daemon
end WakeMyPc
