import WakeMyPc.Crypto.Pairing
import WakeMyPc.Foundations.Runs

/-!
# Runs of the pairing handshake

A run is any sequence of calls on a fresh handshake.  Its log tells which window was
opened last and what has happened since, without looking at the state of the handshake.

Main results:

- Theorem `called_of_call`: the cases of one call.
- Theorem `told_of_steps`: the state of the handshake is the one that the log tells.
- Theorem `window_lifecycle`: wrong offers are counted, the right code is accepted exactly
  while a window is open, and a window closes once.
-/

namespace WakeMyPc
namespace Crypto

open Foundations
open Protocol (SpkiHash)

namespace Lifecycle

/-! ## Calls -/

/-- A call on a handshake. -/
inductive Call where
  | start (nowUnixMs ttlMs : UInt64) (draws : List Draw)
  | acceptPair (nowUnixMs : UInt64) (offeredCode : UInt32) (phoneName : RustString)
      (clientSpki : SpkiHash)
  | tick (nowUnixMs : UInt64)
  | reset

/-- What a call reports. -/
inductive Report where
  | transition (transition : PairingTransition)
  | failed (cause : Error)
  | nothing
deriving DecidableEq

/-- One call in a log, with the handshake before and after it. -/
structure Entry where
  before : PairingHandshake
  call : Call
  report : Report
  after : PairingHandshake

/-- A handshake and the calls that were made on it. -/
structure Played where
  handshake : PairingHandshake
  log : List Entry

/-- Make a call.  A start whose draws were all too large is still drawing. -/
def answer (h : PairingHandshake) : Call → Option (Report × PairingHandshake)
  | .start nowUnixMs ttlMs draws =>
      match h.start nowUnixMs ttlMs draws with
      | none => none
      | some (.error e, h, _) => some (.failed e, h)
      | some (.ok transition, h, _) => some (.transition transition, h)
  | .acceptPair nowUnixMs offeredCode phoneName clientSpki =>
      let result := h.acceptPair nowUnixMs offeredCode phoneName clientSpki
      some (.transition result.1, result.2)
  | .tick nowUnixMs =>
      let result := h.tick nowUnixMs
      some (.transition result.1, result.2)
  | .reset => some (.nothing, h.reset)

namespace Played

/-- A fresh handshake. -/
def fresh : Played :=
  ⟨PairingHandshake.new, []⟩

/-- Make a call and log it. -/
def step (p : Played) (c : Call) : Option Played :=
  (answer p.handshake c).map fun result =>
    ⟨result.2, p.log ++ [⟨p.handshake, c, result.1, result.2⟩]⟩

/-- The handshake after a call; a start that is still drawing changes nothing. -/
def afterCall (p : Played) (c : Call) : Played :=
  (p.step c).getD p

theorem afterCall_none {p : Played} {c : Call} (h : answer p.handshake c = none) :
    p.afterCall c = p := by
  rw [afterCall, step, h]
  rfl

theorem handshake_afterCall {p : Played} {c : Call} {report : Report} {after : PairingHandshake}
    (h : answer p.handshake c = some (report, after)) : (p.afterCall c).handshake = after := by
  rw [afterCall, step, h]
  rfl

end Played

/-! ## Windows -/

/-- A window as it was opened. -/
structure Window where
  code : UInt32
  startedAtUnixMs : UInt64
  ttlMs : UInt64
deriving DecidableEq

/-- The end of a window. -/
def Window.expiresAtUnixMs (w : Window) : UInt64 :=
  saturatingAdd w.startedAtUnixMs w.ttlMs

namespace Entry

/-- The window that an entry opens. -/
def opens : Entry → Option Window
  | ⟨_, .start nowUnixMs ttlMs _, .transition (.started code), _⟩ => some ⟨code, nowUnixMs, ttlMs⟩
  | _ => none

/-- The entry reports that a window has closed. -/
def closes (e : Entry) : Bool :=
  match e.report with
  | .transition (.succeeded _) => true
  | .transition .expired => true
  | .transition (.rejected .expired) => true
  | .transition (.rejected .tooManyAttempts) => true
  | _ => false

/-- The entry is a reset. -/
def resets (e : Entry) : Bool :=
  match e.call with
  | .reset => true
  | _ => false

/-- The entry is a wrong or out-of-range offer for a window. -/
def wrongFor (w : Window) (e : Entry) : Bool :=
  match e.call with
  | .acceptPair _ offeredCode _ _ =>
      decide (offeredCode ≥ pairingCodeModulus) || offeredCode != w.code
  | _ => false

/-- The entry offers a code or looks at the clock. -/
def polls (e : Entry) : Bool :=
  match e.call with
  | .acceptPair _ _ _ _ => true
  | .tick _ => true
  | _ => false

end Entry

/-- The last window after one more entry. -/
def lastOpenedStep (last : Option (Window × List Entry)) (e : Entry) :
    Option (Window × List Entry) :=
  match e.opens with
  | some w => some (w, [])
  | none => last.map fun (w, since) => (w, since ++ [e])

/-- The window that was opened last, and the entries since. -/
def lastOpened (log : List Entry) : Option (Window × List Entry) :=
  log.foldl lastOpenedStep none

/-- A window is open: nothing has closed or reset it since it was opened. -/
def WindowOpen (log : List Entry) (w : Window) (since : List Entry) : Prop :=
  lastOpened log = some (w, since) ∧ ∀ e ∈ since, e.closes = false ∧ e.resets = false

theorem lastOpened_concat (log : List Entry) (e : Entry) :
    lastOpened (log ++ [e]) = lastOpenedStep (lastOpened log) e := by
  rw [lastOpened, List.foldl_append]
  rfl

/-! ## What one call does -/

/-- A drawn code is in range. -/
theorem randomPairingCode_lt {draws rest : List Draw} {code : UInt32}
    (h : randomPairingCode draws = some (.ok code, rest)) : code < pairingCodeModulus := by
  obtain ⟨-, buf, -, -, -, rfl⟩ := randomPairingCode_ok_iff.mp h
  exact UInt32.mod_lt _ (by decide)

/-- No window is open in the state of a handshake. -/
def Closed (h : PairingHandshake) : Prop :=
  ∀ code expiresAtUnixMs failedAttempts,
    h.state ≠ .awaiting code expiresAtUnixMs failedAttempts

/-- What a call can do. -/
inductive Called (h : PairingHandshake) : Call → Report → PairingHandshake → Prop where
  | started {nowUnixMs ttlMs : UInt64} {draws : List Draw} {code : UInt32}
      (hidle : h.state = .idle) (hcode : code < pairingCodeModulus) :
      Called h (.start nowUnixMs ttlMs draws) (.transition (.started code))
        ⟨.awaiting code (saturatingAdd nowUnixMs ttlMs) 0⟩
  | startFailed {nowUnixMs ttlMs : UInt64} {draws : List Draw} (e : Error) :
      Called h (.start nowUnixMs ttlMs draws) (.failed e) h
  | startNoOp {nowUnixMs ttlMs : UInt64} {draws : List Draw} :
      Called h (.start nowUnixMs ttlMs draws) (.transition .noOp) h
  | notInWindow {nowUnixMs : UInt64} {offeredCode : UInt32} {phoneName : RustString}
      {clientSpki : SpkiHash} (hclosed : Closed h) :
      Called h (.acceptPair nowUnixMs offeredCode phoneName clientSpki)
        (.transition (.rejected .notInWindow)) h
  | offerExpired {nowUnixMs expiresAtUnixMs : UInt64} {code offeredCode : UInt32}
      {failedAttempts : UInt8} {phoneName : RustString} {clientSpki : SpkiHash}
      (hstate : h.state = .awaiting code expiresAtUnixMs failedAttempts)
      (hexpired : expiresAtUnixMs ≤ nowUnixMs) :
      Called h (.acceptPair nowUnixMs offeredCode phoneName clientSpki)
        (.transition (.rejected .expired)) ⟨.idle⟩
  | wrong {nowUnixMs expiresAtUnixMs : UInt64} {code offeredCode : UInt32}
      {failedAttempts : UInt8} {phoneName : RustString} {clientSpki : SpkiHash}
      (hstate : h.state = .awaiting code expiresAtUnixMs failedAttempts)
      (hopen : nowUnixMs < expiresAtUnixMs)
      (hwrong : pairingCodeModulus ≤ offeredCode ∨ offeredCode ≠ code)
      (hleft : u8SaturatingAdd failedAttempts 1 < maxPairingAttempts)
      {reason : PairingRejection} (hreason : reason = .outOfRange ∨ reason = .wrongCode) :
      Called h (.acceptPair nowUnixMs offeredCode phoneName clientSpki)
        (.transition (.rejected reason))
        ⟨.awaiting code expiresAtUnixMs (u8SaturatingAdd failedAttempts 1)⟩
  | tooManyAttempts {nowUnixMs expiresAtUnixMs : UInt64} {code offeredCode : UInt32}
      {failedAttempts : UInt8} {phoneName : RustString} {clientSpki : SpkiHash}
      (hstate : h.state = .awaiting code expiresAtUnixMs failedAttempts)
      (hopen : nowUnixMs < expiresAtUnixMs)
      (hwrong : pairingCodeModulus ≤ offeredCode ∨ offeredCode ≠ code) :
      Called h (.acceptPair nowUnixMs offeredCode phoneName clientSpki)
        (.transition (.rejected .tooManyAttempts)) ⟨.idle⟩
  | succeeded {nowUnixMs expiresAtUnixMs : UInt64} {offeredCode : UInt32}
      {failedAttempts : UInt8} {phoneName : RustString} {clientSpki : SpkiHash}
      (hstate : h.state = .awaiting offeredCode expiresAtUnixMs failedAttempts)
      (hopen : nowUnixMs < expiresAtUnixMs) (hrange : offeredCode < pairingCodeModulus) :
      Called h (.acceptPair nowUnixMs offeredCode phoneName clientSpki)
        (.transition (.succeeded ⟨phoneName, clientSpki, nowUnixMs⟩))
        ⟨.paired ⟨phoneName, clientSpki, nowUnixMs⟩⟩
  | tickExpired {nowUnixMs expiresAtUnixMs : UInt64} {code : UInt32} {failedAttempts : UInt8}
      (hstate : h.state = .awaiting code expiresAtUnixMs failedAttempts)
      (hexpired : expiresAtUnixMs ≤ nowUnixMs) :
      Called h (.tick nowUnixMs) (.transition .expired) ⟨.idle⟩
  | tickNoOp {nowUnixMs : UInt64} : Called h (.tick nowUnixMs) (.transition .noOp) h
  | reset : Called h .reset .nothing ⟨.idle⟩

theorem called_start {h h' : PairingHandshake} {nowUnixMs ttlMs : UInt64} {draws : List Draw}
    {report : Report} (hcall : answer h (.start nowUnixMs ttlMs draws) = some (report, h')) :
    Called h (.start nowUnixMs ttlMs draws) report h' := by
  obtain ⟨state⟩ := h
  cases state with
  | idle =>
      simp only [answer, PairingHandshake.start] at hcall
      cases hdraw : randomPairingCode draws with
      | none => simp [hdraw] at hcall
      | some drawn =>
          obtain ⟨result, rest⟩ := drawn
          cases result with
          | error e =>
              simp only [hdraw, Option.some.injEq, Prod.mk.injEq] at hcall
              obtain ⟨rfl, rfl⟩ := hcall
              exact .startFailed e
          | ok code =>
              simp only [hdraw, Option.some.injEq, Prod.mk.injEq] at hcall
              obtain ⟨rfl, rfl⟩ := hcall
              exact .started rfl (randomPairingCode_lt hdraw)
  | awaiting code expiresAtUnixMs failedAttempts =>
      obtain ⟨rfl, rfl⟩ := Prod.mk.inj (Option.some.inj hcall)
      exact .startNoOp
  | paired record =>
      obtain ⟨rfl, rfl⟩ := Prod.mk.inj (Option.some.inj hcall)
      exact .startNoOp

theorem called_acceptPair (h : PairingHandshake) (nowUnixMs : UInt64) (offeredCode : UInt32)
    (phoneName : RustString) (clientSpki : SpkiHash) :
    Called h (.acceptPair nowUnixMs offeredCode phoneName clientSpki)
      (.transition (h.acceptPair nowUnixMs offeredCode phoneName clientSpki).1)
      (h.acceptPair nowUnixMs offeredCode phoneName clientSpki).2 := by
  obtain ⟨state⟩ := h
  cases state with
  | idle => exact .notInWindow (by simp [Closed])
  | paired record => exact .notInWindow (by simp [Closed])
  | awaiting code expiresAtUnixMs failedAttempts =>
      by_cases hexpired : expiresAtUnixMs ≤ nowUnixMs
      · rw [PairingHandshake.acceptPair_expired hexpired]
        exact .offerExpired rfl hexpired
      · have hopen : nowUnixMs < expiresAtUnixMs := UInt64.not_le.mp hexpired
        by_cases hwrong : pairingCodeModulus ≤ offeredCode ∨ offeredCode ≠ code
        · rw [PairingHandshake.acceptPair_wrong hopen hwrong]
          split
          · exact .tooManyAttempts rfl hopen hwrong
          · next hleft =>
              refine .wrong rfl hopen hwrong (UInt8.not_le.mp hleft) ?_
              split
              · exact .inl rfl
              · exact .inr rfl
        · obtain ⟨hrange, hright⟩ := not_or.mp hwrong
          obtain rfl := not_not.mp hright
          rw [PairingHandshake.acceptPair_right hopen (UInt32.not_le.mp hrange) rfl]
          exact .succeeded rfl hopen (UInt32.not_le.mp hrange)

theorem called_tick (h : PairingHandshake) (nowUnixMs : UInt64) :
    Called h (.tick nowUnixMs) (.transition (h.tick nowUnixMs).1) (h.tick nowUnixMs).2 := by
  obtain ⟨state⟩ := h
  cases state with
  | idle => exact .tickNoOp
  | paired record => exact .tickNoOp
  | awaiting code expiresAtUnixMs failedAttempts =>
      rw [PairingHandshake.tick_awaiting]
      split
      · next hexpired => exact .tickExpired rfl hexpired
      · exact .tickNoOp

/-- A call does one of these things. -/
theorem called_of_call {h h' : PairingHandshake} {c : Call} {report : Report}
    (hcall : answer h c = some (report, h')) : Called h c report h' := by
  cases c with
  | start nowUnixMs ttlMs draws => exact called_start hcall
  | acceptPair nowUnixMs offeredCode phoneName clientSpki =>
      obtain ⟨rfl, rfl⟩ := Prod.mk.inj (Option.some.inj hcall)
      exact called_acceptPair h nowUnixMs offeredCode phoneName clientSpki
  | tick nowUnixMs =>
      obtain ⟨rfl, rfl⟩ := Prod.mk.inj (Option.some.inj hcall)
      exact called_tick h nowUnixMs
  | reset =>
      obtain ⟨rfl, rfl⟩ := Prod.mk.inj (Option.some.inj hcall)
      exact .reset

/-! ## The state that the log tells -/

/-- The state of the handshake is the one that the log tells. -/
def Told (p : Played) : Prop :=
  match p.handshake.state with
  | .awaiting code expiresAtUnixMs failedAttempts =>
      ∃ w since, WindowOpen p.log w since ∧ w.code = code ∧
        w.expiresAtUnixMs = expiresAtUnixMs ∧ code < pairingCodeModulus ∧
        failedAttempts < maxPairingAttempts ∧
        failedAttempts.toNat = since.countP (Entry.wrongFor w)
  | _ => ∀ w since, ¬ WindowOpen p.log w since

theorem told_of_closed {p : Played} (h : Closed p.handshake) :
    Told p ↔ ∀ w since, ¬ WindowOpen p.log w since := by
  obtain ⟨⟨state⟩, log⟩ := p
  cases state with
  | awaiting code expiresAtUnixMs failedAttempts => exact absurd rfl (h _ _ _)
  | idle => exact Iff.rfl
  | paired record => exact Iff.rfl

theorem told_fresh : Told Played.fresh := by
  intro w since hopen
  simp [Played.fresh, WindowOpen, lastOpened] at hopen

section Step

variable {p : Played} {c : Call} {report : Report} {after : PairingHandshake}

/-- An entry that opens nothing is one more since the last window. -/
private theorem lastOpened_next {log : List Entry} {e : Entry} (h : e.opens = none) :
    lastOpened (log ++ [e]) = (lastOpened log).map fun (w, since) => (w, since ++ [e]) := by
  rw [lastOpened_concat, lastOpenedStep, h]

private theorem windowOpen_next {log : List Entry} {e : Entry} {w : Window} {since : List Entry}
    (hopens : e.opens = none) (h : WindowOpen log w since)
    (hopen : e.closes = false ∧ e.resets = false) : WindowOpen (log ++ [e]) w (since ++ [e]) := by
  refine ⟨by rw [lastOpened_next hopens, h.1]; rfl, fun x hx => ?_⟩
  rcases List.mem_append.mp hx with hold | hnew
  · exact h.2 x hold
  · rwa [List.mem_singleton.mp hnew]

/-- A window that is open was open before, unless the last entry opened it. -/
private theorem windowOpen_of_next {log : List Entry} {e : Entry} {w : Window}
    {since : List Entry} (hopens : e.opens = none) (h : WindowOpen (log ++ [e]) w since) :
    ∃ before, since = before ++ [e] ∧ WindowOpen log w before ∧ e.closes = false ∧
      e.resets = false := by
  obtain ⟨hlast, hall⟩ := h
  rw [lastOpened_next hopens] at hlast
  obtain ⟨⟨w', before⟩, hlast', heq⟩ := Option.map_eq_some_iff.mp hlast
  obtain ⟨rfl, rfl⟩ := Prod.mk.inj heq
  refine ⟨before, rfl, ⟨hlast', fun x hx => hall x (List.mem_append_left _ hx)⟩, ?_⟩
  exact hall e (List.mem_append_right _ (List.mem_singleton.mpr rfl))

/-- A call that changes nothing, and reports nothing that closes a window. -/
private theorem told_same (h : Told p)
    (hopens : (Entry.mk p.handshake c report p.handshake).opens = none)
    (hcloses : (Entry.mk p.handshake c report p.handshake).closes = false)
    (hresets : (Entry.mk p.handshake c report p.handshake).resets = false)
    (hwrong : Closed p.handshake ∨
      ∀ w, (Entry.mk p.handshake c report p.handshake).wrongFor w = false) :
    Told ⟨p.handshake, p.log ++ [⟨p.handshake, c, report, p.handshake⟩]⟩ := by
  by_cases hclosed : Closed p.handshake
  · refine (told_of_closed ?_).mpr fun w since hopen => ?_
    · exact hclosed
    obtain ⟨before, -, hbefore, -⟩ := windowOpen_of_next hopens hopen
    exact (told_of_closed hclosed).mp h w before hbefore
  · have hquiet := hwrong.resolve_left hclosed
    obtain ⟨⟨state⟩, log⟩ := p
    cases state with
    | idle => exact absurd (by simp [Closed]) hclosed
    | paired record => exact absurd (by simp [Closed]) hclosed
    | awaiting code expiresAtUnixMs failedAttempts =>
        obtain ⟨w, since, hopen, hcode, hexpires, hrange, hfew, hcount⟩ := h
        refine ⟨w, _, windowOpen_next hopens hopen ⟨hcloses, hresets⟩, hcode, hexpires, hrange,
          hfew, ?_⟩
        rw [List.countP_append, List.countP_singleton, hquiet w, hcount]
        rfl

/-- A call after which no window is open. -/
private theorem told_close (hclosed : Closed after)
    (hopens : (Entry.mk p.handshake c report after).opens = none)
    (hends : (Entry.mk p.handshake c report after).closes = true ∨
      (Entry.mk p.handshake c report after).resets = true) :
    Told ⟨after, p.log ++ [⟨p.handshake, c, report, after⟩]⟩ := by
  refine (told_of_closed ?_).mpr fun w since hopen => ?_
  · exact hclosed
  obtain ⟨before, -, -, hcloses, hresets⟩ := windowOpen_of_next hopens hopen
  rcases hends with h | h
  · simp [hcloses] at h
  · simp [hresets] at h

/-- The state of the handshake is the one that the log tells after each call. -/
theorem told_of_called (h : Told p) (hcalled : Called p.handshake c report after) :
    Told ⟨after, p.log ++ [⟨p.handshake, c, report, after⟩]⟩ := by
  cases hcalled with
  | @started nowUnixMs ttlMs draws code hidle hcode =>
      refine ⟨⟨code, nowUnixMs, ttlMs⟩, [], ⟨?_, by simp⟩, rfl, rfl, hcode, by decide, rfl⟩
      rw [lastOpened_concat]
      rfl
  | startFailed e => exact told_same h rfl rfl rfl (.inr fun _ => rfl)
  | startNoOp => exact told_same h rfl rfl rfl (.inr fun _ => rfl)
  | notInWindow hclosed => exact told_same h rfl rfl rfl (.inl hclosed)
  | tickNoOp => exact told_same h rfl rfl rfl (.inr fun _ => rfl)
  | offerExpired hstate hexpired => exact told_close (by simp [Closed]) rfl (.inl rfl)
  | tooManyAttempts hstate hopen hwrong =>
      exact told_close (by simp [Closed]) rfl (.inl rfl)
  | succeeded hstate hopen hrange =>
      exact told_close (by simp [Closed]) rfl (.inl rfl)
  | tickExpired hstate hexpired =>
      exact told_close (by simp [Closed]) rfl (.inl rfl)
  | reset => exact told_close (by simp [Closed]) rfl (.inr rfl)
  | @wrong nowUnixMs expiresAtUnixMs code offeredCode failedAttempts phoneName clientSpki hstate
      hopen hwrong hleft reason hreason =>
      rw [Told, hstate] at h
      obtain ⟨w, since, hwindow, rfl, hexpires, hrange, hfew, hcount⟩ := h
      have hentry : (Entry.mk p.handshake (.acceptPair nowUnixMs offeredCode phoneName clientSpki)
          (.transition (.rejected reason))
          ⟨.awaiting w.code expiresAtUnixMs (u8SaturatingAdd failedAttempts 1)⟩).wrongFor w =
          true := by
        simpa [Entry.wrongFor] using hwrong
      refine ⟨w, _, windowOpen_next rfl hwindow ⟨?_, rfl⟩, rfl, hexpires, hrange, hleft, ?_⟩
      · rcases hreason with rfl | rfl <;> rfl
      · rw [List.countP_append, List.countP_singleton, if_pos hentry, ← hcount,
          toNat_u8SaturatingAdd]
        have hsmall : failedAttempts.toNat < 5 := hfew
        change min (failedAttempts.toNat + 1) 255 = failedAttempts.toNat + 1
        omega

end Step

/-- The state of the handshake is the one that the log tells after every run. -/
theorem told_of_steps {calls : List Call} {p : Played}
    (h : takeSteps Played.step Played.fresh calls = some p) : Told p := by
  refine takeSteps_invariant Told ?_ told_fresh h
  intro p c p' hp hstep
  obtain ⟨⟨report, after⟩, hcall, rfl⟩ := Option.map_eq_some_iff.mp hstep
  exact told_of_called hp (called_of_call hcall)

theorem told_afterCall {p : Played} (h : Told p) (c : Call) : Told (p.afterCall c) := by
  unfold Played.afterCall Played.step
  cases hcall : answer p.handshake c with
  | none => exact h
  | some result => exact told_of_called h (called_of_call hcall)

/-! ## Logs -/

/-- The entries of a log are calls one after the other, from one handshake to another. -/
def Linked : PairingHandshake → List Entry → PairingHandshake → Prop
  | h, [], h' => h = h'
  | h, e :: es, h' => e.before = h ∧ Called h e.call e.report e.after ∧ Linked e.after es h'

theorem linked_append {h h' : PairingHandshake} {front back : List Entry} :
    Linked h (front ++ back) h' ↔ ∃ m, Linked h front m ∧ Linked m back h' := by
  induction front generalizing h with
  | nil =>
      constructor
      · intro hlinked
        exact ⟨h, rfl, hlinked⟩
      · rintro ⟨m, rfl, hlinked⟩
        exact hlinked
  | cons e front ih =>
      constructor
      · rintro ⟨hbefore, hcalled, hrest⟩
        obtain ⟨m, hfront, hback⟩ := ih.mp hrest
        exact ⟨m, ⟨hbefore, hcalled, hfront⟩, hback⟩
      · rintro ⟨m, ⟨hbefore, hcalled, hfront⟩, hback⟩
        exact ⟨hbefore, hcalled, ih.mpr ⟨m, hfront, hback⟩⟩

/-- The log of a run is one of its calls. -/
theorem linked_of_steps {calls : List Call} {p : Played}
    (h : takeSteps Played.step Played.fresh calls = some p) :
    Linked PairingHandshake.new p.log p.handshake := by
  refine takeSteps_invariant
    (fun p : Played => Linked PairingHandshake.new p.log p.handshake) ?_ ?_ h
  · intro p c p' hp hstep
    obtain ⟨⟨report, after⟩, hcall, rfl⟩ := Option.map_eq_some_iff.mp hstep
    exact linked_append.mpr ⟨p.handshake, hp, rfl, called_of_call hcall, rfl⟩
  · exact rfl

/-- A call that closes a window leaves none open. -/
theorem closed_of_closes {e : Entry} (hcalled : Called e.before e.call e.report e.after)
    (hcloses : e.closes = true) : Closed e.after := by
  obtain ⟨before, call, report, after⟩ := e
  cases hcalled with
  | wrong hstate hopen hwrong hleft hreason =>
      rcases hreason with rfl | rfl <;> simp [Entry.closes] at hcloses
  | offerExpired hstate hexpired => simp [Closed]
  | tooManyAttempts hstate hopen hwrong => simp [Closed]
  | succeeded hstate hopen hrange => simp [Closed]
  | tickExpired hstate hexpired => simp [Closed]
  | _ => simp [Entry.closes] at hcloses

/-- While no window is open, a call that opens none closes none, and an offer or a look at
the clock changes nothing. -/
theorem closed_of_called {e : Entry} (hcalled : Called e.before e.call e.report e.after)
    (hclosed : Closed e.before) (hopens : e.opens = none) :
    Closed e.after ∧ e.closes = false ∧ (e.polls = true → e.after = e.before) := by
  obtain ⟨before, call, report, after⟩ := e
  cases hcalled with
  | started hidle hcode => simp [Entry.opens] at hopens
  | startFailed cause => exact ⟨hclosed, rfl, fun _ => rfl⟩
  | startNoOp => exact ⟨hclosed, rfl, fun _ => rfl⟩
  | notInWindow _ => exact ⟨hclosed, rfl, fun _ => rfl⟩
  | tickNoOp => exact ⟨hclosed, rfl, fun _ => rfl⟩
  | reset => exact ⟨by simp [Closed], rfl, by simp [Entry.polls]⟩
  | offerExpired hstate hexpired => exact absurd hstate (hclosed _ _ _)
  | wrong hstate hopen hwrong hleft hreason => exact absurd hstate (hclosed _ _ _)
  | tooManyAttempts hstate hopen hwrong => exact absurd hstate (hclosed _ _ _)
  | succeeded hstate hopen hrange => exact absurd hstate (hclosed _ _ _)
  | tickExpired hstate hexpired => exact absurd hstate (hclosed _ _ _)

/-- Once no window is open, none is closed until one is opened, and no offer or look at the
clock changes anything. -/
theorem closed_stays {h h' : PairingHandshake} {es : List Entry} (hlinked : Linked h es h')
    (hclosed : Closed h) (hopens : ∀ e ∈ es, e.opens = none) :
    ∀ e ∈ es, e.closes = false ∧ (e.polls = true → e.after = e.before) := by
  induction es generalizing h with
  | nil => simp
  | cons e es ih =>
      obtain ⟨rfl, hcalled, hrest⟩ := hlinked
      obtain ⟨hafter, hkeeps⟩ := closed_of_called hcalled hclosed (hopens e List.mem_cons_self)
      intro x hx
      rcases List.mem_cons.mp hx with rfl | hx
      · exact hkeeps
      · exact ih hrest hafter (fun y hy => hopens y (List.mem_cons_of_mem e hy)) x hx

/-- Nothing that closes a window comes after something that closes one, until a window is
opened. -/
theorem countP_closes_le {h h' : PairingHandshake} {es : List Entry} (hlinked : Linked h es h')
    (hopens : ∀ e ∈ es, e.opens = none) : es.countP Entry.closes ≤ 1 := by
  induction es generalizing h with
  | nil => simp
  | cons e es ih =>
      obtain ⟨rfl, hcalled, hrest⟩ := hlinked
      have hlater : ∀ x ∈ es, x.opens = none := fun x hx => hopens x (List.mem_cons_of_mem e hx)
      by_cases hcloses : e.closes = true
      · have hnone : es.countP Entry.closes = 0 := by
          rw [List.countP_eq_zero]
          intro x hx
          have hx' := closed_stays hrest (closed_of_closes hcalled hcloses) hlater x hx
          simp [hx'.1]
        rw [List.countP_cons_of_pos hcloses, hnone]
      · rw [List.countP_cons_of_neg hcloses]
        exact ih hrest hlater

/-! ## The life of a window -/

/-- What an accepted code says: the window that took it was open, and had seen fewer wrong
offers than the limit. -/
theorem window_of_succeeded {p : Played} (htold : Told p) {nowUnixMs : UInt64}
    {offeredCode : UInt32} {phoneName : RustString} {clientSpki : SpkiHash}
    {record : PairingRecord}
    (h : (p.handshake.acceptPair nowUnixMs offeredCode phoneName clientSpki).1 =
      .succeeded record) :
    ∃ w since, WindowOpen p.log w since ∧ nowUnixMs < w.expiresAtUnixMs ∧
      offeredCode = w.code ∧ since.countP (Entry.wrongFor w) < maxPairingAttempts.toNat ∧
      record = ⟨phoneName, clientSpki, nowUnixMs⟩ := by
  have hcalled := called_acceptPair p.handshake nowUnixMs offeredCode phoneName clientSpki
  rw [h] at hcalled
  generalize (p.handshake.acceptPair nowUnixMs offeredCode phoneName clientSpki).2 = after
    at hcalled
  cases hcalled with
  | succeeded hstate hopen hrange =>
      rw [Told, hstate] at htold
      obtain ⟨w, since, hwindow, hcode, hexpires, -, hfew, hcount⟩ := htold
      exact ⟨w, since, hwindow, hexpires ▸ hopen, hcode.symm, hcount ▸ hfew, rfl⟩

/-- A code is accepted exactly when a window is open, its end has not come, and the code is
its code; the record then carries what was offered. -/
theorem succeeded_iff {p : Played} (htold : Told p) (nowUnixMs : UInt64) (offeredCode : UInt32)
    (phoneName : RustString) (clientSpki : SpkiHash) (record : PairingRecord) :
    (p.handshake.acceptPair nowUnixMs offeredCode phoneName clientSpki).1 = .succeeded record ↔
      ∃ w since, WindowOpen p.log w since ∧ nowUnixMs < w.expiresAtUnixMs ∧
        offeredCode = w.code ∧ record = ⟨phoneName, clientSpki, nowUnixMs⟩ := by
  constructor
  · intro hsucceeded
    obtain ⟨w, since, hwindow, hopen, hcode, -, hrecord⟩ := window_of_succeeded htold hsucceeded
    exact ⟨w, since, hwindow, hopen, hcode, hrecord⟩
  · rintro ⟨w, since, hwindow, hopen, rfl, rfl⟩
    obtain ⟨⟨state⟩, log⟩ := p
    cases state with
    | idle => exact absurd hwindow (htold w since)
    | paired record => exact absurd hwindow (htold w since)
    | awaiting code expiresAtUnixMs failedAttempts =>
        obtain ⟨w', since', hwindow', rfl, rfl, hrange, -⟩ := htold
        obtain ⟨rfl, rfl⟩ := Prod.mk.inj (Option.some.inj (hwindow.1.symm.trans hwindow'.1))
        exact congrArg Prod.fst (PairingHandshake.acceptPair_right hopen hrange rfl)

/-- In every run, an open window has a code in range and counts the wrong offers since it was
opened, of which it has seen fewer than the limit; a code is accepted exactly while a window
is open and when it is the code of that window; and a window closes at most once, after which
no offer and no look at the clock has an effect until another one is opened. -/
theorem window_lifecycle {calls : List Call} {p : Played}
    (h : takeSteps Played.step Played.fresh calls = some p) :
    (∀ code expiresAtUnixMs failedAttempts,
      p.handshake.state = .awaiting code expiresAtUnixMs failedAttempts →
        code < pairingCodeModulus ∧ failedAttempts < maxPairingAttempts ∧
        ∃ w since, lastOpened p.log = some (w, since) ∧ w.code = code ∧
          failedAttempts.toNat = since.countP (Entry.wrongFor w)) ∧
    (∀ nowUnixMs offeredCode phoneName clientSpki record,
      (p.handshake.acceptPair nowUnixMs offeredCode phoneName clientSpki).1 = .succeeded record ↔
        ∃ w since, WindowOpen p.log w since ∧ nowUnixMs < w.expiresAtUnixMs ∧
          offeredCode = w.code ∧ record = ⟨phoneName, clientSpki, nowUnixMs⟩) ∧
    (∀ front e since rest, p.log = front ++ e :: (since ++ rest) → e.opens.isSome = true →
      (∀ x ∈ since, x.opens = none) →
        since.countP Entry.closes ≤ 1 ∧
        ∀ earlier x later, since = earlier ++ x :: later → x.closes = true →
          ∀ y ∈ later, y.polls = true → y.after = y.before ∧
            ∀ record, y.report ≠ .transition (.succeeded record)) := by
  have htold := told_of_steps h
  refine ⟨?_, succeeded_iff htold, ?_⟩
  · intro code expiresAtUnixMs failedAttempts hstate
    rw [Told, hstate] at htold
    obtain ⟨w, since, hwindow, hcode, -, hrange, hfew, hcount⟩ := htold
    exact ⟨hrange, hfew, w, since, hwindow.1, hcode, hcount⟩
  · intro front e since rest hlog _ hopens
    have hlinked := linked_of_steps h
    rw [hlog] at hlinked
    obtain ⟨-, -, -, -, hlinked⟩ := linked_append.mp hlinked
    obtain ⟨m, hsince, -⟩ := linked_append.mp hlinked
    refine ⟨countP_closes_le hsince hopens, ?_⟩
    rintro earlier x later rfl hcloses y hy hpolls
    obtain ⟨m', -, rfl, hcalled, hlater⟩ := linked_append.mp hsince
    have hkeeps := closed_stays hlater (closed_of_closes hcalled hcloses)
      (fun z hz => hopens z (List.mem_append_right _ (List.mem_cons_of_mem x hz))) y hy
    refine ⟨hkeeps.2 hpolls, fun record hreport => ?_⟩
    have hopen := hkeeps.1
    simp [Entry.closes, hreport] at hopen

/-- A phone offers a wrong code and then the right one, and the window is polled
afterwards. -/
def shortRun : List Call :=
  let phoneName : RustString := ⟨"phone", by decide⟩
  let clientSpki : SpkiHash := ⟨List.replicate 32 1, rfl⟩
  [.start 1000 300000 [.ok (Vector.replicate 4 0)], .acceptPair 2000 7 phoneName clientSpki,
    .acceptPair 3000 0 phoneName clientSpki, .tick 400000]

/-- Its window takes the right code after the wrong one, is closed once, and the clock has no
effect afterwards. -/
theorem window_closes_once :
    ∃ front p record, takeSteps Played.step Played.fresh (shortRun.take 2) = some front ∧
      (front.handshake.acceptPair 3000 0 ⟨"phone", by decide⟩ ⟨List.replicate 32 1, rfl⟩).1 =
        .succeeded record ∧
      (∃ w since, WindowOpen front.log w since ∧ 3000 < w.expiresAtUnixMs ∧ 0 = w.code) ∧
      takeSteps Played.step Played.fresh shortRun = some p ∧
      ∃ opening wrong right poll, p.log = [opening, wrong, right, poll] ∧
        opening.opens.isSome = true ∧ right.report = .transition (.succeeded record) ∧
        [wrong, right, poll].countP Entry.closes = 1 ∧ poll.after = poll.before := by
  obtain ⟨front, hfront, haccepted⟩ : ∃ front,
      takeSteps Played.step Played.fresh (shortRun.take 2) = some front ∧
      (front.handshake.acceptPair 3000 0 ⟨"phone", by decide⟩ ⟨List.replicate 32 1, rfl⟩).1 =
        .succeeded ⟨⟨"phone", by decide⟩, ⟨List.replicate 32 1, rfl⟩, 3000⟩ := ⟨_, rfl, rfl⟩
  obtain ⟨p, opening, wrong, right, poll, hp, hlog, hopening, hreport, hcloses, hright, hopens,
      hpolls⟩ : ∃ p opening wrong right poll,
      takeSteps Played.step Played.fresh shortRun = some p ∧
      p.log = [opening, wrong, right, poll] ∧ opening.opens.isSome = true ∧
      right.report = .transition (.succeeded ⟨⟨"phone", by decide⟩,
        ⟨List.replicate 32 1, rfl⟩, 3000⟩) ∧
      1 ≤ [wrong, right, poll].countP Entry.closes ∧ right.closes = true ∧
      (∀ x ∈ [wrong, right, poll], x.opens = none) ∧ poll.polls = true :=
    ⟨_, _, _, _, _, rfl, rfl, rfl, rfl, by decide, rfl, by decide, rfl⟩
  obtain ⟨w, since, hwindow, hopen, hcode, -⟩ :=
    ((window_lifecycle hfront).2.1 _ _ _ _ _).mp haccepted
  obtain ⟨honce, hafter⟩ :=
    (window_lifecycle hp).2.2 [] opening [wrong, right, poll] [] hlog hopening hopens
  have hpoll := hafter [wrong] right [poll] rfl hright poll (List.mem_singleton_self poll) hpolls
  exact ⟨front, p, _, hfront, haccepted, ⟨w, since, hwindow, hopen, hcode⟩, hp, opening, wrong,
    right, poll, hlog, hopening, hreport, le_antisymm honce hcloses, hpoll.1⟩

end Lifecycle
end Crypto
end WakeMyPc
