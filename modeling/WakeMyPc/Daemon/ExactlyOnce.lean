import WakeMyPc.Daemon.Session

/-!
# Requests are served once and in order

The requests of a session are those of the longest prefix of its envelopes with
rising nonces, payloads that decode, and no closing answer before the end.  They
are dispatched in order, each once, and nothing after them acts.

Main results:

- Theorem `servable_longest`: `servable` is the longest such prefix.
- Theorems `Session.served` and `Session.served_all`: the requests of a session are
  those of its longest servable prefix, up to the first failed write.
- Theorem `requests_served_once_in_order`: the same for a run of the protocol loop.
-/

namespace WakeMyPc
namespace Daemon

open Foundations
open Foundations.Prog (exec)
open Protocol

/-! ## The longest servable prefix -/

/-- The message of an envelope offers a pairing code, so its answer closes the
connection. -/
def offersPair (e : Envelope) : Bool :=
  match decodeClientFrame e.payload with
  | .ok frame => isPair frame
  | .error _ => false

/-- After nonces up to `lastSeen`, these envelopes have strictly increasing nonces
and payloads that decode, and none but the last is answered by closing. -/
structure IsServable (lastSeen : UInt64) (es : List Envelope) : Prop where
  increasing : (lastSeen :: es.map (·.nonce)).Pairwise (· < ·)
  decodes : ∀ e ∈ es, ∃ frame, decodeClientFrame e.payload = .ok frame
  staysOpen : ∀ e ∈ es.dropLast, offersPair e = false

/-- The longest servable prefix of some envelopes. -/
structure IsLongestServable (lastSeen : UInt64) (es served : List Envelope) : Prop where
  isPrefix : served <+: es
  servable : IsServable lastSeen served
  longest : ∀ other, other <+: es → IsServable lastSeen other → other.length ≤ served.length

/-- The envelopes before the first one that is not served. -/
def servable (lastSeen : UInt64) : List Envelope → List Envelope
  | [] => []
  | e :: es =>
      if lastSeen < e.nonce then
        match decodeClientFrame e.payload with
        | .error _ => []
        | .ok frame => if isPair frame then [e] else e :: servable e.nonce es
      else []

theorem isServable_nil (lastSeen : UInt64) : IsServable lastSeen [] where
  increasing := List.pairwise_singleton _ _
  decodes := by simp
  staysOpen := by simp

theorem isServable_singleton {lastSeen : UInt64} {e : Envelope} {frame : ClientFrame}
    (h : lastSeen < e.nonce) (hdecode : decodeClientFrame e.payload = .ok frame) :
    IsServable lastSeen [e] where
  increasing := by simpa using h
  decodes := by simpa using ⟨frame, hdecode⟩
  staysOpen := by simp

/-- A servable list goes on, after its first envelope, with a servable list. -/
theorem IsServable.tail {lastSeen : UInt64} {e : Envelope} {es : List Envelope}
    (h : IsServable lastSeen (e :: es)) : IsServable e.nonce es where
  increasing := (List.pairwise_cons.mp h.increasing).2
  decodes e' he' := h.decodes e' (List.mem_cons_of_mem e he')
  staysOpen e' he' := by
    cases es with
    | nil => simp at he'
    | cons e₁ es => exact h.staysOpen e' (List.mem_cons_of_mem e he')

theorem IsServable.fresh {lastSeen : UInt64} {e : Envelope} {es : List Envelope}
    (h : IsServable lastSeen (e :: es)) : lastSeen < e.nonce :=
  (List.pairwise_cons.mp h.increasing).1 e.nonce (by simp)

theorem IsServable.cons {lastSeen : UInt64} {e : Envelope} {es : List Envelope}
    {frame : ClientFrame} (h : lastSeen < e.nonce)
    (hdecode : decodeClientFrame e.payload = .ok frame) (hpair : isPair frame = false)
    (hes : IsServable e.nonce es) : IsServable lastSeen (e :: es) where
  increasing := by
    refine List.pairwise_cons.mpr ⟨?_, hes.increasing⟩
    intro nonce hnonce
    rcases List.mem_cons.mp hnonce with rfl | hlater
    · exact h
    · exact UInt64.lt_trans h ((List.pairwise_cons.mp hes.increasing).1 nonce hlater)
  decodes e' he' := by
    rcases List.mem_cons.mp he' with rfl | hlater
    · exact ⟨frame, hdecode⟩
    · exact hes.decodes e' hlater
  staysOpen e' he' := by
    cases es with
    | nil => simp at he'
    | cons e₁ es =>
        rcases List.mem_cons.mp he' with rfl | hlater
        · rw [offersPair, hdecode]
          exact hpair
        · exact hes.staysOpen e' hlater

theorem servable_isServable (lastSeen : UInt64) (es : List Envelope) :
    IsServable lastSeen (servable lastSeen es) := by
  fun_induction servable lastSeen es with
  | case1 lastSeen => exact isServable_nil lastSeen
  | case2 lastSeen e es hfresh err hdecode => exact isServable_nil lastSeen
  | case3 lastSeen e es hfresh frame hdecode hpair => exact isServable_singleton hfresh hdecode
  | case4 lastSeen e es hfresh frame hdecode hpair ih =>
      exact .cons hfresh hdecode (by simpa using hpair) ih
  | case5 lastSeen e es hfresh => exact isServable_nil lastSeen

theorem servable_prefix (lastSeen : UInt64) (es : List Envelope) : servable lastSeen es <+: es := by
  fun_induction servable lastSeen es with
  | case1 lastSeen => exact List.prefix_refl []
  | case2 lastSeen e es hfresh err hdecode => exact List.nil_prefix
  | case3 lastSeen e es hfresh frame hdecode hpair => exact ⟨es, rfl⟩
  | case4 lastSeen e es hfresh frame hdecode hpair ih => exact (List.prefix_cons_inj e).mpr ih
  | case5 lastSeen e es hfresh => exact List.nil_prefix

/-- `servable` is the longest servable prefix. -/
theorem servable_longest (lastSeen : UInt64) (es : List Envelope) :
    IsLongestServable lastSeen es (servable lastSeen es) where
  isPrefix := servable_prefix lastSeen es
  servable := servable_isServable lastSeen es
  longest other hfront hother := by
    fun_induction servable lastSeen es generalizing other with
    | case1 lastSeen => exact hfront.length_le
    | case2 lastSeen e es hfresh err hdecode =>
        -- an envelope whose payload does not decode is in no servable prefix
        cases other with
        | nil => simp
        | cons e' other =>
            obtain ⟨rfl, -⟩ := List.cons_prefix_cons.mp hfront
            obtain ⟨frame, hframe⟩ := hother.decodes e' List.mem_cons_self
            simp [hdecode] at hframe
    | case3 lastSeen e es hfresh frame hdecode hpair =>
        -- nothing is served after an offered pairing code
        match other with
        | [] => simp
        | [_] => simp
        | e' :: e₁ :: other =>
            obtain ⟨rfl, -⟩ := List.cons_prefix_cons.mp hfront
            have hopen := hother.staysOpen e' List.mem_cons_self
            rw [offersPair, hdecode] at hopen
            simp [hpair] at hopen
    | case4 lastSeen e es hfresh frame hdecode hpair ih =>
        cases other with
        | nil => simp
        | cons e' other =>
            obtain ⟨rfl, hrest⟩ := List.cons_prefix_cons.mp hfront
            exact Nat.succ_le_succ (ih other hrest hother.tail)
    | case5 lastSeen e es hreplay =>
        cases other with
        | nil => simp
        | cons e' other =>
            obtain ⟨rfl, -⟩ := List.cons_prefix_cons.mp hfront
            exact absurd hother.fresh hreplay

/-! ## Sessions serve the longest servable prefix -/

/-- The nonces and messages of some envelopes. -/
def requests (es : List Envelope) : List (UInt64 × ClientFrame) :=
  es.filterMap fun e => (decodeClientFrame e.payload).toOption.map (e.nonce, ·)

section Served

variable {peerSpki : SpkiHash} {lastSeen sent : UInt64} {e : Envelope} {es : List Envelope}
  {x : Exchange}

/-- A served envelope is servable, and closes the connection when it is `Pair`. -/
theorem Exchange.Serves.servable_cons (h : x.Serves peerSpki lastSeen sent e) :
    servable lastSeen (e :: es) = if isPair x.frame then [e] else e :: servable x.nonce es := by
  simp only [servable, if_pos h.fresh, h.decodes, h.nonce_eq]

theorem Exchange.Serves.requests_cons (h : x.Serves peerSpki lastSeen sent e) :
    requests (e :: es) = x.request :: requests es := by
  simp [requests, h.decodes, Exchange.request, h.nonce_eq, Except.toOption]

end Served

section Sessions

variable {peerSpki : SpkiHash} {lastSeen sent : UInt64} {es : List Envelope} {xs : List Exchange}
  {tail : List TaskEvent}

/-- The requests of a session are first ones of its longest servable prefix. -/
theorem Session.served (h : Session peerSpki lastSeen sent es xs tail) :
    xs.map Exchange.request <+: requests (servable lastSeen es) := by
  induction h with
  | finished lastSeen sent => exact List.nil_prefix
  | replayed sent es hreplay written closed => exact List.nil_prefix
  | undecodable sent es hfresh hdecode written closed => exact List.nil_prefix
  | writeFailed es hserves hwritten =>
      rw [hserves.servable_cons]
      split <;> simp [hserves.requests_cons]
  | closed es hserves hwritten hpair result =>
      rw [hserves.servable_cons]
      split <;> simp [hserves.requests_cons]
  | next hserves hwritten hpair hrest ih =>
      rw [hserves.servable_cons, if_neg (by simp [hpair]), hserves.requests_cons]
      exact (List.prefix_cons_inj _).mpr ih

/-- When no write fails, a session serves its longest servable prefix. -/
theorem Session.served_all (h : Session peerSpki lastSeen sent es xs tail)
    (hwritten : ∀ x ∈ xs, x.written = .ok ()) :
    xs.map Exchange.request = requests (servable lastSeen es) := by
  induction h with
  | finished lastSeen sent => rfl
  | @replayed lastSeen sent e es hreplay written closed =>
      rw [servable, if_neg (UInt64.not_lt.mpr hreplay)]
      rfl
  | undecodable sent es hfresh hdecode written closed =>
      simp only [servable, if_pos hfresh, hdecode]
      rfl
  | @writeFailed lastSeen sent e es x hserves err herror =>
      simp [herror] at hwritten
  | closed es hserves hwritten' hpair result =>
      rw [hserves.servable_cons, if_pos hpair, hserves.requests_cons]
      rfl
  | next hserves hwritten' hpair hrest ih =>
      rw [hserves.servable_cons, if_neg (by simp [hpair]), hserves.requests_cons,
        List.map_cons, ih fun x hx => hwritten x (List.mem_cons_of_mem _ hx)]

/-- Every exchange of a session dispatches its own request. -/
theorem Session.dispatches (h : Session peerSpki lastSeen sent es xs tail) :
    ∀ x ∈ xs, x.Dispatches peerSpki := by
  induction h with
  | finished lastSeen sent => simp
  | replayed sent es hreplay written closed => simp
  | undecodable sent es hfresh hdecode written closed => simp
  | writeFailed es hserves hwritten => simpa using hserves.dispatches
  | closed es hserves hwritten hpair result => simpa using hserves.dispatches
  | next hserves hwritten hpair hrest ih =>
      intro x hx
      rcases List.mem_cons.mp hx with rfl | hlater
      · exact hserves.dispatches
      · exact ih x hlater

/-- The closing part of a session only writes and closes. -/
theorem Session.tail_not_local (h : Session peerSpki lastSeen sent es xs tail) :
    ∀ e ∈ tail, e.op.isLocal = false := by
  induction h with
  | finished lastSeen sent => simp
  | replayed sent es hreplay written closed => simp [errorAndClose, Op.isLocal]
  | undecodable sent es hfresh hdecode written closed => simp [errorAndClose, Op.isLocal]
  | writeFailed es hserves hwritten => simp
  | closed es hserves hwritten hpair result => simp [Op.isLocal]
  | next hserves hwritten hpair hrest ih => exact ih

/-- A failed write is the last operation of a session. -/
theorem Session.failed_last (h : Session peerSpki lastSeen sent es xs tail) :
    (∀ x ∈ xs.dropLast, x.written = .ok ()) ∧
      ((∃ x ∈ xs, x.written ≠ .ok ()) → tail = []) := by
  induction h with
  | finished lastSeen sent => simp
  | replayed sent es hreplay written closed => simp
  | undecodable sent es hfresh hdecode written closed => simp
  | writeFailed es hserves hwritten => simp
  | closed es hserves hwritten hpair result => simp [hwritten]
  | @next lastSeen sent e es x xs tail hserves hwritten hpair hrest ih =>
      constructor
      · intro y hy
        cases xs with
        | nil => simp at hy
        | cons x₁ xs =>
            rcases List.mem_cons.mp hy with rfl | hlater
            · exact hwritten
            · exact ih.1 y hlater
      · rintro ⟨y, hy, hfailed⟩
        rcases List.mem_cons.mp hy with rfl | hlater
        · exact absurd hwritten hfailed
        · exact ih.2 ⟨y, hlater, hfailed⟩

end Sessions

/-- An exchange answers its own request: an answer that names a request names this
one, and the answer closes the connection exactly when the message was `Pair`. -/
def Exchange.AnswersRequest (x : Exchange) : Prop :=
  (requestNonceOf x.response = none ∨ requestNonceOf x.response = some x.nonce) ∧
    responseClosesConnection x.response = isPair x.frame

theorem Exchange.Dispatches.answersRequest {x : Exchange} {peerSpki : SpkiHash}
    (h : x.Dispatches peerSpki) : x.AnswersRequest := by
  obtain ⟨_, _, _, -, hanswered⟩ := dispatch_answered h
  exact ⟨response_nonce hanswered, responseClosesConnection_eq hanswered⟩

/-- The log of the protocol loop, without its reads, is one exchange after the
other and a closing part that neither dispatches nor touches the contents.  An
exchange is one whole dispatch for the peer and then one write of its answer.  The
requests are those of the longest servable prefix of the envelopes in order; a
failed write only ends the list early. -/
theorem requests_served_once_in_order {W : Type} (answer : W → (o : Op) → Ans o × W) (w : W)
    (peerSpki : SpkiHash) (stream : PeerStream) (rounds reads : ℕ) :
    ∃ (served : List Envelope) (xs : List Exchange) (tail : List TaskEvent),
      IsLongestServable 0 stream.envelopes served ∧
      withoutReads (exec (withInbound (answering answer))
        (protocolLoop (stream.envelopes.length + 1 + rounds) (stream.reads.length + 1 + reads)
          peerSpki) (stream.inbound, w)).events = xs.flatMap Exchange.log ++ tail ∧
      (∀ x ∈ xs, x.Dispatches peerSpki ∧ x.AnswersRequest ∧ ∀ e ∈ x.events, e.op.isLocal = true) ∧
      (∀ e ∈ tail, e.op.isLocal = false) ∧
      xs.map Exchange.request <+: requests served ∧
      ((∀ x ∈ xs, x.written = .ok ()) → xs.map Exchange.request = requests served) ∧
      (∀ x ∈ xs.dropLast, x.written = .ok ()) ∧
      ((∃ x ∈ xs, x.written ≠ .ok ()) → tail = []) := by
  obtain ⟨xs, tail, hsession, hlog⟩ :=
    exec_protocolLoop answer peerSpki stream w rounds reads
  refine ⟨servable 0 stream.envelopes, xs, tail, servable_longest 0 _, hlog, ?_,
    hsession.tail_not_local, hsession.served, hsession.served_all, hsession.failed_last.1,
    hsession.failed_last.2⟩
  intro x hx
  have hdispatches := hsession.dispatches x hx
  exact ⟨hdispatches, hdispatches.answersRequest, Exchange.events_local hdispatches⟩

end Daemon
end WakeMyPc
