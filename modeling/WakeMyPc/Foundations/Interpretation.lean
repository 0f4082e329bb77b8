import WakeMyPc.Foundations.History

/-!
# Operations that are carried out by programs

The operations of one signature can be carried out by programs over another one.  A
program over the first signature then becomes one over the second, and what it performs
there is what the programs of its operations perform, one after the other.

Main results:

- Theorem `Prog.awaits_interpret`: the next operation of a program that is carried out.
- Theorem `Prog.Safe.interpreted`: what carries out allowed operations is allowed.
-/

namespace Foundations
namespace Prog

variable {Op Op' : Type} {Ans : Op → Type} {Ans' : Op' → Type} {α β σ : Type}

/-! ## Carrying out operations -/

/-- Carry out each operation by a program. -/
def interpret (handler : (o : Op) → Prog Op' Ans' (Ans o)) : Prog Op Ans α → Prog Op' Ans' α
  | .ret a => .ret a
  | .call o k => handler o >>= fun r => interpret handler (k r)
  | .stall => .stall

variable {handler : (o : Op) → Prog Op' Ans' (Ans o)}

theorem interpret_call (o : Op) (k : Ans o → Prog Op Ans α) :
    interpret handler (.call o k) = handler o >>= fun r => interpret handler (k r) :=
  rfl

theorem bind_ret (p : Prog Op Ans α) : p >>= .ret = p := by
  induction p with
  | ret a => rfl
  | call o k ih => exact congrArg (Prog.call o) (funext ih)
  | stall => rfl

theorem bind_assoc (p : Prog Op Ans α) (f : α → Prog Op Ans β) (g : β → Prog Op Ans σ) :
    p >>= f >>= g = p >>= fun a => f a >>= g := by
  induction p with
  | ret a => rfl
  | call o k ih => exact congrArg (Prog.call o) (funext ih)
  | stall => rfl

/-! ## What is left of a program -/

/-- After these events, this is left of the program. -/
def Leads : Prog Op Ans α → List (Event Op Ans) → Prog Op Ans α → Prop
  | p, [], q => p = q
  | .call o k, e :: es, q => ∃ r, e = ⟨o, r⟩ ∧ (k r).Leads es q
  | _, _ :: _, _ => False

/-- After these events, this is the next operation of the program. -/
def Awaits (p : Prog Op Ans α) (es : List (Event Op Ans)) (o : Op) : Prop :=
  ∃ k, p.Leads es (.call o k)

@[simp]
theorem leads_nil {p q : Prog Op Ans α} : p.Leads [] q ↔ p = q := by
  cases p <;> exact Iff.rfl

theorem Leads.concat {p : Prog Op Ans α} {es : List (Event Op Ans)} {o : Op}
    {k : Ans o → Prog Op Ans α} (h : p.Leads es (.call o k)) (r : Ans o) :
    p.Leads (es ++ [⟨o, r⟩]) (k r) := by
  induction es generalizing p with
  | nil =>
      obtain rfl := leads_nil.mp h
      exact ⟨r, rfl, leads_nil.mpr rfl⟩
  | cons e es ih =>
      cases p with
      | ret a => exact h.elim
      | call o' k' =>
          obtain ⟨r', rfl, hrest⟩ := h
          exact ⟨r', rfl, ih hrest⟩
      | stall => exact h.elim

theorem performs_nil (p : Prog Op Ans α) : p.Performs [] := by
  cases p <;> trivial

/-- What leads to the rest of a program, the program can have performed. -/
theorem Leads.performs {p q : Prog Op Ans α} {es : List (Event Op Ans)} (h : p.Leads es q) :
    p.Performs es := by
  induction es generalizing p with
  | nil => exact performs_nil p
  | cons e es ih =>
      cases p with
      | ret a => exact h.elim
      | call o k =>
          obtain ⟨r, rfl, hrest⟩ := h
          exact ⟨r, rfl, ih hrest⟩
      | stall => exact h.elim

/-! ## What is performed -/

/-- The events `tr` carry out the events `es`, one after the other. -/
inductive Carries (handler : (o : Op) → Prog Op' Ans' (Ans o)) :
    List (Event Op Ans) → List (Event Op' Ans') → Prop where
  | nil : Carries handler [] []
  | cons {e : Event Op Ans} {es : List (Event Op Ans)} {front back : List (Event Op' Ans')}
      (hfirst : (handler e.op).Trace front e.ans) (hrest : Carries handler es back) :
      Carries handler (e :: es) (front ++ back)

/-- The next operation of a composition is one of its first part, or one of its second part
when the first part has finished. -/
theorem awaits_bind {p : Prog Op Ans α} {f : α → Prog Op Ans β} {tr : List (Event Op Ans)} {o : Op}
    (h : (p >>= f).Awaits tr o) :
    p.Awaits tr o ∨ ∃ front back a, tr = front ++ back ∧ p.Trace front a ∧ (f a).Awaits back o := by
  induction p generalizing tr with
  | ret a => exact .inr ⟨[], tr, a, rfl, ⟨rfl, rfl⟩, h⟩
  | call o' k ih =>
      obtain ⟨k', hleads⟩ := h
      cases tr with
      | nil =>
          cases leads_nil.mp hleads
          exact .inl ⟨k, rfl⟩
      | cons e tr =>
          obtain ⟨r, rfl, hrest⟩ := hleads
          rcases ih r ⟨k', hrest⟩ with ⟨k'', hfirst⟩ | ⟨front, back, a, rfl, htrace, hawaits⟩
          · exact .inl ⟨k'', r, rfl, hfirst⟩
          · exact .inr ⟨⟨o', r⟩ :: front, back, a, rfl, ⟨r, front, rfl, htrace⟩, hawaits⟩
  | stall =>
      obtain ⟨k', hleads⟩ := h
      cases tr with
      | nil => cases leads_nil.mp hleads
      | cons e tr => exact hleads.elim

/-- The next operation of a program that is carried out is one of the operation that it
carries out, after the operations that it has finished. -/
theorem awaits_interpret {p : Prog Op Ans α} {tr : List (Event Op' Ans')} {o' : Op'}
    (h : (interpret handler p).Awaits tr o') :
    ∃ es front back o, tr = front ++ back ∧ Carries handler es front ∧ p.Awaits es o ∧
      (handler o).Awaits back o' := by
  induction p generalizing tr with
  | ret a =>
      obtain ⟨k', hleads⟩ := h
      cases tr with
      | nil => cases leads_nil.mp hleads
      | cons e tr => exact hleads.elim
  | call o k ih =>
      rcases awaits_bind h with hfirst | ⟨front, back, r, rfl, hfront, hback⟩
      · exact ⟨[], [], tr, o, rfl, .nil, ⟨k, rfl⟩, hfirst⟩
      · obtain ⟨es, front', back', o'', rfl, hcarries, ⟨k', hleads⟩, hlast⟩ := ih r hback
        exact ⟨⟨o, r⟩ :: es, front ++ front', back', o'', by simp, .cons hfront hcarries,
          ⟨k', r, rfl, hleads⟩, hlast⟩
  | stall =>
      obtain ⟨k', hleads⟩ := h
      cases tr with
      | nil => cases leads_nil.mp hleads
      | cons e tr => exact hleads.elim

/-! ## Safe programs -/

variable {P : List (Event Op Ans) → Op → Prop} {Q : List (Event Op Ans) → α → Prop}

/-- What is left of a safe program is safe. -/
theorem Safe.leads {p q : Prog Op Ans α} {h es : List (Event Op Ans)} (hp : p.Safe P h Q)
    (hleads : p.Leads es q) : q.Safe P (h ++ es) Q := by
  induction es generalizing p h with
  | nil =>
      obtain rfl := leads_nil.mp hleads
      rwa [List.append_nil]
  | cons e es ih =>
      cases p with
      | ret a => exact hleads.elim
      | call o k =>
          obtain ⟨r, rfl, hrest⟩ := hleads
          have hlater := ih (hp.2 r) hrest
          rwa [List.append_assoc] at hlater
      | stall => exact hleads.elim

/-- The next operation of a safe program is allowed. -/
theorem Safe.awaits {p : Prog Op Ans α} {h es : List (Event Op Ans)} (hp : p.Safe P h Q) {o : Op}
    (hawaits : p.Awaits es o) : P (h ++ es) o := by
  obtain ⟨k, hleads⟩ := hawaits
  exact (hp.leads hleads).1

/-- A program is safe in the other signature when each operation keeps an invariant there. -/
theorem safe_interpret {P : List (Event Op' Ans') → Op' → Prop} {I : List (Event Op' Ans') → Prop}
    (hhandler : ∀ o h, I h → (handler o).Safe P h fun h' _ => I h') (p : Prog Op Ans α)
    {h : List (Event Op' Ans')} (hI : I h) :
    (interpret handler p).Safe P h fun h' _ => I h' := by
  induction p generalizing h with
  | ret a => exact hI
  | call o k ih =>
      rw [interpret_call, safe_bind]
      exact (hhandler o h hI).mono fun h' r hI' => ih r hI'
  | stall => trivial

/-- Each finished operation has its events. -/
theorem Carries.events {es : List (Event Op Ans)} {tr : List (Event Op' Ans')}
    (h : Carries handler es tr) {x : Event Op Ans} (hx : x ∈ es) :
    ∃ events, (handler x.op).Trace events x.ans ∧ ∀ e ∈ events, e ∈ tr := by
  induction h with
  | nil => cases hx
  | cons hfirst hrest ih =>
      rcases List.mem_cons.mp hx with rfl | hx
      · exact ⟨_, hfirst, fun e he => List.mem_append_left _ he⟩
      · obtain ⟨events, htrace, hmem⟩ := ih hx
        exact ⟨events, htrace, fun e he => List.mem_append_right _ (hmem e he)⟩

/-- Operations that are allowed are carried out by operations that are allowed in every
history. -/
theorem Safe.interpreted {P' : List (Event Op' Ans') → Op' → Prop} {p : Prog Op Ans α}
    {h : List (Event Op Ans)} (hp : p.Safe P h Q)
    (hhandler : ∀ h o, P h o → ∀ h', (handler o).Safe P' h' fun _ _ => True)
    (h' : List (Event Op' Ans')) : (Prog.interpret handler p).Safe P' h' fun _ _ => True := by
  induction p generalizing h h' with
  | ret a => trivial
  | call o k ih =>
      rw [interpret_call, safe_bind]
      exact (hhandler h o hp.1 h').mono fun h'' r _ => ih r (hp.2 r) h''
  | stall => trivial

/-- What a safe program has performed when it returns is one of its traces. -/
theorem Safe.traced {p : Prog Op Ans α} {h : List (Event Op Ans)} (hp : p.Safe P h Q) :
    p.Safe P h fun h' a => Q h' a ∧ ∃ events, h' = h ++ events ∧ p.Trace events a := by
  induction p generalizing h with
  | ret a => exact ⟨hp, [], (List.append_nil h).symm, rfl, rfl⟩
  | call o k ih =>
      refine ⟨hp.1, fun r => (ih r (hp.2 r)).mono ?_⟩
      rintro h' a ⟨hQ, events, rfl, htrace⟩
      exact ⟨hQ, ⟨o, r⟩ :: events, List.append_cons .. |>.symm, r, events, rfl, htrace⟩
  | stall => trivial

theorem Uses.mono {R R' : Op → Prop} {p : Prog Op Ans α} (hp : p.Uses R) (h : ∀ o, R o → R' o) :
    p.Uses R' := by
  induction p with
  | ret a => trivial
  | call o k ih => exact ⟨h o hp.1, fun r => ih r (hp.2 r)⟩
  | stall => exact hp.elim

/-- Operations that are always allowed are safe. -/
theorem Uses.safe {R : Op → Prop} {p : Prog Op Ans α} (hp : p.Uses R)
    (hR : ∀ h o, R o → P h o) (h : List (Event Op Ans)) : p.Safe P h fun _ _ => True := by
  induction p generalizing h with
  | ret a => trivial
  | call o k ih => exact ⟨hR h o hp.1, fun r => ih r (hp.2 r) _⟩
  | stall => trivial

end Prog

/-! ## Threads -/

/-- The thread has performed part of a program and goes on with the rest, unless it was cut
off. -/
def Thread.Follows {Op κ : Type} {Ans : Op → Type} (t : Thread Op Ans κ) (p : Prog Op Ans Unit) :
    Prop :=
  p.Performs t.done ∧ (t.rest = .stall ∨ p.Leads t.done t.rest)

theorem Thread.kind_of_perform {Op κ W : Type} {Ans : Op → Type} {t t' : Thread Op Ans κ}
    {answer : (o : Op) → Option (Ans o × W)} {e : Event Op Ans} {w : W}
    (hperform : t.perform answer = some (e, t', w)) : t'.kind = t.kind := by
  obtain ⟨k, -, -, rfl⟩ := perform_eq_some hperform
  rfl

theorem Thread.done_of_perform {Op κ W : Type} {Ans : Op → Type} {t t' : Thread Op Ans κ}
    {answer : (o : Op) → Option (Ans o × W)} {e : Event Op Ans} {w : W}
    (hperform : t.perform answer = some (e, t', w)) : t'.done = t.done ++ [e] := by
  obtain ⟨k, -, -, rfl⟩ := perform_eq_some hperform
  rfl

theorem Thread.Follows.perform {Op κ W : Type} {Ans : Op → Type} {t t' : Thread Op Ans κ}
    {p : Prog Op Ans Unit} (h : t.Follows p) {answer : (o : Op) → Option (Ans o × W)}
    {e : Event Op Ans} {w : W} (hperform : t.perform answer = some (e, t', w)) : t'.Follows p := by
  obtain ⟨k, hrest, -, rfl⟩ := perform_eq_some hperform
  have hleads : p.Leads t.done (.call e.op k) := by
    rcases h.2 with hstall | hleads
    · rw [hstall] at hrest
      cases hrest
    · exact hrest ▸ hleads
  exact ⟨(hleads.concat e.ans).performs, .inr (hleads.concat e.ans)⟩

end Foundations
