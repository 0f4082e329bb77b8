import WakeMyPc.Foundations.Interpretation
import Mathlib.Data.Sum.Basic

/-!
# Programs in lockstep

Two programs are in lockstep when they show the same at every operation for as long as they are
told the same: they perform operations that look alike, and go on so after answers that are
alike.

Main results:

- Theorems `Prog.lockstep_bind` and `Prog.lockstep_loop`: compositions and loops are in lockstep
  part by part.
- Theorem `Prog.lockstep_self`: a program is in lockstep with itself when its answers are alike
  only if they are equal.
- Theorem `Prog.Lockstep.next`: what programs in lockstep perform next.
-/

namespace Foundations
namespace Prog

variable {Op : Type} {Ans : Op → Type} {α α' β β' σ τ : Type}

-- which operations look alike, and which events are answered alike
variable (E : Op → Op → Prop) (R : Event Op Ans → Event Op Ans → Prop)

/-- The programs perform operations that look alike for as long as they are answered alike, and
then return related values. -/
def Lockstep (Q : α → β → Prop) : Prog Op Ans α → Prog Op Ans β → Prop
  | .ret a, .ret b => Q a b
  | .stall, .stall => True
  | .call o k, .call o' k' =>
      E o o' ∧ ∀ r r', R ⟨o, r⟩ ⟨o', r'⟩ → Lockstep Q (k r) (k' r')
  | _, _ => False

variable {E R}

/-- Compositions are in lockstep part by part. -/
theorem lockstep_bind {Q : α → α' → Prop} {Q' : β → β' → Prop} {p : Prog Op Ans α}
    {p' : Prog Op Ans α'} {f : α → Prog Op Ans β} {f' : α' → Prog Op Ans β'}
    (hp : Lockstep E R Q p p') (hf : ∀ a a', Q a a' → Lockstep E R Q' (f a) (f' a')) :
    Lockstep E R Q' (p >>= f) (p' >>= f') := by
  induction p generalizing p' with
  | ret a =>
      cases p' with
      | ret a' => exact hf a a' hp
      | call o' k' => exact hp.elim
      | stall => exact hp.elim
  | call o k ih =>
      cases p' with
      | ret a' => exact hp.elim
      | call o' k' => exact ⟨hp.1, fun r r' hr => ih r (hp.2 r r' hr)⟩
      | stall => exact hp.elim
  | stall =>
      cases p' with
      | ret a' => exact hp.elim
      | call o' k' => exact hp.elim
      | stall => trivial

theorem Lockstep.mono {Q Q' : α → β → Prop} {p : Prog Op Ans α} {q : Prog Op Ans β}
    (h : Lockstep E R Q p q) (hQ : ∀ a b, Q a b → Q' a b) : Lockstep E R Q' p q := by
  induction p generalizing q with
  | ret a =>
      cases q with
      | ret b => exact hQ a b h
      | call o k => exact h.elim
      | stall => exact h.elim
  | call o k ih =>
      cases q with
      | ret b => exact h.elim
      | call o' k' => exact ⟨h.1, fun r r' hr => ih r (h.2 r r' hr)⟩
      | stall => exact h.elim
  | stall =>
      cases q with
      | ret b => exact h.elim
      | call o k => exact h.elim
      | stall => trivial

/-- Loops are in lockstep when their rounds are. -/
theorem lockstep_loop {Q : α → α' → Prop} (I : σ → τ → Prop) {body : σ → Prog Op Ans (σ ⊕ α)}
    {body' : τ → Prog Op Ans (τ ⊕ α')}
    (hbody : ∀ s s', I s s' → Lockstep E R (Sum.LiftRel I Q) (body s) (body' s')) (n : ℕ) {s : σ}
    {s' : τ} (hI : I s s') : Lockstep E R Q (loop body n s) (loop body' n s') := by
  induction n generalizing s s' with
  | zero => trivial
  | succ n ih =>
      refine lockstep_bind (hbody s s' hI) fun result result' hresult => ?_
      cases hresult with
      | inl hI' => exact ih hI'
      | inr hQ => exact hQ

/-- A program is in lockstep with itself when each of its operations looks like itself, and has
no two answers that are alike. -/
theorem lockstep_self {P : List (Event Op Ans) → Op → Prop}
    {Q : List (Event Op Ans) → α → Prop} {p : Prog Op Ans α} {h : List (Event Op Ans)}
    (hp : p.Safe P h Q)
    (hP : ∀ h o, P h o → E o o ∧ ∀ r r', R ⟨o, r⟩ ⟨o, r'⟩ → r = r') : Lockstep E R Eq p p := by
  induction p generalizing h with
  | ret a => rfl
  | call o k ih =>
      obtain ⟨hlook, halike⟩ := hP h o hp.1
      refine ⟨hlook, fun r r' hr => ?_⟩
      obtain rfl := halike r r' hr
      exact ih r (hp.2 r)
  | stall => trivial

/-- What is left of programs in lockstep, after events that were answered alike. -/
theorem Lockstep.leads {Q : α → β → Prop} {p q : Prog Op Ans α} {p' q' : Prog Op Ans β}
    {es es' : List (Event Op Ans)} (hp : Lockstep E R Q p p') (hes : List.Forall₂ R es es')
    (hleads : p.Leads es q) (hleads' : p'.Leads es' q') : Lockstep E R Q q q' := by
  induction hes generalizing p p' with
  | nil =>
      obtain rfl := leads_nil.mp hleads
      obtain rfl := leads_nil.mp hleads'
      exact hp
  | @cons e e' es es' he _ ih =>
      cases p with
      | ret a => exact hleads.elim
      | stall => exact hleads.elim
      | call o k =>
          cases p' with
          | ret a => exact hleads'.elim
          | stall => exact hleads'.elim
          | call o' k' =>
              obtain ⟨r, rfl, hrest⟩ := hleads
              obtain ⟨r', rfl, hrest'⟩ := hleads'
              exact ih (hp.2 r r' he) hrest hrest'

/-- What a program has performed next. -/
theorem awaits_of_performs {p : Prog Op Ans α} {front back : List (Event Op Ans)}
    {e : Event Op Ans} (h : p.Performs (front ++ e :: back)) : p.Awaits front e.op := by
  induction front generalizing p with
  | nil =>
      cases p with
      | ret a => exact h.elim
      | call o k =>
          obtain ⟨r, rfl, -⟩ := h
          exact ⟨k, leads_nil.mpr rfl⟩
      | stall => exact h.elim
  | cons x front ih =>
      cases p with
      | ret a => exact h.elim
      | call o k =>
          obtain ⟨r, rfl, hrest⟩ := h
          obtain ⟨k', hleads⟩ := ih hrest
          exact ⟨k', r, rfl, hleads⟩
      | stall => exact h.elim

/-- The next operations of programs in lockstep look alike. -/
theorem Lockstep.next {Q : α → β → Prop} {p : Prog Op Ans α} {p' : Prog Op Ans β}
    {es es' : List (Event Op Ans)} {o o' : Op} (hp : Lockstep E R Q p p')
    (hes : List.Forall₂ R es es') (hawaits : p.Awaits es o) (hawaits' : p'.Awaits es' o') :
    E o o' := by
  obtain ⟨k, hleads⟩ := hawaits
  obtain ⟨k', hleads'⟩ := hawaits'
  exact (hp.leads hes hleads hleads').1

end Prog
end Foundations
