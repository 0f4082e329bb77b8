import WakeMyPc.Foundations.Program

/-!
# Programs whose operations fit their history

What an operation may be can depend on what its program has done before.  A
program is safe when every operation it performs, whatever answers it gets, is
allowed in the history it has by then.

Main results:

- Theorem `Prog.safe_bind`: the rule for a sequential composition.
- Theorem `Prog.safe_loop`: the rule for a loop with an invariant.
- Theorem `Prog.Safe.adds`: operations that are always allowed need no history.
- Theorems `Prog.Safe.performs` and `Prog.Safe.trace`: what can be said of every event that
  a safe program performs, and of what it returns.
- Theorems `Thread.Keeps.next` and `Thread.Keeps.perform`: a thread of a safe
  program stays safe step by step.
-/

namespace Foundations

variable {Op : Type} {Ans : Op → Type} {α β σ : Type}

namespace Prog

/-! ## Safe programs -/

section Safe

variable (P : List (Event Op Ans) → Op → Prop)

/-- Started in a history, the program performs only operations that `P` allows in the
history by then, and returns only in histories and with values of `Q`. -/
def Safe : Prog Op Ans α → List (Event Op Ans) → (List (Event Op Ans) → α → Prop) → Prop
  | .ret a, h, Q => Q h a
  | .call o k, h, Q => P h o ∧ ∀ r, Safe (k r) (h ++ [⟨o, r⟩]) Q
  | .stall, _, _ => True

variable {P}

/-- A composition is safe when its first part is, and its second part is wherever the
first part returns. -/
theorem safe_bind (p : Prog Op Ans α) (f : α → Prog Op Ans β) (h : List (Event Op Ans))
    (Q : List (Event Op Ans) → β → Prop) :
    (p >>= f).Safe P h Q ↔ p.Safe P h fun h' a => (f a).Safe P h' Q := by
  induction p generalizing h with
  | ret a => exact Iff.rfl
  | call o k ih => exact and_congr_right fun _ => forall_congr' fun r => ih r _
  | stall => exact Iff.rfl

/-- A composition that starts with one operation. -/
theorem safe_call_bind (o : Op) (f : Ans o → Prog Op Ans α) (h : List (Event Op Ans))
    (Q : List (Event Op Ans) → α → Prop) :
    ((.call o .ret : Prog Op Ans (Ans o)) >>= f).Safe P h Q ↔
      P h o ∧ ∀ r, (f r).Safe P (h ++ [⟨o, r⟩]) Q :=
  Iff.rfl

/-- Weaken what holds at the end. -/
theorem Safe.mono {p : Prog Op Ans α} {h : List (Event Op Ans)}
    {Q R : List (Event Op Ans) → α → Prop} (hp : p.Safe P h Q) (hQR : ∀ h a, Q h a → R h a) :
    p.Safe P h R := by
  induction p generalizing h with
  | ret a => exact hQR h a hp
  | call o k ih => exact ⟨hp.1, fun r => ih r (hp.2 r)⟩
  | stall => trivial

/-- A loop is safe when its body keeps an invariant. -/
theorem safe_loop {body : σ → Prog Op Ans (σ ⊕ α)} (I : List (Event Op Ans) → σ → Prop)
    {Q : List (Event Op Ans) → α → Prop}
    (hbody : ∀ h s, I h s → (body s).Safe P h fun h' result =>
      match result with
      | .inl s' => I h' s'
      | .inr a => Q h' a)
    (n : ℕ) {h : List (Event Op Ans)} {s : σ} (hI : I h s) : (loop body n s).Safe P h Q := by
  induction n generalizing h s with
  | zero => trivial
  | succ n ih =>
      rw [loop, safe_bind]
      refine (hbody h s hI).mono fun h' result hresult => ?_
      cases result with
      | inl s' => exact ih hresult
      | inr a => exact hresult

/-- A program whose operations are allowed in every history is safe, and adds only
such operations to its history. -/
theorem Safe.adds {R : Op → Prop} {p : Prog Op Ans α} {h₀ : List (Event Op Ans)}
    (hp : p.Safe (fun _ => R) h₀ fun _ _ => True) (hR : ∀ h o, R o → P h o)
    (h : List (Event Op Ans)) :
    p.Safe P h fun h' _ => ∃ events, h' = h ++ events ∧ ∀ e ∈ events, R e.op := by
  induction p generalizing h h₀ with
  | ret a => exact ⟨[], by simp, by simp⟩
  | stall => trivial
  | call o k ih =>
      refine ⟨hR h o hp.1, fun r => (ih r (hp.2 r) _).mono ?_⟩
      rintro h' a ⟨events, rfl, hevents⟩
      refine ⟨⟨o, r⟩ :: events, by simp, ?_⟩
      intro e he
      rcases List.mem_cons.mp he with rfl | he
      · exact hp.1
      · exact hevents e he

end Safe

/-! ## What a program can have performed -/

/-- The program can have performed exactly these events so far. -/
def Performs : Prog Op Ans α → List (Event Op Ans) → Prop
  | _, [] => True
  | .call o k, e :: events => ∃ r, e = ⟨o, r⟩ ∧ (k r).Performs events
  | _, _ :: _ => False

/-- What a program has performed when it returns is what it can perform. -/
theorem Trace.performs {p : Prog Op Ans α} {events : List (Event Op Ans)} {a : α}
    (h : p.Trace events a) : p.Performs events := by
  induction p generalizing events with
  | ret b =>
      obtain ⟨rfl, -⟩ := h
      trivial
  | call o k ih =>
      obtain ⟨r, rest, rfl, h⟩ := h
      exact ⟨r, rfl, ih r h⟩
  | stall => exact h.elim

variable {P : List (Event Op Ans) → Op → Prop} {Q : List (Event Op Ans) → α → Prop}

/-- Every event that a safe program can perform is allowed where it is performed. -/
theorem Safe.performs {p : Prog Op Ans α} {h events : List (Event Op Ans)} (hp : p.Safe P h Q)
    (hevents : p.Performs events) :
    ∀ front e back, events = front ++ e :: back → P (h ++ front) e.op := by
  induction p generalizing h events with
  | ret a =>
      rintro front e back rfl
      cases front <;> exact hevents.elim
  | stall =>
      rintro front e back rfl
      cases front <;> exact hevents.elim
  | call o k ih =>
      rintro front e back rfl
      cases front with
      | nil =>
          obtain ⟨r, rfl, -⟩ := hevents
          rw [List.append_nil]
          exact hp.1
      | cons x front =>
          obtain ⟨r, rfl, hrest⟩ := hevents
          have hlater := ih r (hp.2 r) hrest front e back rfl
          rwa [List.append_assoc] at hlater

/-- A safe program returns only where it may. -/
theorem Safe.trace {p : Prog Op Ans α} {h events : List (Event Op Ans)} {a : α}
    (hp : p.Safe P h Q) (htrace : p.Trace events a) : Q (h ++ events) a := by
  induction p generalizing h events with
  | ret b =>
      obtain ⟨rfl, rfl⟩ := htrace
      rw [List.append_nil]
      exact hp
  | call o k ih =>
      obtain ⟨r, rest, rfl, hrest⟩ := htrace
      have hlater := ih r (hp.2 r) hrest
      rwa [List.append_assoc] at hlater
  | stall => exact htrace.elim

end Prog

section Obeys

variable {Op : Type} {Ans : Op → Type} {P : List (Event Op Ans) → Op → Prop}

variable (P) in
/-- Every operation of a history was allowed when it was performed. -/
def Obeys (h : List (Event Op Ans)) : Prop :=
  ∀ front e back, h = front ++ e :: back → P front e.op

theorem obeys_nil : Obeys P [] := by
  intro front e back hsplit
  simp at hsplit

theorem Obeys.concat {h : List (Event Op Ans)} (hobeys : Obeys P h) {e : Event Op Ans}
    (he : P h e.op) : Obeys P (h ++ [e]) := by
  intro front e' back hsplit
  rcases List.eq_nil_or_concat back with rfl | ⟨back, last, rfl⟩
  · obtain ⟨rfl, heq⟩ := List.append_inj' hsplit rfl
    obtain rfl := List.head_eq_of_cons_eq heq
    exact he
  · rw [List.concat_eq_append, ← List.cons_append, ← List.append_assoc] at hsplit
    exact hobeys front e' back (List.append_inj' hsplit rfl).1

end Obeys

/-! ## Threads -/

/-- A program that is being performed: what it has done, and what is left. -/
structure Thread (Op : Type) (Ans : Op → Type) (κ : Type) where
  kind : κ
  done : List (Event Op Ans)
  rest : Prog Op Ans Unit

namespace Thread

variable {κ W : Type}

/-- The operation that a thread performs next. -/
def next (t : Thread Op Ans κ) : Option Op :=
  match t.rest with
  | .call o _ => some o
  | _ => none

/-- Perform the next operation, if it is answered. -/
def perform (t : Thread Op Ans κ) (answer : (o : Op) → Option (Ans o × W)) :
    Option (Event Op Ans × Thread Op Ans κ × W) :=
  match t.rest with
  | .call o k => (answer o).map fun result =>
      (⟨o, result.1⟩, { t with done := t.done ++ [⟨o, result.1⟩], rest := k result.1 }, result.2)
  | _ => none

/-- What one step of a thread does. -/
theorem perform_eq_some {t t' : Thread Op Ans κ} {answer : (o : Op) → Option (Ans o × W)}
    {e : Event Op Ans} {w : W} (h : t.perform answer = some (e, t', w)) :
    ∃ k, t.rest = .call e.op k ∧ answer e.op = some (e.ans, w) ∧
      t' = { t with done := t.done ++ [e], rest := k e.ans } := by
  unfold perform at h
  split at h
  · next o k hrest =>
      obtain ⟨⟨r, w'⟩, hanswer, heq⟩ := Option.map_eq_some_iff.mp h
      cases heq
      exact ⟨k, hrest, hanswer, rfl⟩
  · simp at h

theorem next_of_perform {t t' : Thread Op Ans κ} {answer : (o : Op) → Option (Ans o × W)}
    {e : Event Op Ans} {w : W} (h : t.perform answer = some (e, t', w)) :
    t.next = some e.op := by
  obtain ⟨k, hrest, -⟩ := perform_eq_some h
  rw [next, hrest]

/-- The rest of the thread is safe in the history of the thread. -/
def Keeps (P : List (Event Op Ans) → Op → Prop) (t : Thread Op Ans κ) : Prop :=
  t.rest.Safe P t.done fun _ _ => True

variable {P : List (Event Op Ans) → Op → Prop}

/-- The next operation of a safe thread is allowed. -/
theorem Keeps.next {t : Thread Op Ans κ} (h : t.Keeps P) {o : Op} (ho : t.next = some o) :
    P t.done o := by
  unfold Thread.next at ho
  split at ho
  · next o' k hrest =>
      obtain rfl := Option.some.inj ho
      rw [Keeps, hrest] at h
      exact h.1
  · simp at ho

/-- A safe thread stays safe. -/
theorem Keeps.perform {t t' : Thread Op Ans κ} (h : t.Keeps P)
    {answer : (o : Op) → Option (Ans o × W)} {e : Event Op Ans} {w : W}
    (hperform : t.perform answer = some (e, t', w)) : t'.Keeps P := by
  obtain ⟨k, hrest, -, rfl⟩ := perform_eq_some hperform
  rw [Keeps, hrest] at h
  exact h.2 e.ans

end Thread
end Foundations
