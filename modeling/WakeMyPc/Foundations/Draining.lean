import WakeMyPc.Foundations.History

/-!
# Programs that end soon

Some programs go on for as long as their environment wants, but come to an end soon once it
answers in a certain way.

Main results:

- Theorems `Prog.EndsWithin.bind` and `Prog.DrainsWithin.bind`: the rules for a sequential
  composition.
- Theorems `Prog.endsWithin_loop` and `Prog.drainsWithin_loop`: the rules for a loop.
- Theorem `Prog.lasts_loop`: a loop lasts for as many operations as it has rounds.
- Theorems `Thread.drains_of_perform` and `Thread.ends_of_perform`: the steps of a thread.
-/

namespace Foundations

variable {Op : Type} {Ans : Op → Type} {α β σ : Type} (R : (o : Op) → Ans o → Prop)

namespace Prog

/-- When all its operations are answered as `R` says, the program ends after at most `n` of
them, and with a value of `Q`. -/
def EndsWithin : ℕ → (α → Prop) → Prog Op Ans α → Prop
  | _, Q, .ret a => Q a
  | _, _, .stall => True
  | 0, _, .call _ _ => False
  | n + 1, Q, .call o k => ∀ r, R o r → EndsWithin n Q (k r)

/-- Wherever the program is, it ends after at most `n` more operations that are answered as
`R` says. -/
def DrainsWithin (n : ℕ) : Prog Op Ans α → Prop
  | .ret _ => True
  | .stall => True
  | .call o k => EndsWithin R n (fun _ => True) (.call o k) ∧ ∀ r, DrainsWithin n (k r)

variable {R}

@[simp]
theorem endsWithin_ret (n : ℕ) (Q : α → Prop) (a : α) :
    EndsWithin R n Q (.ret a : Prog Op Ans α) ↔ Q a := by
  cases n <;> exact Iff.rfl

@[simp]
theorem endsWithin_stall (n : ℕ) (Q : α → Prop) :
    EndsWithin R n Q (.stall : Prog Op Ans α) := by
  cases n <;> trivial

theorem EndsWithin.mono {m n : ℕ} {Q Q' : α → Prop} {p : Prog Op Ans α}
    (hp : p.EndsWithin R m Q) (hmn : m ≤ n) (hQ : ∀ a, Q a → Q' a) : p.EndsWithin R n Q' := by
  induction p generalizing m n with
  | ret a => exact (endsWithin_ret n Q' a).mpr (hQ a ((endsWithin_ret m Q a).mp hp))
  | stall => exact endsWithin_stall n Q'
  | call o k ih =>
      cases m with
      | zero => exact hp.elim
      | succ m =>
          cases n with
          | zero => omega
          | succ n => exact fun r hr => ih r (hp r hr) (by omega)

/-- A composition ends when its parts do. -/
theorem EndsWithin.bind {m n : ℕ} {Q : α → Prop} {Q' : β → Prop} {p : Prog Op Ans α}
    {f : α → Prog Op Ans β} (hp : p.EndsWithin R m Q) (hf : ∀ a, Q a → (f a).EndsWithin R n Q') :
    (p >>= f).EndsWithin R (m + n) Q' := by
  induction p generalizing m with
  | ret a =>
      exact (hf a ((endsWithin_ret m Q a).mp hp)).mono (Nat.le_add_left n m) fun _ h => h
  | stall => exact endsWithin_stall _ _
  | call o k ih =>
      cases m with
      | zero => exact hp.elim
      | succ m =>
          rw [Nat.succ_add]
          exact fun r hr => ih r (hp r hr)

theorem DrainsWithin.ends {n : ℕ} {p : Prog Op Ans α} (hp : p.DrainsWithin R n) :
    p.EndsWithin R n fun _ => True := by
  cases p with
  | ret a => exact (endsWithin_ret n _ a).mpr trivial
  | stall => exact endsWithin_stall n _
  | call o k => exact hp.1

theorem DrainsWithin.mono {m n : ℕ} {p : Prog Op Ans α} (hp : p.DrainsWithin R m)
    (hmn : m ≤ n) : p.DrainsWithin R n := by
  induction p with
  | ret a => trivial
  | stall => trivial
  | call o k ih => exact ⟨hp.1.mono hmn fun _ h => h, fun r => ih r (hp.2 r)⟩

/-- A composition drains when its parts do; while the first part drains, the second one is
still to come. -/
theorem DrainsWithin.bind {l m n : ℕ} {p : Prog Op Ans α} {f : α → Prog Op Ans β}
    (hp : p.DrainsWithin R m) (hends : ∀ a, (f a).EndsWithin R n fun _ => True)
    (hf : ∀ a, (f a).DrainsWithin R l) (hl : m + n ≤ l) : (p >>= f).DrainsWithin R l := by
  induction p with
  | ret a => exact hf a
  | stall => trivial
  | call o k ih =>
      exact ⟨(hp.1.bind fun a _ => hends a).mono hl fun _ h => h, fun r => ih r (hp.2 r)⟩

/-- One operation before a program that drains. -/
theorem drainsWithin_call {n : ℕ} {o : Op} {k : Ans o → Prog Op Ans α}
    (hk : ∀ r, (k r).DrainsWithin R n) :
    (.call o k : Prog Op Ans α).DrainsWithin R (n + 1) :=
  ⟨fun r _ => (hk r).ends, fun r => (hk r).mono (Nat.le_succ n)⟩

/-- A loop whose round ends it ends with the round. -/
theorem endsWithin_loop {n : ℕ} {body : σ → Prog Op Ans (σ ⊕ α)} {s : σ}
    (hbody : (body s).EndsWithin R n fun result => result.isRight = true) (k : ℕ) :
    (loop body k s).EndsWithin R n fun _ => True := by
  cases k with
  | zero => exact endsWithin_stall n _
  | succ k =>
      refine hbody.bind (n := 0) fun result hresult => ?_
      cases result with
      | inl s' => cases hresult
      | inr a => trivial

/-- A loop drains when its rounds do, and a round that starts ends the loop. -/
theorem drainsWithin_loop {m n : ℕ} {body : σ → Prog Op Ans (σ ⊕ α)}
    (hends : ∀ s, (body s).EndsWithin R n fun result => result.isRight = true)
    (hbody : ∀ s, (body s).DrainsWithin R m) (k : ℕ) (s : σ) :
    (loop body k s).DrainsWithin R (m + n) := by
  induction k generalizing s with
  | zero => trivial
  | succ k ih =>
      refine (hbody s).bind (n := n) (fun result => ?_) (fun result => ?_) (Nat.le_refl _)
      · cases result with
        | inl s' => exact endsWithin_loop (hends s') k
        | inr a => exact (endsWithin_ret n _ a).mpr trivial
      · cases result with
        | inl s' => exact ih s'
        | inr a => trivial

/-- The program does not give up before it has performed `n` operations. -/
def Lasts : ℕ → Prog Op Ans α → Prop
  | 0, _ => True
  | _ + 1, .ret _ => True
  | _ + 1, .stall => False
  | n + 1, .call _ k => ∀ r, Lasts n (k r)

@[simp]
theorem lasts_ret (n : ℕ) (a : α) : Lasts n (.ret a : Prog Op Ans α) := by
  cases n <;> trivial

theorem lasts_call {n : ℕ} {o : Op} {k : Ans o → Prog Op Ans α} (hk : ∀ r, (k r).Lasts n) :
    (.call o k : Prog Op Ans α).Lasts n := by
  induction n generalizing o k with
  | zero => trivial
  | succ n ih =>
      intro r
      have hr := hk r
      cases hp : k r with
      | ret a => exact lasts_ret n a
      | stall =>
          rw [hp] at hr
          exact hr.elim
      | call o' k' =>
          rw [hp] at hr
          exact ih hr

theorem Lasts.mono {m n : ℕ} {p : Prog Op Ans α} (hp : p.Lasts n) (hmn : m ≤ n) :
    p.Lasts m := by
  induction p generalizing m n with
  | ret a => exact lasts_ret m a
  | stall =>
      cases m with
      | zero => trivial
      | succ m =>
          cases n with
          | zero => omega
          | succ n => exact hp
  | call o k ih =>
      cases m with
      | zero => trivial
      | succ m =>
          cases n with
          | zero => omega
          | succ n => exact fun r => ih r (hp r) (by omega)

theorem Lasts.bind {n : ℕ} {p : Prog Op Ans α} {f : α → Prog Op Ans β} (hp : p.Lasts n)
    (hf : ∀ a, (f a).Lasts n) : (p >>= f).Lasts n := by
  induction p generalizing n with
  | ret a => exact hf a
  | stall =>
      cases n with
      | zero => trivial
      | succ n => exact hp.elim
  | call o k ih =>
      cases n with
      | zero => trivial
      | succ n => exact fun r => ih r (hp r) fun a => (hf a).mono (Nat.le_succ n)

/-- A loop gives up only when its rounds are used up, and each of them performs something. -/
theorem lasts_loop {body : σ → Prog Op Ans (σ ⊕ α)}
    (hbody : ∀ s, ∃ o k, body s = .call o k ∧ ∀ r n, (k r).Lasts n) (n : ℕ) (s : σ) :
    (loop body n s).Lasts n := by
  induction n generalizing s with
  | zero => trivial
  | succ n ih =>
      obtain ⟨o, k, hfirst, hrest⟩ := hbody s
      rw [loop, hfirst]
      refine fun r => (hrest r n).bind fun result => ?_
      cases result with
      | inl s' => exact ih s'
      | inr a => exact lasts_ret n a

end Prog

/-! ## Threads -/

namespace Thread

variable {κ W : Type} {R}

/-- What is left of a program that drains, drains. -/
theorem drains_of_perform {n : ℕ} {t t' : Thread Op Ans κ} (ht : t.rest.DrainsWithin R n)
    {answer : (o : Op) → Option (Ans o × W)} {e : Event Op Ans} {w : W}
    (hperform : t.perform answer = some (e, t', w)) : t'.rest.DrainsWithin R n := by
  obtain ⟨k, hrest, -, rfl⟩ := perform_eq_some hperform
  rw [hrest] at ht
  exact ht.2 e.ans

/-- An operation that is answered so brings the end nearer. -/
theorem ends_of_perform {n : ℕ} {t t' : Thread Op Ans κ}
    (ht : t.rest.EndsWithin R n fun _ => True) {answer : (o : Op) → Option (Ans o × W)}
    {e : Event Op Ans} {w : W} (hperform : t.perform answer = some (e, t', w))
    (he : R e.op e.ans) : ∃ m, n = m + 1 ∧ t'.rest.EndsWithin R m fun _ => True := by
  obtain ⟨k, hrest, -, rfl⟩ := perform_eq_some hperform
  rw [hrest] at ht
  cases n with
  | zero => exact ht.elim
  | succ m => exact ⟨m, rfl, ht e.ans he⟩

/-- What is left of a program that lasts. -/
theorem lasts_of_perform {n : ℕ} {t t' : Thread Op Ans κ} (ht : t.rest.Lasts (n + 1))
    {answer : (o : Op) → Option (Ans o × W)} {e : Event Op Ans} {w : W}
    (hperform : t.perform answer = some (e, t', w)) : t'.rest.Lasts n := by
  obtain ⟨k, hrest, -, rfl⟩ := perform_eq_some hperform
  rw [hrest] at ht
  exact ht e.ans

end Thread
end Foundations
