import WakeMyPc.Foundations.Program

/-!
# The rounds of a loop

A run of a loop is a run of its body in each of the states in which one of its rounds starts.

Main results:

- Theorem `Prog.events_loop`: the events of a loop are those of its rounds.
- Theorem `Prog.roundStarts_invariant`: what every round keeps holds where a round starts.
- Theorem `Prog.exec_loop_keeps`: and what a last round then gives holds of the result.
-/

namespace Foundations
namespace Prog

variable {Op : Type} {Ans : Op → Type} {W α σ : Type} (env : Env Op Ans W)
  (body : σ → Prog Op Ans (σ ⊕ α))

/-- The states, of the loop and of its environment, in which the rounds start. -/
def roundStarts : ℕ → σ → W → List (σ × W)
  | 0, _, _ => []
  | n + 1, s, w =>
      (s, w) ::
        match (exec env (body s) w).value with
        | some (.inl s') => roundStarts n s' (exec env (body s) w).world
        | _ => []

/-- The events of a loop are those of its rounds. -/
theorem events_loop (n : ℕ) (s : σ) (w : W) :
    (exec env (loop body n s) w).events =
      (roundStarts env body n s w).flatMap fun start =>
        (exec env (body start.1) start.2).events := by
  induction n generalizing s w with
  | zero => rfl
  | succ n ih =>
      rw [roundStarts, List.flatMap_cons]
      match hvalue : (exec env (body s) w).value with
      | none =>
          rw [exec_loop_none n hvalue]
          simp
      | some (.inr a) =>
          rw [exec_loop_inr n hvalue]
          simp
      | some (.inl s') =>
          rw [exec_loop_inl n hvalue]
          exact congrArg _ (ih s' _)

variable {env body} (I : σ → W → Prop)
  (hkeep : ∀ s w s', I s w → (exec env (body s) w).value = some (.inl s') →
    I s' (exec env (body s) w).world)

include hkeep

/-- What every round keeps holds wherever a round starts. -/
theorem roundStarts_invariant (n : ℕ) {s : σ} {w : W} (hI : I s w) :
    ∀ start ∈ roundStarts env body n s w, I start.1 start.2 := by
  induction n generalizing s w with
  | zero => simp [roundStarts]
  | succ n ih =>
      rw [roundStarts]
      refine List.forall_mem_cons.mpr ⟨hI, ?_⟩
      match hvalue : (exec env (body s) w).value with
      | none => simp
      | some (.inr a) => simp
      | some (.inl s') => exact ih (hkeep s w s' hI hvalue)

/-- What a last round gives where an invariant holds is true of the result of the loop. -/
theorem exec_loop_keeps (Q : α → W → Prop)
    (hstop : ∀ s w a, I s w → (exec env (body s) w).value = some (.inr a) →
      Q a (exec env (body s) w).world)
    (n : ℕ) {s : σ} {w : W} {a : α} (hI : I s w)
    (h : (exec env (loop body n s) w).value = some a) :
    Q a (exec env (loop body n s) w).world := by
  induction n generalizing s w with
  | zero => simp [loop] at h
  | succ n ih =>
      rcases hvalue : (exec env (body s) w).value with _ | s' | b
      · rw [exec_loop_none n hvalue] at h
        cases h
      · rw [exec_loop_inl n hvalue] at h ⊢
        exact ih (hkeep s w s' hI hvalue) h
      · rw [exec_loop_inr n hvalue] at h ⊢
        exact hstop s w a hI (hvalue.trans (congrArg (Option.map Sum.inr) h))

end Prog
end Foundations
