import Mathlib.Data.List.Basic
import Mathlib.Tactic.Basic

/-!
# Programs that call their environment

A program over a signature of operations either returns a value or calls an
operation and goes on with the answer.  The environment that gives the answers
is kept apart from the program text, so one text serves both a run against a
concrete environment and statements about every environment.

Main results:

- Theorem `Prog.trace_bind`: a trace of a sequential composition splits into a
  trace of each part.
- Theorem `Prog.exec_bind`: running a composition runs its parts in turn.
- Theorem `Prog.exec_trace`: a run that returns performs a trace of its program.
- Theorems `Prog.Uses.trace`, `Prog.Uses.exec_returns` and `Prog.Uses.exec_lift`:
  what follows from the operations that a program uses.
- Theorems `Prog.exec_loop_inl`, `Prog.exec_loop_inr` and `Prog.exec_loop_none`:
  the three ways one round of a loop can go.
-/

namespace Foundations

/-- A program over operations `Op`, whose operation `o` is answered in `Ans o`.
A program that is cut off at `stall` has not returned. -/
inductive Prog (Op : Type) (Ans : Op → Type) (α : Type) : Type where
  | ret (a : α)
  | call (o : Op) (k : Ans o → Prog Op Ans α)
  | stall

/-- One performed operation together with the answer it got. -/
structure Event (Op : Type) (Ans : Op → Type) where
  op : Op
  ans : Ans op

/-- An environment with state `W`; `none` means that the answer never comes. -/
abbrev Env (Op : Type) (Ans : Op → Type) (W : Type) :=
  W → (o : Op) → Option (Ans o × W)

/-- What one run shows: its events, its value if it returned, and the state of
the environment afterwards. -/
structure Outcome (Op : Type) (Ans : Op → Type) (W α : Type) where
  events : List (Event Op Ans)
  value : Option α
  world : W

namespace Prog

variable {Op : Type} {Ans : Op → Type} {W α β σ : Type}

/-- Sequential composition. -/
def bind : Prog Op Ans α → (α → Prog Op Ans β) → Prog Op Ans β
  | .ret a, f => f a
  | .call o k, f => .call o fun r => (k r).bind f
  | .stall, _ => .stall

instance : Monad (Prog Op Ans) where
  pure := .ret
  bind := Prog.bind

@[simp]
theorem pure_eq (a : α) : (pure a : Prog Op Ans α) = .ret a :=
  rfl

@[simp]
theorem ret_bind (a : α) (f : α → Prog Op Ans β) : (.ret a : Prog Op Ans α) >>= f = f a :=
  rfl

@[simp]
theorem call_bind (o : Op) (k : Ans o → Prog Op Ans α) (f : α → Prog Op Ans β) :
    (.call o k : Prog Op Ans α) >>= f = .call o fun r => k r >>= f :=
  rfl

@[simp]
theorem stall_bind (f : α → Prog Op Ans β) : (.stall : Prog Op Ans α) >>= f = .stall :=
  rfl

/-! ## Traces -/

/-- With the answers listed in `tr`, the program performs exactly the events of
`tr` and returns `a`. -/
def Trace : Prog Op Ans α → List (Event Op Ans) → α → Prop
  | .ret b, tr, a => tr = [] ∧ b = a
  | .call o k, tr, a => ∃ r rest, tr = ⟨o, r⟩ :: rest ∧ (k r).Trace rest a
  | .stall, _, _ => False

/-- A trace of a composition is a trace of the first part and then one of the
second. -/
theorem trace_bind (p : Prog Op Ans α) (f : α → Prog Op Ans β)
    (tr : List (Event Op Ans)) (b : β) :
    (p >>= f).Trace tr b ↔
      ∃ front back a, tr = front ++ back ∧ p.Trace front a ∧ (f a).Trace back b := by
  induction p generalizing tr with
  | ret c =>
      constructor
      · intro h
        exact ⟨[], tr, c, rfl, ⟨rfl, rfl⟩, h⟩
      · rintro ⟨front, back, a, rfl, ⟨rfl, rfl⟩, h⟩
        exact h
  | call o k ih =>
      constructor
      · rintro ⟨r, rest, rfl, h⟩
        obtain ⟨front, back, a, rfl, hp, hf⟩ := (ih r rest).mp h
        exact ⟨⟨o, r⟩ :: front, back, a, rfl, ⟨r, front, rfl, hp⟩, hf⟩
      · rintro ⟨front, back, a, rfl, ⟨r, rest, rfl, hp⟩, hf⟩
        exact ⟨r, rest ++ back, rfl, (ih r (rest ++ back)).mpr ⟨rest, back, a, rfl, hp, hf⟩⟩
  | stall =>
      constructor
      · exact False.elim
      · rintro ⟨front, back, a, -, hp, -⟩
        exact hp

/-! ## Runs against one environment -/

/-- Go on with a run that returned; a run that got stuck stays stuck. -/
def andThen (out : Outcome Op Ans W α) (next : α → W → Outcome Op Ans W β) :
    Outcome Op Ans W β :=
  match out.value with
  | none => ⟨out.events, none, out.world⟩
  | some a =>
      let rest := next a out.world
      ⟨out.events ++ rest.events, rest.value, rest.world⟩

/-- Run a program until it returns or its environment stops answering. -/
def exec (env : Env Op Ans W) : Prog Op Ans α → W → Outcome Op Ans W α
  | .ret a, w => ⟨[], some a, w⟩
  | .call o k, w =>
      match env w o with
      | none => ⟨[], none, w⟩
      | some (r, w') =>
          let rest := exec env (k r) w'
          ⟨⟨o, r⟩ :: rest.events, rest.value, rest.world⟩
  | .stall, w => ⟨[], none, w⟩

@[simp]
theorem exec_ret (env : Env Op Ans W) (a : α) (w : W) :
    exec env (.ret a) w = ⟨[], some a, w⟩ :=
  rfl

@[simp]
theorem exec_stall (env : Env Op Ans W) (w : W) :
    exec env (.stall : Prog Op Ans α) w = ⟨[], none, w⟩ :=
  rfl

theorem exec_call_some {env : Env Op Ans W} {o : Op} {r : Ans o} {w w' : W}
    (k : Ans o → Prog Op Ans α) (h : env w o = some (r, w')) :
    exec env (.call o k) w =
      ⟨⟨o, r⟩ :: (exec env (k r) w').events, (exec env (k r) w').value,
        (exec env (k r) w').world⟩ := by
  simp [exec, h]

theorem exec_call_none {env : Env Op Ans W} {o : Op} {w : W}
    (k : Ans o → Prog Op Ans α) (h : env w o = none) :
    exec env (.call o k) w = ⟨[], none, w⟩ := by
  simp [exec, h]

/-- Running a composition runs its parts in turn. -/
theorem exec_bind (env : Env Op Ans W) (p : Prog Op Ans α) (f : α → Prog Op Ans β) (w : W) :
    exec env (p >>= f) w = andThen (exec env p w) fun a w' => exec env (f a) w' := by
  induction p generalizing w with
  | ret a => simp [andThen]
  | call o k ih =>
      rw [call_bind]
      cases h : env w o with
      | none => simp [exec_call_none _ h, andThen]
      | some answer =>
          obtain ⟨r, w'⟩ := answer
          rw [exec_call_some _ h, exec_call_some _ h, ih r w']
          cases hv : (exec env (k r) w').value <;> simp [andThen, hv]
  | stall => simp [andThen]

/-- A run that returns performs a trace of its program. -/
theorem exec_trace (env : Env Op Ans W) (p : Prog Op Ans α) {w : W} {a : α}
    (h : (exec env p w).value = some a) : p.Trace (exec env p w).events a := by
  induction p generalizing w with
  | ret b => exact ⟨rfl, Option.some.inj h⟩
  | call o k ih =>
      cases henv : env w o with
      | none => simp [exec_call_none _ henv] at h
      | some answer =>
          obtain ⟨r, w'⟩ := answer
          rw [exec_call_some _ henv] at h ⊢
          exact ⟨r, _, rfl, ih r h⟩
  | stall => simp at h

/-! ## Programs that use few operations -/

/-- The program is nowhere cut off and performs only operations that satisfy
`P`. -/
def Uses (P : Op → Prop) : Prog Op Ans α → Prop
  | .ret _ => True
  | .call o k => P o ∧ ∀ r, (k r).Uses P
  | .stall => False

theorem Uses.bind {P : Op → Prop} {p : Prog Op Ans α} {f : α → Prog Op Ans β} (hp : p.Uses P)
    (hf : ∀ a, (f a).Uses P) : (p >>= f).Uses P := by
  induction p with
  | ret a => exact hf a
  | call o k ih => exact ⟨hp.1, fun r => ih r (hp.2 r)⟩
  | stall => exact hp.elim

/-- A trace holds only operations that the program uses. -/
theorem Uses.trace {P : Op → Prop} {p : Prog Op Ans α} (hp : p.Uses P)
    {tr : List (Event Op Ans)} {a : α} (h : p.Trace tr a) : ∀ e ∈ tr, P e.op := by
  induction p generalizing tr with
  | ret b =>
      obtain ⟨rfl, -⟩ := h
      simp
  | call o k ih =>
      obtain ⟨r, rest, rfl, h⟩ := h
      intro e he
      rcases List.mem_cons.mp he with rfl | he
      · exact hp.1
      · exact ih r (hp.2 r) h e he
  | stall => exact hp.elim

/-- A program returns when its environment answers the operations it uses. -/
theorem Uses.exec_returns {P : Op → Prop} {p : Prog Op Ans α} (hp : p.Uses P)
    (env : Env Op Ans W) (henv : ∀ w o, P o → (env w o).isSome) (w : W) :
    ∃ a, (exec env p w).value = some a := by
  induction p generalizing w with
  | ret a => exact ⟨a, rfl⟩
  | call o k ih =>
      obtain ⟨⟨r, w'⟩, hanswer⟩ := Option.isSome_iff_exists.mp (henv w o hp.1)
      rw [exec_call_some k hanswer]
      exact ih r (hp.2 r) w'
  | stall => exact hp.elim

/-- A larger environment that answers the used operations in the same way, and
leaves its own part of the state alone, runs the program in the same way. -/
theorem Uses.exec_lift {V : Type} {P : Op → Prop} {p : Prog Op Ans α} (hp : p.Uses P)
    (env : Env Op Ans W) (large : Env Op Ans (V × W)) (v : V)
    (h : ∀ w o, P o → large (v, w) o = (env w o).map fun answer => (answer.1, (v, answer.2)))
    (w : W) :
    exec large p (v, w) =
      ⟨(exec env p w).events, (exec env p w).value, (v, (exec env p w).world)⟩ := by
  induction p generalizing w with
  | ret a => rfl
  | call o k ih =>
      cases hanswer : env w o with
      | none =>
          have hlarge : large (v, w) o = none := by rw [h w o hp.1, hanswer]; rfl
          rw [exec_call_none k hlarge, exec_call_none k hanswer]
      | some answer =>
          obtain ⟨r, w'⟩ := answer
          have hlarge : large (v, w) o = some (r, (v, w')) := by rw [h w o hp.1, hanswer]; rfl
          rw [exec_call_some k hlarge, exec_call_some k hanswer, ih r (hp.2 r) w']
  | stall => exact hp.elim

/-! ## Loops -/

/-- At most `n` rounds of a loop whose body says whether to go round again
(`Sum.inl`) or to stop (`Sum.inr`). -/
def loop (body : σ → Prog Op Ans (σ ⊕ α)) : ℕ → σ → Prog Op Ans α
  | 0, _ => .stall
  | n + 1, s => body s >>= fun
      | .inl s' => loop body n s'
      | .inr a => .ret a

variable {env : Env Op Ans W} {body : σ → Prog Op Ans (σ ⊕ α)} {s s' : σ} {w : W}

/-- A loop run whose body stopped the loop. -/
theorem exec_loop_inr {a : α} (n : ℕ) (h : (exec env (body s) w).value = some (.inr a)) :
    exec env (loop body (n + 1) s) w =
      ⟨(exec env (body s) w).events, some a, (exec env (body s) w).world⟩ := by
  simp [loop, exec_bind, andThen, h]

/-- A loop run whose body asked for another round. -/
theorem exec_loop_inl (n : ℕ) (h : (exec env (body s) w).value = some (.inl s')) :
    exec env (loop body (n + 1) s) w =
      ⟨(exec env (body s) w).events ++
          (exec env (loop body n s') (exec env (body s) w).world).events,
        (exec env (loop body n s') (exec env (body s) w).world).value,
        (exec env (loop body n s') (exec env (body s) w).world).world⟩ := by
  simp [loop, exec_bind, andThen, h]

/-- A loop run whose body did not return. -/
theorem exec_loop_none (n : ℕ) (h : (exec env (body s) w).value = none) :
    exec env (loop body (n + 1) s) w =
      ⟨(exec env (body s) w).events, none, (exec env (body s) w).world⟩ := by
  simp [loop, exec_bind, andThen, h]

end Prog
end Foundations
