import WakeMyPc.Foundations.Interpretation
import WakeMyPc.Foundations.Runs

/-!
# Simulations with promises

An operation that is carried out by several calls can have to happen in the abstract system
before it is known how it ends.  The abstract run is then chosen by a promise of how it will end,
and there is one for every promise that can be made.

Main results:

- Theorem `takeSteps_promised`: from one step of such a simulation to a run.
- Theorem `Prog.Commits.leads`: what is left of a program that takes effect with its last call.
- Theorem `filter_set_of_pos`: changing a part of a list that passes a filter.
-/

namespace Foundations

/-! ## Runs -/

section Runs

variable {S A T B Φ : Type} {step : S → A → Option S} {step' : T → B → Option T}

/-- A run of one system is a run of another one, whatever is promised in its last state, when
for all that can be promised after a step, something can be promised before it. -/
theorem takeSteps_promised {I : S → Prop} {P : S → A → Prop} (R : S → Φ → T → Prop)
    (hI : ∀ s a s', I s → P s a → step s a = some s' → I s')
    (hstep : ∀ s a s', I s → P s a → step s a = some s' → ∀ promise', ∃ promise, ∀ t,
      R s promise t → ∃ bs t', takeSteps step' t bs = some t' ∧ R s' promise' t')
    {s s' : S} {t : T} (hs : I s) (ht : ∀ promise, R s promise t) {as : List A}
    (has : Along step P s as) (hsteps : takeSteps step s as = some s') (promise : Φ) :
    ∃ bs t', takeSteps step' t bs = some t' ∧ R s' promise t' := by
  have hrun : I s' ∧ ∀ promise, ∃ bs t', takeSteps step' t bs = some t' ∧ R s' promise t' := by
    refine has.invariant (fun s' => I s' ∧ ∀ promise,
      ∃ bs t', takeSteps step' t bs = some t' ∧ R s' promise t') ?_ ?_ hsteps
    · rintro s₁ a s₂ ⟨hI₁, hruns⟩ ha hs₂
      refine ⟨hI s₁ a s₂ hI₁ ha hs₂, fun promise' => ?_⟩
      obtain ⟨promise₁, hgoes⟩ := hstep s₁ a s₂ hI₁ ha hs₂ promise'
      obtain ⟨bs, t₁, hbs, hR⟩ := hruns promise₁
      obtain ⟨cs, t₂, hcs, hR'⟩ := hgoes t₁ hR
      refine ⟨bs ++ cs, t₂, ?_, hR'⟩
      rw [takeSteps_append, hbs]
      exact hcs
    · exact ⟨hs, fun promise => ⟨[], t, rfl, ht promise⟩⟩
  exact hrun.2 promise

end Runs

/-! ## Programs that take effect with their last call -/

namespace Prog

variable {Op : Type} {Ans : Op → Type} {α β : Type} {quiet : Op → Prop}

/-- What leads to a value is a trace. -/
theorem trace_of_leads {p : Prog Op Ans α} {es : List (Event Op Ans)} {a : α}
    (h : p.Leads es (.ret a)) : p.Trace es a := by
  induction es generalizing p with
  | nil =>
      obtain rfl := leads_nil.mp h
      exact ⟨rfl, rfl⟩
  | cons e es ih =>
      cases p with
      | ret b => exact h.elim
      | call o k =>
          obtain ⟨r, rfl, hrest⟩ := h
          exact ⟨r, es, rfl, ih hrest⟩
      | stall => exact h.elim

/-- A trace leads to what it returns. -/
theorem Trace.leads {p : Prog Op Ans α} {es : List (Event Op Ans)} {a : α} (h : p.Trace es a) :
    p.Leads es (.ret a) := by
  induction p generalizing es with
  | ret b =>
      obtain ⟨rfl, rfl⟩ := h
      rfl
  | call o k ih =>
      obtain ⟨r, rest, rfl, hrest⟩ := h
      exact ⟨r, rfl, ih r hrest⟩
  | stall => exact h.elim

/-- All events of a trace are such as the program uses. -/
theorem Uses.of_trace {P : Op → Prop} {p : Prog Op Ans α} (hp : p.Uses P)
    {es : List (Event Op Ans)} {a : α} (h : p.Trace es a) : ∀ e ∈ es, P e.op := by
  induction p generalizing es with
  | ret b => exact h.1 ▸ nofun
  | call o k ih =>
      obtain ⟨r, rest, rfl, hrest⟩ := h
      exact List.forall_mem_cons.mpr ⟨hp.1, ih r (hp.2 r) hrest⟩
  | stall => exact h.elim

/-- What a program leads to uses what the program does, and so did what it has done. -/
theorem Uses.of_leads {P : Op → Prop} {p q : Prog Op Ans α} (hp : p.Uses P)
    {es : List (Event Op Ans)} (h : p.Leads es q) : ∀ e ∈ es, P e.op := by
  induction es generalizing p with
  | nil => exact nofun
  | cons e es ih =>
      cases p with
      | ret a => exact h.elim
      | call o k =>
          obtain ⟨r, rfl, hrest⟩ := h
          exact List.forall_mem_cons.mpr ⟨hp.1, ih (hp.2 r) hrest⟩
      | stall => exact h.elim

/-- A program that goes on after some events has not finished with them. -/
theorem Trace.leads_unique {p q : Prog Op Ans α} {es : List (Event Op Ans)} {a : α}
    (h : p.Trace es a) (h' : p.Leads es q) : q = .ret a := by
  induction es generalizing p with
  | nil =>
      obtain rfl := leads_nil.mp h'
      cases p with
      | ret b => exact congrArg Prog.ret h.2
      | call o k =>
          obtain ⟨r, rest, heq, -⟩ := h
          cases heq
      | stall => exact h.elim
  | cons e es ih =>
      cases p with
      | ret b => exact h'.elim
      | call o k =>
          obtain ⟨r, rest, heq, hrest⟩ := h
          obtain ⟨rfl, rfl⟩ := List.cons.inj heq
          obtain ⟨r', heq', hrest'⟩ := h'
          cases heq'
          exact ih hrest hrest'
      | stall => exact h.elim

variable (quiet) in
/-- All calls but the last one are quiet. -/
def Commits : Prog Op Ans α → Prop
  | .ret _ => True
  | .call o k => (quiet o ∧ ∀ r, (k r).Commits) ∨ ∀ r, ∃ a, k r = .ret a
  | .stall => True

theorem Uses.commits {p : Prog Op Ans α} (hp : p.Uses quiet) : p.Commits quiet := by
  induction p with
  | ret a => trivial
  | call o k ih => exact .inl ⟨hp.1, fun r => ih r (hp.2 r)⟩
  | stall => trivial

theorem Uses.commits_bind {p : Prog Op Ans α} (hp : p.Uses quiet) {f : α → Prog Op Ans β}
    (hf : ∀ a, (f a).Commits quiet) : (p >>= f).Commits quiet := by
  induction p with
  | ret a => exact hf a
  | call o k ih => exact .inl ⟨hp.1, fun r => ih r (hp.2 r)⟩
  | stall => trivial

/-- So they are in what is left. -/
theorem Commits.leads {p q : Prog Op Ans α} (hp : p.Commits quiet) {es : List (Event Op Ans)}
    (h : p.Leads es q) : q.Commits quiet := by
  induction es generalizing p with
  | nil => exact leads_nil.mp h ▸ hp
  | cons e es ih =>
      cases p with
      | ret a => exact h.elim
      | call o k =>
          obtain ⟨r, rfl, hrest⟩ := h
          rcases hp with hquiet | hlast
          · exact ih (hquiet.2 r) hrest
          · obtain ⟨a, ha⟩ := hlast r
            refine ih ?_ hrest
            rw [ha]
            trivial
      | stall => exact h.elim

variable (quiet) in
/-- The program ends with a call that is not quiet, and makes no other such call. -/
def EndsLoud : Prog Op Ans α → Prop
  | .ret _ => False
  | .call o k => (quiet o ∧ ∀ r, (k r).EndsLoud) ∨ (¬ quiet o ∧ ∀ r, ∃ a, k r = .ret a)
  | .stall => False

theorem Uses.endsLoud_bind {p : Prog Op Ans α} (hp : p.Uses quiet) {f : α → Prog Op Ans β}
    (hf : ∀ a, (f a).EndsLoud quiet) : (p >>= f).EndsLoud quiet := by
  induction p with
  | ret a => exact hf a
  | call o k ih => exact .inl ⟨hp.1, fun r => ih r (hp.2 r)⟩
  | stall => exact hp.elim

/-- It goes on after a quiet call. -/
theorem EndsLoud.goesOn {p : Prog Op Ans α} (h : p.EndsLoud quiet) : ∃ o k, p = .call o k := by
  cases p with
  | ret a => exact h.elim
  | call o k => exact ⟨o, k, rfl⟩
  | stall => exact h.elim

/-- One more operation is carried out. -/
theorem Carries.concat {Op' : Type} {Ans' : Op' → Type}
    {handler : (o : Op) → Prog Op' Ans' (Ans o)} {es : List (Event Op Ans)}
    {front back : List (Event Op' Ans')} (h : Carries handler es front) {e : Event Op Ans}
    (he : (handler e.op).Trace back e.ans) : Carries handler (es ++ [e]) (front ++ back) := by
  induction h with
  | nil =>
      have hlast : Carries handler [e] (back ++ []) := .cons he .nil
      rwa [List.append_nil] at hlast
  | cons hfirst hrest ih =>
      rw [List.append_assoc]
      exact .cons hfirst ih

/-- Operations that need no calls are carried out by none. -/
theorem Carries.append_silent {Op' : Type} {Ans' : Op' → Type}
    {handler : (o : Op) → Prog Op' Ans' (Ans o)} {es silent : List (Event Op Ans)}
    {tr : List (Event Op' Ans')} (h : Carries handler es tr)
    (hsilent : ∀ e ∈ silent, handler e.op = .ret e.ans) : Carries handler (es ++ silent) tr := by
  induction silent generalizing es with
  | nil => rwa [List.append_nil]
  | cons e silent ih =>
      obtain ⟨hfirst, hrest⟩ := List.forall_mem_cons.mp hsilent
      have hone : (handler e.op).Trace [] e.ans := hfirst ▸ ⟨rfl, rfl⟩
      have hconcat := h.concat hone
      rw [List.append_nil] at hconcat
      rw [← List.singleton_append, ← List.append_assoc]
      exact ih hconcat hrest

/-- The next call of a program that is carried out is the first one of an operation; those
before it are carried out without a call. -/
theorem interpret_eq_call {Op' : Type} {Ans' : Op' → Type}
    {handler : (o : Op) → Prog Op' Ans' (Ans o)} {p : Prog Op Ans α} {c : Op'}
    {kt : Ans' c → Prog Op' Ans' α} (h : interpret handler p = .call c kt) :
    ∃ es o k kp, p.Leads es (.call o k) ∧ (∀ e ∈ es, handler e.op = .ret e.ans) ∧
      handler o = .call c kp ∧ kt = fun r => kp r >>= fun a => interpret handler (k a) := by
  induction p with
  | ret a => cases h
  | stall => cases h
  | call o k ih =>
      rw [interpret_call] at h
      cases ho : handler o with
      | ret a =>
          rw [ho] at h
          obtain ⟨es, o', k', kp, hleads, hes, ho', hkt⟩ := ih a h
          exact ⟨⟨o, a⟩ :: es, o', k', kp, ⟨a, rfl, hleads⟩,
            List.forall_mem_cons.mpr ⟨ho, hes⟩, ho', hkt⟩
      | stall =>
          rw [ho] at h
          cases h
      | call c' kp =>
          rw [ho] at h
          cases h
          exact ⟨[], o, k, kp, rfl, nofun, ho, rfl⟩

end Prog

/-! ## Lists of which some parts are matched -/

section Lists

variable {α β : Type}

/-- Changing a part that passes a filter changes the filtered list in one place. -/
theorem filter_set_of_pos {p : α → Bool} {xs : List α} {i : ℕ} {a : α} (h : xs[i]? = some a)
    (ha : p a = true) :
    ∃ j, (xs.filter p)[j]? = some a ∧
      ∀ b, p b = true → (xs.set i b).filter p = (xs.filter p).set j b := by
  induction xs generalizing i with
  | nil => simp at h
  | cons x xs ih =>
      cases i with
      | zero =>
          obtain rfl : x = a := by simpa using h
          refine ⟨0, by simp [ha], fun b hb => ?_⟩
          rw [List.set_cons_zero, List.filter_cons_of_pos hb, List.filter_cons_of_pos ha,
            List.set_cons_zero]
      | succ i =>
          obtain ⟨j, hj, hset⟩ := ih (i := i) (by simpa using h)
          cases hx : p x with
          | true =>
              refine ⟨j + 1, ?_, fun b hb => ?_⟩
              · rw [List.filter_cons_of_pos hx, List.getElem?_cons_succ]
                exact hj
              · rw [List.set_cons_succ, List.filter_cons_of_pos hx, List.filter_cons_of_pos hx,
                  List.set_cons_succ, hset b hb]
          | false =>
              have hneg : ¬ p x = true := by simp [hx]
              refine ⟨j, ?_, fun b hb => ?_⟩
              · rw [List.filter_cons_of_neg hneg]
                exact hj
              · rw [List.set_cons_succ, List.filter_cons_of_neg hneg, List.filter_cons_of_neg hneg,
                  hset b hb]

/-- Changing a part that the filter drops before and after changes nothing. -/
theorem filter_set_of_neg {p : α → Bool} {xs : List α} {i : ℕ} {a b : α} (h : xs[i]? = some a)
    (ha : p a = false) (hb : p b = false) : (xs.set i b).filter p = xs.filter p := by
  induction xs generalizing i with
  | nil => rfl
  | cons x xs ih =>
      cases i with
      | zero =>
          obtain rfl : x = a := by simpa using h
          simp [ha, hb]
      | succ i =>
          have hsame := ih (i := i) (by simpa using h)
          rw [List.set_cons_succ, List.filter_cons, List.filter_cons, hsame]

/-- The last entry of a kind, and what follows it, are unique. -/
theorem last_split_unique {P : α → Prop} {xs xs' ys ys' : List α} {a a' : α}
    (h : xs ++ a :: ys = xs' ++ a' :: ys') (ha : P a) (ha' : P a') (hys : ∀ y ∈ ys, ¬ P y)
    (hys' : ∀ y ∈ ys', ¬ P y) : a = a' ∧ ys = ys' := by
  rcases List.append_eq_append_iff.mp h with ⟨zs, -, heq⟩ | ⟨zs, -, heq⟩
  · cases zs with
    | nil => exact List.cons.inj heq
    | cons z zs =>
        obtain ⟨-, rfl⟩ := List.cons.inj heq
        exact absurd ha' (hys a' (by simp))
  · cases zs with
    | nil => exact (List.cons.inj heq).imp Eq.symm Eq.symm
    | cons z zs =>
        obtain ⟨-, rfl⟩ := List.cons.inj heq
        exact absurd ha (hys' a (by simp))

/-- The entries of two lists correspond one by one, each in its place. -/
def Matched (R : ℕ → α → β → Prop) (xs : List α) (ys : List β) : Prop :=
  xs.length = ys.length ∧ ∀ j x y, xs[j]? = some x → ys[j]? = some y → R j x y

variable {R R' : ℕ → α → β → Prop} {xs : List α} {ys : List β}

theorem Matched.get (h : Matched R xs ys) {j : ℕ} {x : α} (hx : xs[j]? = some x) :
    ∃ y, ys[j]? = some y ∧ R j x y := by
  obtain ⟨hlt, -⟩ := List.getElem?_eq_some_iff.mp hx
  rw [h.1] at hlt
  have hy : ys[j]? = some ys[j] := List.getElem?_eq_getElem hlt
  exact ⟨_, hy, h.2 j x _ hx hy⟩

theorem Matched.concat (h : Matched R xs ys) {x : α} {y : β} (hxy : R xs.length x y) :
    Matched R (xs ++ [x]) (ys ++ [y]) := by
  refine ⟨by simp [h.1], fun j x' y' hx' hy' => ?_⟩
  rcases getElem?_concat_cases hx' with hx' | ⟨rfl, rfl⟩
  · rcases getElem?_concat_cases hy' with hy' | ⟨rfl, rfl⟩
    · exact h.2 j x' y' hx' hy'
    · obtain ⟨hlt, -⟩ := List.getElem?_eq_some_iff.mp hx'
      rw [h.1] at hlt
      exact absurd hlt (Nat.lt_irrefl _)
  · rw [h.1, List.getElem?_concat_length] at hy'
    obtain rfl := Option.some.inj hy'
    exact hxy

/-- One pair changes; what is asked of the others stays. -/
theorem Matched.set (h : Matched R xs ys) {i : ℕ} {x : α} {y : β} (hxy : R' i x y)
    (hothers : ∀ j x y, j ≠ i → R j x y → R' j x y) : Matched R' (xs.set i x) (ys.set i y) := by
  refine ⟨by simp [h.1], fun j x' y' hx' hy' => ?_⟩
  rcases getElem?_set_cases hx' with ⟨rfl, rfl⟩ | ⟨hne, hx'⟩
  · rcases getElem?_set_cases hy' with ⟨-, rfl⟩ | ⟨hne, -⟩
    · exact hxy
    · exact absurd rfl hne
  · rcases getElem?_set_cases hy' with ⟨rfl, -⟩ | ⟨-, hy'⟩
    · exact absurd rfl hne
    · exact hothers j x' y' hne (h.2 j x' y' hx' hy')

theorem Matched.map (h : Matched R xs ys) {f : α → α} {g : β → β}
    (hmap : ∀ j x y, R j x y → R j (f x) (g y)) : Matched R (xs.map f) (ys.map g) := by
  refine ⟨by simp [h.1], fun j x y hx hy => ?_⟩
  rw [List.getElem?_map] at hx hy
  obtain ⟨x₀, hx₀, rfl⟩ := Option.map_eq_some_iff.mp hx
  obtain ⟨y₀, hy₀, rfl⟩ := Option.map_eq_some_iff.mp hy
  exact hmap j x₀ y₀ (h.2 j x₀ y₀ hx₀ hy₀)

end Lists

end Foundations
