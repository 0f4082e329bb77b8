import Mathlib.Data.List.Basic
import Mathlib.Tactic.Basic

/-!
# Runs of a step function

A system takes an action in a state if its step function gives a next state.  A
run is a list of actions that are taken one after the other.

Main results:

- Theorem `takeSteps_append`: a run splits into its parts.
- Theorem `takeSteps_map`: a view of a system takes the steps of the system.
- Theorem `takeSteps_invariant`: what every action preserves holds after every run.
- Theorem `takeSteps_simulation`: a run of one system, as a run of another one.
- Theorem `Along.invariant`: the same for the actions that meet a condition.
- Theorem `along_iff_prefixes`: a condition that is exact for each action is exact for runs.
-/

namespace Foundations

variable {S A : Type} (step : S → A → Option S)

/-- Take some actions in turn; there is no state when one of them cannot be taken. -/
def takeSteps : S → List A → Option S
  | s, [] => some s
  | s, a :: as => (step s a).bind fun s' => takeSteps s' as

variable {step}

/-- A run starts with its first action. -/
theorem takeSteps_cons {s s' : S} {a : A} {as : List A} (h : takeSteps step s (a :: as) = some s') :
    ∃ s₁, step s a = some s₁ ∧ takeSteps step s₁ as = some s' :=
  Option.bind_eq_some_iff.mp h

theorem takeSteps_append (s : S) (as bs : List A) :
    takeSteps step s (as ++ bs) = (takeSteps step s as).bind fun s' => takeSteps step s' bs := by
  induction as generalizing s with
  | nil => rfl
  | cons a as ih =>
      rw [List.cons_append, takeSteps, takeSteps, Option.bind_assoc]
      exact congrArg _ (funext fun s' => ih s')

/-- When the state of a system is a view of the state of another that takes the same
actions, its runs are views of the other's. -/
theorem takeSteps_map {T : Type} {step' : T → A → Option T} (view : S → T)
    (hview : ∀ s a, (step s a).map view = step' (view s) a) (s : S) (as : List A) :
    (takeSteps step s as).map view = takeSteps step' (view s) as := by
  induction as generalizing s with
  | nil => rfl
  | cons a as ih =>
      rw [takeSteps, takeSteps, ← hview s a]
      cases step s a with
      | none => rfl
      | some s₁ => exact ih s₁

/-- What every action preserves holds after every run. -/
theorem takeSteps_invariant (I : S → Prop) (hstep : ∀ s a s', I s → step s a = some s' → I s')
    {s s' : S} {as : List A} (hI : I s) (hsteps : takeSteps step s as = some s') : I s' := by
  induction as generalizing s with
  | nil => exact Option.some.inj hsteps ▸ hI
  | cons a as ih =>
      obtain ⟨s₁, hs₁, hrest⟩ := takeSteps_cons hsteps
      exact ih (hstep s a s₁ hI hs₁) hrest

/-- When each action of a system is one of another system or is not seen there, a run of the
first takes the other one through a part of the same actions. -/
theorem takeSteps_simulation {T : Type} {step' : T → A → Option T} (R : S → T → Prop)
    (hstep : ∀ s t a s', R s t → step s a = some s' →
      R s' t ∨ ∃ t', step' t a = some t' ∧ R s' t') {s s' : S} {t : T} {as : List A} (hR : R s t)
    (hsteps : takeSteps step s as = some s') :
    ∃ as' t', as'.Sublist as ∧ takeSteps step' t as' = some t' ∧ R s' t' := by
  induction as generalizing s t with
  | nil => exact ⟨[], t, .slnil, rfl, Option.some.inj hsteps ▸ hR⟩
  | cons a as ih =>
      obtain ⟨s₁, hs₁, hrest⟩ := takeSteps_cons hsteps
      rcases hstep s t a s₁ hR hs₁ with hsame | ⟨t₁, ht₁, hboth⟩
      · obtain ⟨as', t', hsub, ht', hR'⟩ := ih hsame hrest
        exact ⟨as', t', hsub.cons a, ht', hR'⟩
      · obtain ⟨as', t', hsub, ht', hR'⟩ := ih hboth hrest
        refine ⟨a :: as', t', hsub.cons_cons a, ?_, hR'⟩
        rw [takeSteps, ht₁]
        exact ht'

/-! ## Runs that keep to a condition -/

section Along

variable (step) (P : S → A → Prop)

/-- Every action of a run meets a condition in the state in which it is taken. -/
def Along : S → List A → Prop
  | _, [] => True
  | s, a :: as => P s a ∧ ∀ s' ∈ step s a, Along s' as

instance Along.decidable [∀ s a, Decidable (P s a)] : ∀ s as, Decidable (Along step P s as)
  | _, [] => isTrue trivial
  | s, a :: as =>
      have := fun s' => Along.decidable s' as
      inferInstanceAs (Decidable (P s a ∧ ∀ s' ∈ step s a, Along step P s' as))

variable {step} {P}

/-- What every action that meets the condition preserves holds after a run that keeps to
the condition. -/
theorem Along.invariant (I : S → Prop)
    (hstep : ∀ s a s', I s → P s a → step s a = some s' → I s') {s s' : S} {as : List A}
    (halong : Along step P s as) (hI : I s) (hsteps : takeSteps step s as = some s') : I s' := by
  induction as generalizing s with
  | nil => exact Option.some.inj hsteps ▸ hI
  | cons a as ih =>
      obtain ⟨s₁, hs₁, hrest⟩ := takeSteps_cons hsteps
      exact ih (halong.2 s₁ hs₁) (hstep s a s₁ hI halong.1 hs₁) hrest

/-- A condition on the actions alone holds along every run of such actions. -/
theorem Along.of_forall {Q : A → Prop} {as : List A} (hQ : ∀ a ∈ as, Q a) (s : S) :
    Along step (fun _ a => Q a) s as := by
  induction as generalizing s with
  | nil => trivial
  | cons a as ih =>
      obtain ⟨ha, has⟩ := List.forall_mem_cons.mp hQ
      exact ⟨ha, fun s' _ => ih has s'⟩

theorem Along.and {Q : S → A → Prop} {s : S} {as : List A} (hP : Along step P s as)
    (hQ : Along step Q s as) : Along step (fun s a => P s a ∧ Q s a) s as := by
  induction as generalizing s with
  | nil => trivial
  | cons a as ih => exact ⟨⟨hP.1, hQ.1⟩, fun s' hs' => ih (hP.2 s' hs') (hQ.2 s' hs')⟩

/-- The first part of a run that keeps to a condition. -/
theorem Along.front {s : S} {as bs : List A} (h : Along step P s (as ++ bs)) :
    Along step P s as := by
  induction as generalizing s with
  | nil => trivial
  | cons a as ih => exact ⟨h.1, fun s' hs' => ih (h.2 s' hs')⟩

/-- One more action that meets the condition. -/
theorem Along.concat {s : S} {as : List A} {a : A} (h : Along step P s as)
    (ha : ∀ s', takeSteps step s as = some s' → P s' a) : Along step P s (as ++ [a]) := by
  induction as generalizing s with
  | nil => exact ⟨ha s rfl, fun _ _ => trivial⟩
  | cons b bs ih =>
      refine ⟨h.1, fun s₁ hs₁ => ih (h.2 s₁ hs₁) fun s' hs' => ha s' ?_⟩
      rw [takeSteps, Option.mem_def.mp hs₁]
      exact hs'

/-- When an invariant gives a property, actions that meet the condition keep the invariant, and
an action after which the property holds meets the condition, then the property holds after all
parts of a run exactly when the run keeps to the condition. -/
theorem along_iff_prefixes (I F : S → Prop) (hF : ∀ s, I s → F s)
    (hkeep : ∀ s a s', I s → P s a → step s a = some s' → I s')
    (hP : ∀ s a, I s → (∀ s', step s a = some s' → F s') → P s a) {s : S} {as : List A}
    (hI : I s) :
    (∀ front back s', as = front ++ back → takeSteps step s front = some s' → F s') ↔
      Along step P s as := by
  constructor
  · intro hall
    induction as generalizing s with
    | nil => trivial
    | cons a as ih =>
        have hfirst : P s a := by
          refine hP s a hI fun s' hs' => hall [a] as s' rfl ?_
          rw [takeSteps, hs']
          rfl
        refine ⟨hfirst, fun s₁ hs₁ => ih (hkeep s a s₁ hI hfirst hs₁) ?_⟩
        rintro front back s' rfl hfront
        refine hall (a :: front) back s' rfl ?_
        rw [takeSteps, Option.mem_def.mp hs₁]
        exact hfront
  · rintro halong front back s' rfl hfront
    exact hF s' (halong.front.invariant I hkeep hI hfront)

end Along

/-! ## Lists of parts -/

/-- A part of a longer list is an old one or the new one. -/
theorem getElem?_concat_cases {α : Type} {xs : List α} {a b : α} {i : ℕ}
    (h : (xs ++ [a])[i]? = some b) : xs[i]? = some b ∨ (i = xs.length ∧ b = a) := by
  by_cases hi : i < xs.length
  · rw [List.getElem?_append_left hi] at h
    exact .inl h
  · rw [List.getElem?_append_right (Nat.le_of_not_lt hi), List.getElem?_singleton] at h
    split at h
    · exact .inr ⟨by omega, (Option.some.inj h).symm⟩
    · simp at h

/-- A part of a changed list is the new one or as before. -/
theorem getElem?_set_cases {α : Type} {xs : List α} {a b : α} {i j : ℕ}
    (h : (xs.set i a)[j]? = some b) : (j = i ∧ b = a) ∨ (j ≠ i ∧ xs[j]? = some b) := by
  by_cases hij : i = j
  · subst hij
    rw [List.getElem?_set] at h
    split at h
    · split at h
      · exact .inl ⟨rfl, (Option.some.inj h).symm⟩
      · simp at h
    · exact absurd rfl ‹_›
  · rw [List.getElem?_set_ne hij] at h
    exact .inr ⟨Ne.symm hij, h⟩

/-- Setting a part to what it is changes nothing. -/
theorem set_of_getElem? {α : Type} {xs : List α} {a : α} {i : ℕ} (h : xs[i]? = some a) :
    xs.set i a = xs := by
  obtain ⟨hlt, rfl⟩ := List.getElem?_eq_some_iff.mp h
  exact List.set_getElem_self hlt

/-- Replacing a part changes a count by that part and the new one. -/
theorem countP_set_add {α : Type} (p : α → Bool) {xs : List α} {a : α} {i : ℕ}
    (h : xs[i]? = some a) (b : α) :
    (xs.set i b).countP p + (p a).toNat = xs.countP p + (p b).toNat := by
  induction xs generalizing i with
  | nil => simp at h
  | cons x xs ih =>
      cases i with
      | zero =>
          obtain rfl : x = a := by simpa using h
          cases hx : p x <;> cases hb : p b <;> simp [hx, hb]
      | succ i =>
          have htail := ih (i := i) (by simpa using h)
          simp only [List.set_cons_succ, List.countP_cons]
          omega

end Foundations
