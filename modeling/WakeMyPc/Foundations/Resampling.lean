import Mathlib.Data.List.Basic
import Mathlib.Tactic.Basic

/-!
# Resampling

Draws are taken until one of them has a result.  The draws before that one have no
influence on the result, and the draws after it are left.

Main results:

- Theorem `resample_eq_some_iff`: the result is that of the first draw with one.
- Theorem `resample_eq_none_iff`: there is no result while no draw has one.
-/

namespace Foundations

variable {α β : Type} {f : α → Option β}

/-- Draw until a draw has a result. -/
def resample (f : α → Option β) : List α → Option (β × List α)
  | [] => none
  | a :: as =>
      match f a with
      | some b => some (b, as)
      | none => resample f as

theorem resample_cons_some {a : α} {b : β} (h : f a = some b) (as : List α) :
    resample f (a :: as) = some (b, as) := by
  rw [resample, h]

theorem resample_cons_none {a : α} (h : f a = none) (as : List α) :
    resample f (a :: as) = resample f as := by
  rw [resample, h]

/-- Draws without a result have no influence. -/
theorem resample_append_of_none {front : List α} (h : ∀ a ∈ front, f a = none) (as : List α) :
    resample f (front ++ as) = resample f as := by
  induction front with
  | nil => rfl
  | cons a front ih =>
      rw [List.cons_append, resample_cons_none (h a List.mem_cons_self)]
      exact ih fun a' ha' => h a' (List.mem_cons_of_mem a ha')

/-- The result is that of the first draw with one, and the draws after it are left. -/
theorem resample_eq_some_iff {draws rest : List α} {b : β} :
    resample f draws = some (b, rest) ↔
      ∃ front a, draws = front ++ a :: rest ∧ (∀ a' ∈ front, f a' = none) ∧ f a = some b := by
  constructor
  · intro h
    induction draws with
    | nil => simp [resample] at h
    | cons a as ih =>
        cases ha : f a with
        | some b' =>
            rw [resample_cons_some ha] at h
            obtain ⟨rfl, rfl⟩ := Prod.mk.inj (Option.some.inj h)
            exact ⟨[], a, rfl, by simp, ha⟩
        | none =>
            rw [resample_cons_none ha] at h
            obtain ⟨front, a', rfl, hfront, ha'⟩ := ih h
            exact ⟨a :: front, a', rfl, List.forall_mem_cons.mpr ⟨ha, hfront⟩, ha'⟩
  · rintro ⟨front, a, rfl, hfront, ha⟩
    rw [resample_append_of_none hfront, resample_cons_some ha]

/-- There is no result while no draw has one. -/
theorem resample_eq_none_iff {draws : List α} :
    resample f draws = none ↔ ∀ a ∈ draws, f a = none := by
  induction draws with
  | nil => simp [resample]
  | cons a as ih =>
      cases ha : f a with
      | some b => simp [resample_cons_some ha, ha]
      | none => simp [resample_cons_none ha, ih, ha]

/-- More draws do not change a result. -/
theorem resample_append {draws rest : List α} {b : β} (h : resample f draws = some (b, rest))
    (more : List α) : resample f (draws ++ more) = some (b, rest ++ more) := by
  obtain ⟨front, a, rfl, hfront, ha⟩ := resample_eq_some_iff.mp h
  exact resample_eq_some_iff.mpr ⟨front, a, by simp, hfront, ha⟩

end Foundations
