import Mathlib.Data.List.Nodup
import Mathlib.Order.MinMax

/-!
# Records of a sequence

The records of a sequence are the values above a bound and above every value before them.
Values that are given in ascending order, with any of them given again at any later place,
are its records.

Main results:

- Theorem `pairwise_records`: the records ascend.
- Theorem `highest_lt_iff`: the next value is a record exactly when it is above the bound
  and above everything before it.
- Theorem `WithReplays.records_eq`: repetitions are no records.
- Theorem `WithReplays.isRecord_iff`: a value is a record where it is given first.
-/

namespace Foundations

variable {α : Type}

section Records

variable [LinearOrder α]

/-- The values of a sequence that are above a bound and above every value before them. -/
def records : α → List α → List α
  | _, [] => []
  | bound, a :: as => if bound < a then a :: records a as else records bound as

/-- The largest of a bound and some values. -/
def highest (bound : α) (as : List α) : α :=
  as.foldl max bound

@[simp]
theorem highest_nil (bound : α) : highest bound [] = bound :=
  rfl

@[simp]
theorem highest_cons (bound a : α) (as : List α) :
    highest bound (a :: as) = highest (max bound a) as :=
  rfl

theorem records_of_lt {bound a : α} (as : List α) (h : bound < a) :
    records bound (a :: as) = a :: records a as :=
  if_pos h

theorem records_of_le {bound a : α} (as : List α) (h : a ≤ bound) :
    records bound (a :: as) = records bound as :=
  if_neg (not_lt_of_ge h)

/-- A value is above everything before it exactly when it is above the largest of it. -/
theorem highest_lt_iff {bound a : α} {as : List α} :
    highest bound as < a ↔ bound < a ∧ ∀ b ∈ as, b < a := by
  induction as generalizing bound with
  | nil => simp
  | cons b as ih =>
      rw [highest_cons, ih, max_lt_iff, List.forall_mem_cons, and_assoc]

theorem lt_of_mem_records {bound a : α} {as : List α} (h : a ∈ records bound as) : bound < a := by
  induction as generalizing bound with
  | nil => simp [records] at h
  | cons b as ih =>
      rcases lt_or_ge bound b with hb | hb
      · rw [records_of_lt as hb] at h
        rcases List.mem_cons.mp h with rfl | h
        · exact hb
        · exact hb.trans (ih h)
      · rw [records_of_le as hb] at h
        exact ih h

/-- The records of a sequence ascend. -/
theorem pairwise_records (bound : α) (as : List α) : (records bound as).Pairwise (· < ·) := by
  induction as generalizing bound with
  | nil => exact .nil
  | cons a as ih =>
      rcases lt_or_ge bound a with ha | ha
      · rw [records_of_lt as ha]
        exact .cons (fun b hb => lt_of_mem_records hb) (ih a)
      · rw [records_of_le as ha]
        exact ih bound

end Records

/-! ## Values with repetitions -/

/-- Some values are given in their order, with values that were seen or given before given
again at any place. -/
inductive WithReplays : List α → List α → List α → Prop
  | done (seen : List α) : WithReplays seen [] []
  | first {seen values given : List α} (v : α) (h : WithReplays (v :: seen) values given) :
      WithReplays seen (v :: values) (v :: given)
  | replay {seen values given : List α} {v : α} (hv : v ∈ seen)
      (h : WithReplays seen values given) : WithReplays seen values (v :: given)

namespace WithReplays

variable [LinearOrder α] {seen values given : List α} {bound : α}

/-- A value above everything that was seen is above it with one more value below it. -/
theorem forall_le_cons {v : α} (hseen : ∀ a ∈ seen, a ≤ bound) (hv : bound < v) :
    ∀ a ∈ v :: seen, a ≤ v :=
  List.forall_mem_cons.mpr ⟨le_refl v, fun a ha => (hseen a ha).trans hv.le⟩

/-- Ascending values are the records of what is given. -/
theorem records_eq (h : WithReplays seen values given) (hseen : ∀ a ∈ seen, a ≤ bound)
    (hvalues : (bound :: values).Pairwise (· < ·)) : records bound given = values := by
  induction h generalizing bound with
  | done seen => rfl
  | first v h ih =>
      have hv : bound < v := (List.pairwise_cons.mp hvalues).1 v List.mem_cons_self
      rw [records_of_lt _ hv, ih (forall_le_cons hseen hv) (List.pairwise_cons.mp hvalues).2]
  | replay hv h ih =>
      rw [records_of_le _ (hseen _ hv), ih hseen hvalues]

/-- Where values ascend, one is above the bound and everything given before it exactly when
it was not seen and not given before. -/
theorem isRecord_iff (h : WithReplays seen values given) (hseen : ∀ a ∈ seen, a ≤ bound)
    (hvalues : (bound :: values).Pairwise (· < ·)) {front back : List α} {a : α}
    (hgiven : given = front ++ a :: back) :
    (bound < a ∧ ∀ b ∈ front, b < a) ↔ a ∉ seen ∧ a ∉ front := by
  induction h generalizing bound front with
  | done seen => simp at hgiven
  | first v h ih =>
      have hv : bound < v := (List.pairwise_cons.mp hvalues).1 v List.mem_cons_self
      rcases List.cons_eq_append_iff.mp hgiven with ⟨rfl, hfirst⟩ | ⟨front, rfl, hrest⟩
      · obtain ⟨rfl, -⟩ := List.cons.inj hfirst
        have hnew : a ∉ _ := fun ha => absurd (hseen a ha) (not_le_of_gt hv)
        simp [hv, hnew]
      · have hlater := ih (forall_le_cons hseen hv) (List.pairwise_cons.mp hvalues).2 hrest
        rw [List.forall_mem_cons, ← and_assoc, and_iff_right_of_imp hv.trans, hlater]
        simp only [List.mem_cons, not_or]
        tauto
  | replay hw h ih =>
      rcases List.cons_eq_append_iff.mp hgiven with ⟨rfl, hfirst⟩ | ⟨front, rfl, hrest⟩
      · obtain ⟨rfl, -⟩ := List.cons.inj hfirst
        simp [hw, not_lt_of_ge (hseen a hw)]
      · have hlater := ih hseen hvalues hrest
        rw [List.forall_mem_cons, ← and_assoc, and_iff_left_of_imp (hseen _ hw).trans_lt, hlater]
        simp only [List.mem_cons, not_or]
        constructor
        · rintro ⟨hnew, hfront⟩
          exact ⟨hnew, fun heq => hnew (heq ▸ hw), hfront⟩
        · rintro ⟨hnew, -, hfront⟩
          exact ⟨hnew, hfront⟩

end WithReplays
end Foundations
