import Mathlib.Data.List.Nodup

/-!
# Lists of records with keys

A table is kept as a list of records, each with a key.  What is done about one key should
leave the records of the other keys as they are and in their order.

Main results:

- Definition `Keyed.Distinct`: no two records have one key.
- Definition `Keyed.others`: the records of the other keys.
- Theorem `Keyed.Distinct.change_labelled_iff`: when changing the records of a label is
  changing one record.
- Theorems `Keyed.Distinct.put` and `Keyed.others_put`: replacing the records of a key by a
  new one.
-/

namespace Foundations
namespace Keyed

variable {α κ : Type} (key : α → κ)

/-- No two records have one key. -/
def Distinct (xs : List α) : Prop :=
  (xs.map key).Nodup

variable {key} in
theorem Distinct.filter {xs : List α} (h : Distinct key xs) (p : α → Bool) :
    Distinct key (xs.filter p) :=
  List.Nodup.sublist (List.filter_sublist.map key) h

variable {key} in
/-- A change that keeps all keys keeps them distinct. -/
theorem Distinct.of_keys {xs ys : List α} (h : Distinct key xs) (hkeys : ys.map key = xs.map key) :
    Distinct key ys := by
  rw [Distinct, hkeys]
  exact h

variable {key} in
theorem Distinct.eq_of_key {xs : List α} (h : Distinct key xs) {x y : α} (hx : x ∈ xs)
    (hy : y ∈ xs) (hkey : key x = key y) : x = y :=
  List.inj_on_of_nodup_map h hx hy hkey

section Change

variable [DecidableEq κ]

/-- Change the record of a key. -/
def change (k : κ) (f : α → α) (xs : List α) : List α :=
  xs.map fun x => if key x = k then f x else x

/-- Changing the records that have the label of one record changes that record only, exactly
when the others with its label are as they would be changed. -/
theorem Distinct.change_labelled_iff {ℓ : Type} [DecidableEq ℓ] {key : α → κ} {xs : List α}
    (h : Distinct key xs) (label : α → ℓ) (f : α → α) {x : α} (hx : x ∈ xs) :
    (xs.map fun y => if label y = label x then f y else y) = change key (key x) f xs ↔
      ∀ y ∈ xs, label y = label x → key y = key x ∨ f y = y := by
  rw [change, List.map_inj_left]
  refine forall₂_congr fun y hy => ?_
  by_cases hkey : key y = key x
  · obtain rfl := h.eq_of_key hy hx hkey
    simp
  · by_cases hlabel : label y = label x <;> simp [hkey, hlabel]

end Change

section Others

variable [DecidableEq κ] (k : κ)

/-- The records of the other keys, in their order. -/
def others (xs : List α) : List α :=
  xs.filter fun x => key x != k

/-- Put a record in the place of those of its key, at the end. -/
def put (x : α) (xs : List α) : List α :=
  others key (key x) xs ++ [x]

variable {key k}

theorem Distinct.put {xs : List α} (h : Distinct key xs) (x : α) : Distinct key (put key x xs) := by
  unfold Distinct Keyed.put
  rw [List.map_append, List.nodup_append]
  refine ⟨h.filter _, List.nodup_singleton _, ?_⟩
  intro a ha b hb
  obtain ⟨y, hy, rfl⟩ := List.mem_map.mp ha
  obtain rfl := List.mem_singleton.mp hb
  simpa using (List.mem_filter.mp hy).2

/-- A record that is put in leaves the others. -/
theorem others_put {x : α} (hx : key x = k) (xs : List α) :
    others key k (put key x xs) = others key k xs := by
  subst hx
  simp [put, others, List.filter_filter]

/-- Removing records of one key leaves the others. -/
theorem others_filter {p : α → Bool} (hp : ∀ x, key x ≠ k → p x = true) (xs : List α) :
    others key k (xs.filter p) = others key k xs := by
  unfold others
  rw [List.filter_filter]
  refine List.filter_congr fun x _ => ?_
  by_cases hx : key x = k
  · simp [hx]
  · simp [hp x hx]

end Others
end Keyed
end Foundations
