import WakeMyPc.Foundations.Resampling
import Mathlib.Data.Int.CardIntervalMod
import Mathlib.Probability.UniformOn

/-!
# The law of resampling

The draws are equally likely.  Among the sequences in which exactly the last draw has
a result, the result is distributed as it is among single draws with a result, for
every number of draws before it.  When each result comes from equally many draws, all
results are equally likely.

Main results:

- Theorem `uniformOn_stopsAt`: the draws before the first result do not change its law.
- Theorem `uniformOn_accepted`: results with equally many draws are equally likely.
- Theorem `ncard_residue`: below a multiple of a number, each remainder is as frequent
  as any other.
-/

namespace Foundations

open MeasureTheory ProbabilityTheory

/-! ## Sequences that end with the first result -/

section Stopping

variable {α β : Type} (f : α → Option β)

/-- The draws that have a result. -/
def accepted : Set α :=
  {a | ∃ b, f a = some b}

/-- The draws that have one result. -/
def withResult (b : β) : Set α :=
  {a | f a = some b}

/-- The draws that have no result. -/
def rejected : Set α :=
  {a | f a = none}

/-- The sequences of `k + 1` draws that are all taken and have a result. -/
def stopsAt (k : ℕ) : Set (Fin (k + 1) → α) :=
  {draws | ∃ b, resample f (List.ofFn draws) = some (b, [])}

/-- The sequences of `k + 1` draws that are all taken and have one result. -/
def stopsWith (k : ℕ) (b : β) : Set (Fin (k + 1) → α) :=
  {draws | resample f (List.ofFn draws) = some (b, [])}

variable {f}

theorem withResult_subset (b : β) : withResult f b ⊆ accepted f :=
  fun _ ha => ⟨b, ha⟩

/-- The draws with a result, result by result. -/
theorem accepted_eq_biUnion {results : Finset β} (hresult : ∀ a b, f a = some b → b ∈ results) :
    accepted f = ⋃ b ∈ results, withResult f b := by
  ext a
  simp only [accepted, withResult, Set.mem_iUnion, Set.mem_ofPred_eq, exists_prop]
  constructor
  · rintro ⟨b, hab⟩
    exact ⟨b, hresult a b hab, hab⟩
  · rintro ⟨b, -, hab⟩
    exact ⟨b, hab⟩

/-- All draws of a sequence are taken when the last one is the first with a result. -/
theorem mem_stopsWith_iff {k : ℕ} {b : β} {draws : Fin (k + 1) → α} :
    draws ∈ stopsWith f k b ↔
      (∀ i : Fin k, draws i.castSucc ∈ rejected f) ∧ draws (Fin.last k) ∈ withResult f b := by
  have hlist : List.ofFn draws =
      List.ofFn (fun i : Fin k => draws i.castSucc) ++ [draws (Fin.last k)] := by
    rw [List.ofFn_succ', List.concat_eq_append]
  rw [stopsWith, Set.mem_ofPred_eq, resample_eq_some_iff, hlist]
  constructor
  · rintro ⟨front, a, heq, hfront, ha⟩
    obtain ⟨hinit, hlast⟩ := List.append_inj' heq rfl
    obtain rfl : draws (Fin.last k) = a := by simpa using hlast
    subst hinit
    exact ⟨fun i => hfront _ (List.mem_ofFn.mpr ⟨i, rfl⟩), ha⟩
  · rintro ⟨hinit, hlast⟩
    refine ⟨_, _, rfl, ?_, hlast⟩
    intro a ha
    obtain ⟨i, rfl⟩ := List.mem_ofFn.mp ha
    exact hinit i

theorem stopsWith_eq_pi (k : ℕ) (b : β) :
    stopsWith f k b =
      Set.univ.pi (Fin.snoc (fun _ : Fin k => rejected f) (withResult f b)) := by
  ext draws
  rw [mem_stopsWith_iff, Set.mem_univ_pi, Fin.forall_fin_succ']
  simp

theorem stopsAt_eq_pi (k : ℕ) :
    stopsAt f k = Set.univ.pi (Fin.snoc (fun _ : Fin k => rejected f) (accepted f)) := by
  ext draws
  have hsome : draws ∈ stopsAt f k ↔ ∃ b, draws ∈ stopsWith f k b := Iff.rfl
  rw [hsome, Set.mem_univ_pi, Fin.forall_fin_succ']
  simp [mem_stopsWith_iff, accepted, withResult]

end Stopping

/-! ## The law of the result -/

section Law

variable {α β : Type} {f : α → Option β} [MeasurableSpace α] [MeasurableSingletonClass α]
  [Finite α]

/-- The draws before the first result do not change its law. -/
theorem uniformOn_stopsAt (hrejects : (rejected f).Nonempty) (k : ℕ) (b : β) :
    uniformOn (stopsAt f k) (stopsWith f k b) = uniformOn (accepted f) (withResult f b) := by
  have hearly : uniformOn (rejected f) (rejected f) = 1 :=
    uniformOn_self (Set.toFinite _) hrejects
  rw [stopsAt_eq_pi, stopsWith_eq_pi, uniformOn_pi, Measure.pi_pi, Fin.prod_univ_castSucc]
  simp [hearly]

/-- Two results that come from equally many draws are equally likely. -/
theorem uniformOn_withResult_congr {b b' : β}
    (hcard : (withResult f b).ncard = (withResult f b').ncard) :
    uniformOn (accepted f) (withResult f b) = uniformOn (accepted f) (withResult f b') := by
  have hcond (c : β) : uniformOn (accepted f) (withResult f c) =
      (Measure.count (accepted f))⁻¹ * ((withResult f c).ncard : ENNReal) := by
    have hcount : Measure.count (withResult f c) = ((withResult f c).ncard : ENNReal) := by
      rw [Measure.count_apply (Set.toFinite _).measurableSet,
        ← (Set.toFinite (withResult f c)).cast_ncard_eq]
      rfl
    rw [uniformOn, cond_apply (Set.toFinite _).measurableSet,
      Set.inter_eq_self_of_subset_right (withResult_subset c), hcount]
  rw [hcond, hcond, hcard]

/-- Results that come from equally many draws are equally likely. -/
theorem uniformOn_accepted {results : Finset β} (hresult : ∀ a b, f a = some b → b ∈ results)
    {n : ℕ} (hn : n ≠ 0) (hcard : ∀ b ∈ results, (withResult f b).ncard = n) {b : β}
    (hb : b ∈ results) :
    uniformOn (accepted f) (withResult f b) = (results.card : ENNReal)⁻¹ := by
  have hequal : ∀ b' ∈ results,
      uniformOn (accepted f) (withResult f b') = uniformOn (accepted f) (withResult f b) :=
    fun b' hb' => uniformOn_withResult_congr ((hcard b' hb').trans (hcard b hb).symm)
  -- a draw has one result at most
  have hdisjoint : Set.PairwiseDisjoint (results : Set β) (withResult f) := by
    intro b _ b' _ hne
    refine Set.disjoint_left.mpr fun a hab hab' => hne ?_
    exact Option.some.inj (hab.symm.trans hab')
  have hnonempty : (accepted f).Nonempty := by
    have hfibre : (withResult f b).Nonempty := Set.nonempty_of_ncard_ne_zero (by rwa [hcard b hb])
    exact hfibre.mono (withResult_subset b)
  have htotal : (results.card : ENNReal) * uniformOn (accepted f) (withResult f b) = 1 := by
    calc (results.card : ENNReal) * uniformOn (accepted f) (withResult f b)
        = ∑ b' ∈ results, uniformOn (accepted f) (withResult f b') := by
          rw [Finset.sum_congr rfl hequal, Finset.sum_const, nsmul_eq_mul]
      _ = uniformOn (accepted f) (⋃ b' ∈ results, withResult f b') :=
          (measure_biUnion_finset hdisjoint fun _ _ => (Set.toFinite _).measurableSet).symm
      _ = 1 := by rw [← accepted_eq_biUnion hresult, uniformOn_self (Set.toFinite _) hnonempty]
  exact ENNReal.eq_inv_of_mul_eq_one_left ((mul_comm _ _).trans htotal)

end Law

/-! ## Remainders -/

/-- Below a multiple of `m`, each remainder is as frequent as any other. -/
theorem ncard_residue {m c : ℕ} (hc : c < m) (q : ℕ) :
    {r : ℕ | r < q * m ∧ r % m = c}.ncard = q := by
  have hm : 0 < m := by omega
  have hset : {r : ℕ | r < q * m ∧ r % m = c} =
      ((Finset.range (q * m)).filter fun r => r ≡ c [MOD m] : Finset ℕ) := by
    ext r
    simp [Nat.ModEq, Nat.mod_eq_of_lt hc]
  rw [hset, Set.ncard_coe_finset, ← Nat.count_eq_card_filter_range, Nat.count_modEq_card _ hm]
  simp [hm]

end Foundations
