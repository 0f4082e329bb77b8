import WakeMyPc.Crypto.Pairing
import WakeMyPc.Foundations.ResamplingLaw

/-!
# Pairing codes are unbiased

A code is drawn by resampling.  The threshold is a multiple of the modulus, so each
code comes from equally many numbers below it.

Main results:

- Theorem `ncard_numbers_of_code`: how many numbers give one code.
- Theorem `pairing_codes_unbiased`: which draw the code comes from, and that all codes
  are equally likely after any number of draws that were too large.
-/

namespace WakeMyPc
namespace Crypto

open Foundations
open ProbabilityTheory (uniformOn)

/-! ## Numbers that give one code -/

private theorem toNat_ofNat_of_lt {n : ℕ} (h : n < 4294 * 1000000) : (UInt32.ofNat n).toNat = n :=
  UInt32.toNat_ofNat_of_lt' (h.trans (by decide))

/-- As many numbers below the threshold give one code as give any other. -/
theorem ncard_numbers_of_code {code : UInt32} (hcode : code < pairingCodeModulus) :
    {raw : UInt32 | raw < resampleThreshold ∧ raw % pairingCodeModulus = code}.ncard = 4294 := by
  have hmodulus : pairingCodeModulus.toNat = 1000000 := rfl
  have hthreshold : resampleThreshold.toNat = 4294 * 1000000 := rfl
  have hpreimage : {raw : UInt32 | raw < resampleThreshold ∧ raw % pairingCodeModulus = code} =
      Set.preimage UInt32.toNat {r | r < 4294 * 1000000 ∧ r % 1000000 = code.toNat} := by
    ext raw
    simp only [Set.mem_ofPred_eq, Set.mem_preimage, UInt32.lt_iff_toNat_lt, hthreshold,
      ← UInt32.toNat_inj, UInt32.toNat_mod, hmodulus]
  have hrange : {r | r < 4294 * 1000000 ∧ r % 1000000 = code.toNat} ⊆ Set.range UInt32.toNat := by
    rintro r ⟨hlt, -⟩
    exact ⟨UInt32.ofNat r, toNat_ofNat_of_lt hlt⟩
  have hinjective : Function.Injective UInt32.toNat := fun _ _ => UInt32.toNat_inj.mp
  rw [hpreimage, Set.ncard_preimage_of_injective_subset_range hinjective hrange]
  exact ncard_residue (UInt32.lt_iff_toNat_lt.mp hcode) 4294

/-- Each code comes from as many draws as any other. -/
theorem ncard_draws_of_code {code : UInt32} (hcode : code < pairingCodeModulus) :
    (withResult codeOfDraw code).ncard = 4294 := by
  have hpreimage : withResult codeOfDraw code = Set.preimage leU32
      {raw | raw < resampleThreshold ∧ raw % pairingCodeModulus = code} := by
    ext buf
    exact codeOfDraw_eq_some_iff
  have hrange : {raw | raw < resampleThreshold ∧ raw % pairingCodeModulus = code} ⊆
      Set.range leU32 := by
    rw [leU32_bijective.2.range_eq]
    exact Set.subset_univ _
  rw [hpreimage, Set.ncard_preimage_of_injective_subset_range leU32_bijective.1 hrange,
    ncard_numbers_of_code hcode]

/-! ## Equally likely draws -/

instance finiteDraws : Finite (Vector UInt8 4) :=
  Finite.of_injective (fun buf => (leU32 buf).toFin) fun _ _ h =>
    leU32_bijective.1 (UInt32.toFin_inj.mp h)

/-- Every set of draws is an event. -/
instance measurableDraws : MeasurableSpace (Vector UInt8 4) := ⊤

instance measurableDraw : MeasurableSingletonClass (Vector UInt8 4) where
  measurableSet_singleton _ := trivial

/-- The codes. -/
def pairingCodes : Finset UInt32 :=
  (Finset.range 1000000).image UInt32.ofNat

theorem mem_pairingCodes_iff {code : UInt32} :
    code ∈ pairingCodes ↔ code < pairingCodeModulus := by
  have hmodulus : pairingCodeModulus.toNat = 1000000 := rfl
  rw [pairingCodes, Finset.mem_image, UInt32.lt_iff_toNat_lt, hmodulus]
  constructor
  · rintro ⟨n, hn, rfl⟩
    rw [Finset.mem_range] at hn
    rwa [toNat_ofNat_of_lt (by omega)]
  · intro hlt
    exact ⟨code.toNat, Finset.mem_range.mpr hlt, UInt32.ofNat_toNat⟩

theorem card_pairingCodes : pairingCodes.card = 1000000 := by
  rw [pairingCodes, Finset.card_image_of_injOn, Finset.card_range]
  intro m hm n hn h
  rw [Finset.mem_coe, Finset.mem_range] at hm hn
  have hnat := congrArg UInt32.toNat h
  rwa [toNat_ofNat_of_lt (by omega), toNat_ofNat_of_lt (by omega)] at hnat

/-- A code is that of the first draw with one, if the generator does not fail. -/
theorem randomPairingCode_draws (bufs : List (Vector UInt8 4)) :
    randomPairingCode (bufs.map .ok) =
      (resample codeOfDraw bufs).map fun drawn => (.ok drawn.1, drawn.2.map .ok) := by
  induction bufs with
  | nil => rfl
  | cons buf bufs ih =>
      rw [List.map_cons, randomPairingCode, resample, codeOfDraw]
      split
      · rfl
      · exact ih

theorem randomPairingCode_draws_iff {bufs : List (Vector UInt8 4)} {code : UInt32} :
    randomPairingCode (bufs.map .ok) = some (.ok code, []) ↔
      resample codeOfDraw bufs = some (code, []) := by
  rw [randomPairingCode_draws]
  constructor
  · intro h
    obtain ⟨⟨code', rest⟩, hdrawn, heq⟩ := Option.map_eq_some_iff.mp h
    obtain ⟨hcode, hrest⟩ := Prod.mk.inj heq
    obtain rfl : code' = code := Except.ok.inj hcode
    obtain rfl : rest = [] := List.map_eq_nil_iff.mp hrest
    exact hdrawn
  · intro h
    rw [h]
    rfl

/-- All codes are equally likely, after any number of draws that were too large. -/
theorem uniformOn_code {code : UInt32} (hcode : code < pairingCodeModulus) (k : ℕ) :
    uniformOn (stopsAt codeOfDraw k) (stopsWith codeOfDraw k code) = 1 / 1000000 := by
  have hrejected : (rejected codeOfDraw).Nonempty := by
    obtain ⟨buf, hbuf⟩ := leU32_bijective.2 resampleThreshold
    exact ⟨buf, codeOfDraw_eq_none_iff.mpr (hbuf ▸ UInt32.le_refl _)⟩
  have hresult : ∀ buf code', codeOfDraw buf = some code' → code' ∈ pairingCodes := by
    intro buf code' h
    obtain ⟨-, rfl⟩ := codeOfDraw_eq_some_iff.mp h
    exact mem_pairingCodes_iff.mpr (UInt32.mod_lt _ (by decide))
  rw [uniformOn_stopsAt hrejected, uniformOn_accepted hresult (n := 4294) (by decide)
    (fun code' hcode' => ncard_draws_of_code (mem_pairingCodes_iff.mp hcode'))
    (mem_pairingCodes_iff.mpr hcode), card_pairingCodes]
  norm_num

/-- The code comes from the first number below the threshold, and all draws before it are
too large.  As many numbers give one code as give any other.  So when all draws are
equally likely and the first code comes after `k` draws that were too large, each code
has the same chance. -/
theorem pairing_codes_unbiased :
    (∀ (draws rest : List Draw) (code : UInt32),
      randomPairingCode draws = some (.ok code, rest) ↔
        ∃ front buf, draws = front ++ .ok buf :: rest ∧
          (∀ draw ∈ front, ∃ large, draw = .ok large ∧ resampleThreshold ≤ leU32 large) ∧
          leU32 buf < resampleThreshold ∧ leU32 buf % 1000000 = code) ∧
    (∀ bufs : List (Vector UInt8 4),
      randomPairingCode (bufs.map .ok) = none ↔ ∀ buf ∈ bufs, resampleThreshold ≤ leU32 buf) ∧
    ∀ code : UInt32, code < 1000000 →
      {raw : UInt32 | raw < resampleThreshold ∧ raw % 1000000 = code}.ncard = 4294 ∧
      ∀ k : ℕ,
        uniformOn
          {draws : Fin (k + 1) → Vector UInt8 4 |
            ∃ any, randomPairingCode ((List.ofFn draws).map .ok) = some (.ok any, [])}
          {draws | randomPairingCode ((List.ofFn draws).map .ok) = some (.ok code, [])} =
            1 / 1000000 := by
  refine ⟨fun draws rest code => randomPairingCode_ok_iff, ?_, ?_⟩
  · intro bufs
    rw [randomPairingCode_draws, Option.map_eq_none_iff, resample_eq_none_iff]
    simp only [codeOfDraw_eq_none_iff]
  · intro code hcode
    refine ⟨ncard_numbers_of_code hcode, fun k => ?_⟩
    simp only [randomPairingCode_draws_iff]
    exact uniformOn_code hcode k

/-- The largest code comes from as many numbers as any other, and after two draws that
were too large it has the chance of any other. -/
theorem largest_code_unbiased :
    {raw : UInt32 | raw < resampleThreshold ∧ raw % 1000000 = 999999}.ncard = 4294 ∧
      uniformOn
        {draws : Fin 3 → Vector UInt8 4 |
          ∃ any, randomPairingCode ((List.ofFn draws).map .ok) = some (.ok any, [])}
        {draws | randomPairingCode ((List.ofFn draws).map .ok) = some (.ok 999999, [])} =
          1 / 1000000 := by
  obtain ⟨hcount, hchance⟩ := pairing_codes_unbiased.2.2 999999 (by decide)
  exact ⟨hcount, hchance 2⟩

end Crypto
end WakeMyPc
