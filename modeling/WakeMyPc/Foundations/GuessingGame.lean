import Mathlib.Data.Set.Card
import Mathlib.Data.Finset.Lattice.Fold

/-!
# Guessing a secret against a machine that counts failures

A player calls a machine that keeps a secret, and chooses every call from the
answers so far.  As long as no call has hit the secret, the machine answers as
one that has no secret at all.  So the calls of the player, and the secrets they
test, are those of one run against the secretless machine, and the number of
secrets the player can ever hit is bounded by the budget of that run.

Main results:

- Theorem `length_guesses_le`: a run tests no more secrets than the budget.
- Theorem `mem_guesses_of_won`: a player who wins against some secret tests this
  secret in the secretless run.
- Theorem `encard_won_le`: a player wins against no more secrets than the budget.
-/

namespace Foundations

/-- A machine without a secret, whose calls each test at most one secret.  A call
that tests one costs at least one unit of the budget, and no call refunds any. -/
structure GuessingGame (κ σ χ τ : Type) where
  guess : σ → χ → Option κ
  miss : σ → χ → τ × σ
  budget : σ → ℕ
  guess_cost : ∀ {s x k}, guess s x = some k → budget (miss s x).2 < budget s
  budget_le : ∀ s x, budget (miss s x).2 ≤ budget s

/-- The answers of a machine to `n` calls of a player, and its state after them. -/
def play {ρ χ τ : Type} (step : ρ → χ → τ × ρ) (strategy : List τ → χ) (r : ρ) :
    ℕ → List τ × ρ
  | 0 => ([], r)
  | n + 1 =>
      let before := play step strategy r n
      let answer := step before.2 (strategy before.1)
      (before.1 ++ [answer.1], answer.2)

namespace GuessingGame

variable {κ σ χ τ : Type} (G : GuessingGame κ σ χ τ) (strategy : List τ → χ) (s : σ)

/-- The answers and the state of the secretless run after `n` calls. -/
def blind (n : ℕ) : List τ × σ :=
  play G.miss strategy s n

/-- The call number `n` of the secretless run. -/
def blindCall (n : ℕ) : χ :=
  strategy (G.blind strategy s n).1

theorem blind_succ (n : ℕ) :
    G.blind strategy s (n + 1) =
      ((G.blind strategy s n).1 ++
          [(G.miss (G.blind strategy s n).2 (G.blindCall strategy s n)).1],
        (G.miss (G.blind strategy s n).2 (G.blindCall strategy s n)).2) :=
  rfl

/-- The secrets that the first `n` calls of the secretless run test. -/
def guesses : ℕ → List κ
  | 0 => []
  | n + 1 =>
      guesses n ++ (G.guess (G.blind strategy s n).2 (G.blindCall strategy s n)).toList

/-- A run tests no more secrets than the budget. -/
theorem length_guesses_le (n : ℕ) :
    (G.guesses strategy s n).length + G.budget (G.blind strategy s n).2 ≤ G.budget s := by
  induction n with
  | zero => simp [guesses, blind, play]
  | succ n ih =>
      rw [guesses, List.length_append, blind_succ]
      cases h : G.guess (G.blind strategy s n).2 (G.blindCall strategy s n) with
      | none =>
          have hle := G.budget_le (G.blind strategy s n).2 (G.blindCall strategy s n)
          simp only [Option.toList_none, List.length_nil]
          omega
      | some k =>
          have hlt := G.guess_cost h
          simp only [Option.toList_some, List.length_singleton]
          omega

theorem guesses_mono {m n : ℕ} (h : m ≤ n) :
    G.guesses strategy s m <+: G.guesses strategy s n := by
  induction h with
  | refl => exact List.prefix_refl _
  | step _ ih => exact ih.trans (List.prefix_append _ _)

/-! ## Machines with a secret -/

/-- A machine with the secret `k` that behaves as the secretless one until a call
tests `k`.  The relation `rel` links their states, and `won` marks the answers
that a player is after. -/
structure Hides {ρ : Type} (step : ρ → χ → τ × ρ) (won : τ → Prop) (k : κ)
    (rel : ρ → σ → Prop) : Prop where
  answer : ∀ {r s} x, rel r s → G.guess s x ≠ some k → (step r x).1 = (G.miss s x).1
  state : ∀ {r s} x, rel r s → G.guess s x ≠ some k → rel (step r x).2 (G.miss s x).2
  not_won : ∀ s x, ¬ won (G.miss s x).1

variable {G strategy s} {ρ : Type} {step : ρ → χ → τ × ρ} {won : τ → Prop} {k : κ}
  {rel : ρ → σ → Prop}

/-- Until a call tests the secret, both machines give the same answers. -/
theorem play_eq_blind (H : G.Hides step won k rel) {r : ρ} (hrel : rel r s) (n : ℕ)
    (hn : k ∉ G.guesses strategy s n) :
    (play step strategy r n).1 = (G.blind strategy s n).1 ∧
      rel (play step strategy r n).2 (G.blind strategy s n).2 := by
  induction n with
  | zero => exact ⟨rfl, hrel⟩
  | succ n ih =>
      rw [guesses, List.mem_append, not_or] at hn
      obtain ⟨hanswers, hstate⟩ := ih hn.1
      have hguess : G.guess (G.blind strategy s n).2 (G.blindCall strategy s n) ≠ some k := by
        intro h
        exact hn.2 (by simp [h])
      have hcall : strategy (play step strategy r n).1 = G.blindCall strategy s n := by
        rw [hanswers, blindCall]
      rw [blind_succ, play, hcall, hanswers, H.answer _ hstate hguess]
      exact ⟨rfl, H.state _ hstate hguess⟩

/-- No answer of the secretless run is one the player is after. -/
theorem not_won_blind (H : G.Hides step won k rel) (n : ℕ) :
    ∀ t ∈ (G.blind strategy s n).1, ¬ won t := by
  induction n with
  | zero => simp [blind, play]
  | succ n ih =>
      intro t ht
      rw [blind_succ] at ht
      rcases List.mem_append.mp ht with hold | hnew
      · exact ih t hold
      · rw [List.mem_singleton.mp hnew]
        exact H.not_won _ _

/-- A player who wins against a secret tests it in the secretless run. -/
theorem mem_guesses_of_won (H : G.Hides step won k rel) {r : ρ} (hrel : rel r s) {n : ℕ} {t : τ}
    (ht : t ∈ (play step strategy r n).1) (hwon : won t) : k ∈ G.guesses strategy s n := by
  by_contra hnot
  rw [(play_eq_blind H hrel n hnot).1] at ht
  exact not_won_blind H n t ht hwon

/-- A player wins against no more secrets than the budget. -/
theorem encard_won_le [DecidableEq κ] (G : GuessingGame κ σ χ τ) (strategy : List τ → χ)
    (s : σ) {ks : Set κ} (h : ∀ k ∈ ks, ∃ n, k ∈ G.guesses strategy s n) :
    ks.encard ≤ G.budget s := by
  by_contra hlarge
  have hsucc : ((G.budget s + 1 : ℕ) : ℕ∞) ≤ ks.encard := by
    rw [Nat.cast_add, Nat.cast_one]
    exact Order.add_one_le_of_lt (not_le.mp hlarge)
  obtain ⟨t, hsub, hcard⟩ := Set.exists_subset_encard_eq hsucc
  have hfin : t.Finite := Set.finite_of_encard_eq_coe hcard
  choose! stage hstage using h
  -- one stage of the run by which every member of `t` has been tested
  let n := hfin.toFinset.sup stage
  have hsubset : hfin.toFinset ⊆ (G.guesses strategy s n).toFinset := by
    intro k hk
    have hle : stage k ≤ n := Finset.le_sup hk
    exact List.mem_toFinset.mpr ((G.guesses_mono strategy s hle).subset
      (hstage k (hsub (hfin.mem_toFinset.mp hk))))
  have hcount : G.budget s + 1 ≤ (G.guesses strategy s n).length :=
    calc G.budget s + 1 = hfin.toFinset.card := by
          rw [hfin.encard_eq_coe_toFinset_card] at hcard
          exact_mod_cast hcard.symm
      _ ≤ (G.guesses strategy s n).toFinset.card := Finset.card_le_card hsubset
      _ ≤ (G.guesses strategy s n).length := List.toFinset_card_le _
  have hbudget := G.length_guesses_le strategy s n
  omega

end GuessingGame
end Foundations
