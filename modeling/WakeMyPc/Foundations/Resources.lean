import WakeMyPc.Foundations.Interpretation
import WakeMyPc.Foundations.Runs

/-!
# Programs that give back what they take

Some operations hand out a resource, some need one, and some give one back.  A program is
tidy when it needs and gives back only what it has, and has in the end what it had at the
start.

Main results:

- Theorems `Tidy.bind` and `Tidy.interpret`: tidy programs can be composed, and operations
  can be carried out by tidy programs.
- Theorems `Tidy.acquire` and `Closes.free`: the scope of a resource.
- Theorem `sole_of_perform`: when no resource is handed out twice, tidy threads that take
  turns never share one.
- Theorem `TidyThread.perform`: a tidy thread stays tidy step by step.
-/

namespace Foundations

/-- Which events hand out a resource, and which operations need or give back one. -/
structure Discipline (Op : Type) (Ans : Op → Type) (R : Type) where
  gives : Event Op Ans → Option R
  needs : Op → Option R
  frees : Op → Option R

namespace Discipline

variable {Op Op' R κ α β : Type} {Ans : Op → Type} {Ans' : Op' → Type} [DecidableEq R]
variable (D : Discipline Op Ans R)

/-- How often a history has the resource after one more event. -/
def balanceStep (r : R) (n : ℕ) (e : Event Op Ans) : ℕ :=
  (if D.frees e.op = some r then n - 1 else n) + (if D.gives e = some r then 1 else 0)

/-- How often a history has the resource: how often it was handed out, less how often it was
given back. -/
def balance (r : R) (h : List (Event Op Ans)) : ℕ :=
  h.foldl (D.balanceStep r) 0

theorem balance_concat (r : R) (h : List (Event Op Ans)) (e : Event Op Ans) :
    D.balance r (h ++ [e]) = D.balanceStep r (D.balance r h) e :=
  List.foldl_concat ..

/-- What was just handed out, the history has. -/
theorem balance_pos_of_gives {r : R} {e : Event Op Ans} (h : List (Event Op Ans))
    (hgives : D.gives e = some r) : 0 < D.balance r (h ++ [e]) := by
  rw [balance_concat, balanceStep, if_pos hgives]
  exact Nat.succ_pos _

/-- The operation needs and gives back only what the history has. -/
def Owns (h : List (Event Op Ans)) (o : Op) : Prop :=
  ∀ r, D.needs o = some r ∨ D.frees o = some r → 0 < D.balance r h

/-- From a history the program needs and gives back only what it has, and in the end has
what it had. -/
def TidyFrom (h : List (Event Op Ans)) (p : Prog Op Ans α) : Prop :=
  p.Safe D.Owns h fun h' _ => ∀ r, D.balance r h' = D.balance r h

/-- The program is tidy in every history. -/
def Tidy (p : Prog Op Ans α) : Prop :=
  ∀ h, D.TidyFrom h p

variable {D}

theorem Tidy.ret (a : α) : D.Tidy (.ret a) :=
  fun _ _ => rfl

/-- An operation that has nothing to do with resources. -/
theorem Tidy.call {o : Op} (hgives : ∀ r, D.gives ⟨o, r⟩ = none) (hneeds : D.needs o = none)
    (hfrees : D.frees o = none) {k : Ans o → Prog Op Ans α} (hk : ∀ a, D.Tidy (k a)) :
    D.Tidy (.call o k) := by
  intro h
  refine ⟨fun r hr => by simp [hneeds, hfrees] at hr, fun a => ?_⟩
  refine (hk a _).mono fun h' _ hsame r => ?_
  rw [hsame r, balance_concat, balanceStep, hgives, hfrees]
  simp

/-- Tidy programs can be composed. -/
theorem Tidy.bind {p : Prog Op Ans α} {f : α → Prog Op Ans β} (hp : D.Tidy p)
    (hf : ∀ a, D.Tidy (f a)) : D.Tidy (p >>= f) := by
  refine fun h => (Prog.safe_bind _ _ _ _).mpr ((hp h).mono fun h' a hsame => ?_)
  exact (hf a h').mono fun h'' b hsame' r => (hsame' r).trans (hsame r)

/-- Operations can be carried out by tidy programs. -/
theorem Tidy.interpret {handler : (o : Op') → Prog Op Ans (Ans' o)}
    (hhandler : ∀ o, D.Tidy (handler o)) (p : Prog Op' Ans' α) :
    D.Tidy (Prog.interpret handler p) := by
  intro h
  refine Prog.safe_interpret (I := fun h' => ∀ r, D.balance r h' = D.balance r h) ?_ p fun _ => rfl
  intro o h' hsame
  exact (hhandler o h').mono fun h'' _ hsame' r => (hsame' r).trans (hsame r)

/-! ## The scope of a resource -/

/-- In a history that has the resource the program gives it back once, and is tidy
otherwise. -/
def Closes (D : Discipline Op Ans R) (r : R) (p : Prog Op Ans α) : Prop :=
  ∀ h, 0 < D.balance r h → p.Safe D.Owns h fun h' _ =>
    ∀ r', D.balance r' h' + (if r' = r then 1 else 0) = D.balance r' h

/-- An operation that may hand out a resource: what follows then gives it back. -/
theorem Tidy.acquire {o : Op} (hneeds : D.needs o = none) (hfrees : D.frees o = none)
    {k : Ans o → Prog Op Ans α} (hnone : ∀ a, D.gives ⟨o, a⟩ = none → D.Tidy (k a))
    (hsome : ∀ a r, D.gives ⟨o, a⟩ = some r → D.Closes r (k a)) : D.Tidy (.call o k) := by
  intro h
  refine ⟨fun r hr => by simp [hneeds, hfrees] at hr, fun a => ?_⟩
  have hbalance : ∀ r, D.balance r (h ++ [⟨o, a⟩]) =
      D.balance r h + (if D.gives ⟨o, a⟩ = some r then 1 else 0) := by
    intro r
    rw [balance_concat, balanceStep, hfrees]
    simp
  cases hgives : D.gives ⟨o, a⟩ with
  | none =>
      refine (hnone a hgives _).mono fun h' _ hsame r => ?_
      rw [hsame r, hbalance r, hgives]
      simp
  | some r =>
      have hpos : 0 < D.balance r (h ++ [⟨o, a⟩]) := by
        rw [hbalance r, hgives]
        simp
      refine (hsome a r hgives _ hpos).mono fun h' _ hclosed r' => ?_
      have hr' := hclosed r'
      rw [hbalance r', hgives] at hr'
      by_cases heq : r' = r
      · subst heq
        simpa using hr'
      · simpa [heq, Ne.symm heq] using hr'

/-- An operation that at most needs the resource. -/
theorem Closes.call {r : R} {o : Op} (hgives : ∀ a, D.gives ⟨o, a⟩ = none)
    (hneeds : ∀ r', D.needs o = some r' → r' = r) (hfrees : D.frees o = none)
    {k : Ans o → Prog Op Ans α} (hk : ∀ a, D.Closes r (k a)) : D.Closes r (.call o k) := by
  intro h hpos
  have hbalance : ∀ r' a, D.balance r' (h ++ [⟨o, a⟩]) = D.balance r' h := by
    intro r' a
    rw [balance_concat, balanceStep, hgives, hfrees]
    simp
  refine ⟨fun r' hr' => ?_, fun a => ?_⟩
  · rcases hr' with hr' | hr'
    · exact hneeds r' hr' ▸ hpos
    · simp [hfrees] at hr'
  · refine (hk a _ (by rwa [hbalance])).mono fun h' _ hclosed r' => ?_
    rw [hclosed r', hbalance]

/-- The operation that gives the resource back. -/
theorem Closes.free {r : R} {o : Op} (hgives : ∀ a, D.gives ⟨o, a⟩ = none)
    (hneeds : D.needs o = none) (hfrees : D.frees o = some r) {k : Ans o → Prog Op Ans α}
    (hk : ∀ a, D.Tidy (k a)) : D.Closes r (.call o k) := by
  intro h hpos
  refine ⟨fun r' hr' => ?_, fun a => (hk a _).mono fun h' _ hsame r' => ?_⟩
  · rcases hr' with hr' | hr'
    · simp [hneeds] at hr'
    · exact Option.some.inj (hfrees.symm.trans hr') ▸ hpos
  · rw [hsame r', balance_concat, balanceStep, hgives, hfrees]
    by_cases heq : r' = r
    · subst heq
      simp
      omega
    · simp [heq, Ne.symm heq]

/-! ## Threads -/

/-- The thread is tidy, and has nothing when it is finished. -/
def TidyThread (D : Discipline Op Ans R) (t : Thread Op Ans κ) : Prop :=
  t.rest.Safe D.Owns t.done fun h _ => ∀ r, D.balance r h = 0

theorem Tidy.thread {p : Prog Op Ans Unit} (hp : D.Tidy p) (kind : κ) :
    D.TidyThread ⟨kind, [], p⟩ :=
  (hp []).mono fun _ _ hsame r => hsame r

/-- A tidy thread stays tidy. -/
theorem TidyThread.perform {W : Type} {t t' : Thread Op Ans κ} (ht : D.TidyThread t)
    {answer : (o : Op) → Option (Ans o × W)} {e : Event Op Ans} {w : W}
    (hperform : t.perform answer = some (e, t', w)) : D.Owns t.done e.op ∧ D.TidyThread t' := by
  obtain ⟨k, hrest, -, rfl⟩ := Thread.perform_eq_some hperform
  rw [TidyThread, hrest] at ht
  exact ⟨ht.1, ht.2 e.ans⟩

/-- A thread that is finished has nothing. -/
theorem TidyThread.finished {t : Thread Op Ans κ} (ht : D.TidyThread t) {u : Unit}
    (hrest : t.rest = .ret u) (r : R) : D.balance r t.done = 0 := by
  rw [TidyThread, hrest] at ht
  exact ht r

/-! ## Threads that share

Threads of the same home are handed out resources of the same kind; resources of different
homes have nothing to do with each other. -/

section Sharing

variable {H : Type} (home : κ → H)

/-- No thread of the home has the resource. -/
def free [DecidableEq H] (D : Discipline Op Ans R) (ts : List (Thread Op Ans κ)) (h : H)
    (r : R) : Bool :=
  ts.all fun u => home u.kind ≠ h || D.balance r u.done == 0

variable {home}

theorem free_iff [DecidableEq H] {ts : List (Thread Op Ans κ)} {h : H} {r : R} :
    D.free home ts h r = true ↔ ∀ u ∈ ts, home u.kind = h → D.balance r u.done = 0 := by
  simp only [free, List.all_eq_true, Bool.or_eq_true, decide_eq_true_eq, beq_iff_eq]
  exact forall₂_congr fun u _ => ⟨fun hu hhome => hu.resolve_left (not_not.mpr hhome),
    fun hu => or_iff_not_imp_left.mpr fun hhome => hu (not_not.mp hhome)⟩

/-- No resource is had twice in one home. -/
structure Exclusive (D : Discipline Op Ans R) (home : κ → H) (ts : List (Thread Op Ans κ)) :
    Prop where
  once : ∀ t ∈ ts, ∀ r, D.balance r t.done ≤ 1
  apart : ∀ {i j : ℕ} {t u : Thread Op Ans κ}, i ≠ j → ts[i]? = some t → ts[j]? = some u →
    home t.kind = home u.kind → ∀ r, D.balance r t.done = 0 ∨ D.balance r u.done = 0

theorem Exclusive.nil : D.Exclusive home ([] : List (Thread Op Ans κ)) :=
  ⟨fun t ht => absurd ht List.not_mem_nil, fun _ ht => by simp at ht⟩

/-- A thread that starts has nothing. -/
theorem Exclusive.concat {ts : List (Thread Op Ans κ)} (h : D.Exclusive home ts)
    {t : Thread Op Ans κ} (ht : t.done = []) : D.Exclusive home (ts ++ [t]) := by
  have hzero : ∀ r, D.balance r t.done = 0 := fun r => by rw [ht]; rfl
  refine ⟨fun u hu r => ?_, fun {i j u u'} hij hu hu' hhome r => ?_⟩
  · rcases List.mem_append.mp hu with hu | hu
    · exact h.once u hu r
    · obtain rfl := List.mem_singleton.mp hu
      exact hzero r ▸ Nat.zero_le 1
  · rcases getElem?_concat_cases hu with hold | ⟨-, rfl⟩
    · rcases getElem?_concat_cases hu' with hold' | ⟨-, rfl⟩
      · exact h.apart hij hold hold' hhome r
      · exact .inr (hzero r)
    · exact .inl (hzero r)

/-- Threads that are cut off keep what they have. -/
theorem Exclusive.map {ts : List (Thread Op Ans κ)} (h : D.Exclusive home ts)
    {f : Thread Op Ans κ → Thread Op Ans κ} (hkind : ∀ t, (f t).kind = t.kind)
    (hdone : ∀ t, (f t).done = t.done) : D.Exclusive home (ts.map f) := by
  refine ⟨fun u hu r => ?_, fun {i j u u'} hij hu hu' hhome r => ?_⟩
  · obtain ⟨t, ht, rfl⟩ := List.mem_map.mp hu
    rw [hdone]
    exact h.once t ht r
  · rw [List.getElem?_map] at hu hu'
    obtain ⟨t, ht, rfl⟩ := Option.map_eq_some_iff.mp hu
    obtain ⟨t', ht', rfl⟩ := Option.map_eq_some_iff.mp hu'
    rw [hkind, hkind] at hhome
    rw [hdone, hdone]
    exact h.apart hij ht ht' hhome r

/-- When only what no thread of the home has is handed out, no resource is had twice. -/
theorem Exclusive.perform [DecidableEq H] {W : Type} {ts : List (Thread Op Ans κ)}
    (h : D.Exclusive home ts) {i : ℕ} {t t' : Thread Op Ans κ} (ht : ts[i]? = some t)
    {answer : (o : Op) → Option (Ans o × W)} {e : Event Op Ans} {w : W}
    (hperform : t.perform answer = some (e, t', w))
    (hfresh : ∀ r, D.gives e = some r → D.free home ts (home t.kind) r = true) :
    D.Exclusive home (ts.set i t') := by
  obtain ⟨k, -, -, hafter⟩ := Thread.perform_eq_some hperform
  have hkind : t'.kind = t.kind := by rw [hafter]
  have hdone : ∀ r, D.balance r t'.done = D.balanceStep r (D.balance r t.done) e := by
    intro r
    rw [hafter, balance_concat]
  have hmem := List.mem_of_getElem? ht
  -- the thread has more than before only of what it was handed out, and nobody had that
  have hmore : ∀ r, D.balance r t'.done ≤ D.balance r t.done ∨
      D.balance r t'.done ≤ 1 ∧ D.free home ts (home t.kind) r = true := by
    intro r
    by_cases hgives : D.gives e = some r
    · have hzero := free_iff.mp (hfresh r hgives) t hmem rfl
      refine .inr ⟨?_, hfresh r hgives⟩
      rw [hdone, balanceStep, if_pos hgives, hzero]
      split <;> omega
    · refine .inl ?_
      rw [hdone, balanceStep, if_neg hgives]
      split <;> omega
  have hapart : ∀ j u, j ≠ i → ts[j]? = some u → home u.kind = home t.kind → ∀ r,
      D.balance r u.done = 0 ∨ D.balance r t'.done = 0 := by
    intro j u hj hu hhome r
    rcases hmore r with hle | ⟨-, hfree⟩
    · exact (h.apart hj hu ht hhome r).imp_right fun hzero => by omega
    · exact .inl (free_iff.mp hfree u (List.mem_of_getElem? hu) hhome)
  refine ⟨fun u hu r => ?_, fun {j j' u u'} hj hu hu' hhome r => ?_⟩
  · rcases List.mem_or_eq_of_mem_set hu with hu | rfl
    · exact h.once u hu r
    · exact (hmore r).elim (fun hle => Nat.le_trans hle (h.once t hmem r)) And.left
  · rcases getElem?_set_cases hu with ⟨rfl, rfl⟩ | ⟨hji, hold⟩
    · rcases getElem?_set_cases hu' with ⟨rfl, -⟩ | ⟨hji', hold'⟩
      · exact absurd rfl hj
      · exact (hapart j' u' hji' hold' (hhome.symm.trans (congrArg home hkind)) r).symm
    · rcases getElem?_set_cases hu' with ⟨rfl, rfl⟩ | ⟨hji', hold'⟩
      · exact hapart j u hji hold (hhome.trans (congrArg home hkind)) r
      · exact h.apart hj hold hold' hhome r

/-- What a tidy thread needs or gives back, it has once, and no other thread of its home has
it. -/
theorem sole_of_perform {W : Type} {ts : List (Thread Op Ans κ)} (h : D.Exclusive home ts)
    {i : ℕ} {t t' : Thread Op Ans κ} (ht : ts[i]? = some t) (htidy : D.TidyThread t)
    {answer : (o : Op) → Option (Ans o × W)} {e : Event Op Ans} {w : W}
    (hperform : t.perform answer = some (e, t', w)) {r : R}
    (hr : D.needs e.op = some r ∨ D.frees e.op = some r) :
    D.balance r t.done = 1 ∧ ∀ j u, j ≠ i → ts[j]? = some u → home u.kind = home t.kind →
      D.balance r u.done = 0 := by
  have hpos := (htidy.perform hperform).1 r hr
  have hone := h.once t (List.mem_of_getElem? ht) r
  refine ⟨by omega, fun j u hj hu hhome => ?_⟩
  exact (h.apart hj hu ht hhome r).resolve_right (by omega)

end Sharing
end Discipline
end Foundations
