import WakeMyPc.Foundations.NumberCodes

/-!
# Decoders of streams

A decoder of a stream looks at no more than it takes.  What it has taken does not depend on what
follows; when it fails, the input ended too early, or whatever follows does not help.

Main results:

- Theorem `Decoder.Streams.bind`: sequences of such decoders are such decoders.
- Theorem `streams_readVarint`: a varint reader is one.
- Theorem `Decoder.Streams.cut_short`: a value that is cut short is refused for that reason.
- Theorems `Decoder.Yields.bind` and `Decoder.Yields.replicate`: how many items are taken, and for
  which values.
-/

namespace Foundations
namespace Decoder

variable {β ε α γ : Type}

/-- What the decoder takes is all that it looks at, and it fails with an error other than `short`
only where it fails whatever follows. -/
structure Streams (short : ε) (d : Decoder β ε α) : Prop where
  takes : ∀ {input a rest}, d input = .ok (a, rest) → ∃ bs, input = bs ++ rest ∧ d.Reads bs a
  fails : ∀ {input e}, d input = .error e → e = short ∨ ∀ more, d (input ++ more) = .error e

namespace Streams

variable {short : ε} {d : Decoder β ε α} {f : α → Decoder β ε γ}

/-- A decoder that takes nothing looks at nothing. -/
theorem pure (a : α) : Streams short (Pure.pure a : Decoder β ε α) where
  takes h := by
    cases h
    exact ⟨[], rfl, .pure a⟩
  fails h := nomatch h

/-- A decoder that always fails does so whatever follows. -/
theorem fail (e : ε) : Streams short (Decoder.fail e : Decoder β ε α) where
  takes h := nomatch h
  fails h := by
    cases h
    exact .inr fun _ => rfl

/-- A single item, of an input that may have ended. -/
theorem item : Streams short (Decoder.item short : Decoder β ε β) where
  takes {input a rest} h := by
    cases input with
    | nil => cases h
    | cons b input =>
        cases h
        exact ⟨[a], rfl, .item short a⟩
  fails {input e} h := by
    cases input with
    | nil =>
        cases h
        exact .inl rfl
    | cons b input => cases h

/-- A fixed number of items. -/
theorem take (n : ℕ) : Streams short (Decoder.take short n : Decoder β ε (List β)) where
  takes {input a rest} h := by
    unfold Decoder.take at h
    split at h
    · next hn =>
        cases h
        have hreads := Reads.take short (input.take n)
        rw [List.length_take, Nat.min_eq_left hn] at hreads
        exact ⟨input.take n, (List.take_append_drop n input).symm, hreads⟩
    · cases h
  fails {input e} h := by
    unfold Decoder.take at h
    split at h
    · cases h
    · cases h
      exact .inl rfl

/-- A check of what was taken takes nothing itself. -/
theorem ofOption (e : ε) (value : Option α) :
    Streams short (Decoder.ofOption e value : Decoder β ε α) := by
  cases value with
  | none => exact fail e
  | some a => exact pure a

/-- Sequences of stream decoders are stream decoders. -/
theorem bind (hd : Streams short d) (hf : ∀ a, Streams short (f a)) :
    Streams short (d >>= f) where
  takes {input c rest} h := by
    rw [bind_apply] at h
    cases hfirst : d input with
    | error e =>
        rw [hfirst] at h
        cases h
    | ok taken =>
        obtain ⟨a, middle⟩ := taken
        rw [hfirst] at h
        obtain ⟨bs, rfl, hbs⟩ := hd.takes hfirst
        obtain ⟨cs, rfl, hcs⟩ := (hf a).takes h
        exact ⟨bs ++ cs, (List.append_assoc ..).symm, hbs.bind hcs⟩
  fails {input e} h := by
    rw [bind_apply] at h
    cases hfirst : d input with
    | error e' =>
        rw [hfirst] at h
        cases h
        refine (hd.fails hfirst).imp_right fun hstays more => ?_
        rw [bind_apply, hstays more]
    | ok taken =>
        obtain ⟨a, middle⟩ := taken
        rw [hfirst] at h
        obtain ⟨bs, rfl, hbs⟩ := hd.takes hfirst
        refine ((hf a).fails h).imp_right fun hstays more => ?_
        rw [bind_apply, List.append_assoc, hbs (middle ++ more)]
        exact hstays more

/-- A stream decoder stays one when its value is rewritten. -/
theorem map (g : α → γ) (hd : Streams short d) : Streams short (g <$> d) :=
  hd.bind fun a => pure (g a)

/-- A fixed number of values, one after the other. -/
theorem replicate (hd : Streams short d) (n : ℕ) : Streams short (Decoder.replicate d n) := by
  induction n with
  | zero => exact pure []
  | succ n ih => exact hd.bind fun a => ih.bind fun as => pure (a :: as)

/-- A value that is cut short is refused for that reason. -/
theorem cut_short (hd : Streams short d) {front tail : List β} {a : α}
    (hreads : d.Reads (front ++ tail) a) (htail : tail ≠ []) : d front = .error short := by
  have hwhole : d (front ++ tail) = .ok (a, []) := by simpa using hreads []
  cases hfront : d front with
  | error e =>
      rcases hd.fails hfront with rfl | hstays
      · rfl
      · rw [hstays tail] at hwhole
        cases hwhole
  | ok taken =>
      -- what was taken would be taken of the whole input, and leave the rest of it
      obtain ⟨b, rest⟩ := taken
      obtain ⟨bs, rfl, hbs⟩ := hd.takes hfront
      rw [List.append_assoc, hbs (rest ++ tail)] at hwhole
      have hnil : rest ++ tail = [] := congrArg Prod.snd (Except.ok.inj hwhole)
      exact absurd (List.append_eq_nil_iff.mp hnil).2 htail

/-- What was taken stays taken, whatever follows. -/
theorem stays (hd : Streams short d) {input rest : List β} {a : α}
    (h : d input = .ok (a, rest)) (more : List β) : d (input ++ more) = .ok (a, rest ++ more) := by
  obtain ⟨bs, rfl, hbs⟩ := hd.takes h
  rw [List.append_assoc]
  exact hbs (rest ++ more)

end Streams

/-! ## What is taken -/

/-- Whenever the decoder takes `n` items for the value `a`, they satisfy `P`. -/
def Yields (d : Decoder β ε α) (P : ℕ → α → Prop) : Prop :=
  ∀ input a rest, d input = .ok (a, rest) → ∃ n, input.length = n + rest.length ∧ P n a

namespace Yields

variable {d : Decoder β ε α} {f : α → Decoder β ε γ} {P : ℕ → α → Prop} {Q : ℕ → γ → Prop}

/-- What is said about the items taken may be weakened. -/
theorem mono {P' : ℕ → α → Prop} (hd : d.Yields P) (h : ∀ n a, P n a → P' n a) :
    d.Yields P' := by
  intro input a rest htaken
  obtain ⟨n, hlength, ha⟩ := hd input a rest htaken
  exact ⟨n, hlength, h n a ha⟩

/-- A decoder that takes nothing takes no items. -/
theorem pure {a : α} (h : P 0 a) : Yields (Pure.pure a : Decoder β ε α) P := by
  rintro input _ rest ⟨⟩
  exact ⟨0, (Nat.zero_add _).symm, h⟩

/-- A decoder that always fails takes nothing. -/
theorem fail (e : ε) : Yields (Decoder.fail e : Decoder β ε α) P := by
  rintro input a rest ⟨⟩

/-- A single item is one item. -/
theorem item (e : ε) : Yields (Decoder.item e : Decoder β ε β) fun n _ => n = 1 := by
  intro input b rest h
  cases input with
  | nil => cases h
  | cons c input =>
      cases h
      exact ⟨1, by rw [List.length_cons, Nat.add_comm], rfl⟩

/-- A fixed number of items is that many. -/
theorem take (e : ε) (n : ℕ) :
    Yields (Decoder.take e n : Decoder β ε (List β)) fun m _ => m = n := by
  intro input bs rest h
  unfold Decoder.take at h
  split at h
  · next hn =>
      cases h
      exact ⟨n, by rw [List.length_drop]; omega, rfl⟩
  · cases h

/-- Of a decoder of a stream nothing else need be known. -/
theorem of_streams {short : ε} (hd : d.Streams short) : d.Yields fun _ _ => True := by
  intro input a rest h
  obtain ⟨bs, rfl, -⟩ := hd.takes h
  exact ⟨bs.length, List.length_append, trivial⟩

/-- A sequence takes what its parts take. -/
theorem bind (hd : d.Yields P) (hf : ∀ n a, P n a → (f a).Yields fun m c => Q (n + m) c) :
    (d >>= f).Yields Q := by
  intro input c rest h
  rw [bind_apply] at h
  cases hfirst : d input with
  | error e =>
      rw [hfirst] at h
      cases h
  | ok taken =>
      obtain ⟨a, middle⟩ := taken
      rw [hfirst] at h
      obtain ⟨n, hn, ha⟩ := hd input a middle hfirst
      obtain ⟨m, hm, hc⟩ := hf n a ha middle c rest h
      exact ⟨n + m, by omega, hc⟩

/-- Values that take an item each are no more than the items. -/
theorem replicate {R : α → Prop} (hd : d.Yields fun n a => 1 ≤ n ∧ R a) (k : ℕ) :
    (Decoder.replicate d k).Yields fun n as => as.length ≤ n ∧ ∀ a ∈ as, R a := by
  induction k with
  | zero => exact pure ⟨Nat.le_refl 0, nofun⟩
  | succ k ih =>
      refine hd.bind fun n a ha => ih.bind fun m as has => pure ⟨?_, ?_⟩
      · rw [List.length_cons]
        omega
      · exact List.forall_mem_cons.mpr ⟨ha.2, has.2⟩

end Yields
end Decoder

/-- A varint reader decodes a stream. -/
theorem streams_readVarint {ε : Type} (short bad : ε) (last n : ℕ) :
    (readVarint short bad last n).Streams short := by
  induction n with
  | zero => exact .fail bad
  | succ n ih =>
      refine .bind .item fun b => ?_
      split
      · split
        · exact .fail bad
        · exact .pure _
      · exact ih.bind fun high => .pure _

end Foundations
