import Mathlib.Data.List.Basic
import Mathlib.Tactic.Basic

/-!
# Decoders and what they read

A decoder takes a value off the front of its input and leaves the rest.  The
predicate `Reads d bs a` says that `d` takes exactly the items `bs` for the
value `a`, whatever follows.  Laws for sequencing, repeating and renaming
decoders give the round trip of a composite format from those of its fields.

Main results:

- Theorem `Reads.bind`: the items of a sequence are the items of its parts.
- Theorem `Reads.replicate`: the items of a repeated field are those of its
  copies, in order.
- Theorem `Reads.prefix_free`: no encoding is a proper prefix of another.
- Structure `Codec`: a writer and a reader that carry their round trip.
-/

namespace Foundations

/-- A decoder over items `β` with errors `ε`. -/
def Decoder (β ε α : Type) := List β → Except ε (α × List β)

namespace Decoder

variable {β ε α γ : Type}

/-- Decode a value and go on with what is left. -/
def andThen (d : Decoder β ε α) (f : α → Decoder β ε γ) : Decoder β ε γ :=
  fun input =>
    match d input with
    | .error e => .error e
    | .ok (a, rest) => f a rest

instance : Monad (Decoder β ε) where
  pure a := fun input => .ok (a, input)
  bind := andThen

theorem bind_apply (d : Decoder β ε α) (f : α → Decoder β ε γ) (input : List β) :
    (d >>= f) input =
      match d input with
      | .error e => .error e
      | .ok (a, rest) => f a rest :=
  rfl

/-- Refuse the input. -/
def fail (e : ε) : Decoder β ε α :=
  fun _ => .error e

/-- Take one item; `e` is the error at the end of the input. -/
def item (e : ε) : Decoder β ε β
  | [] => .error e
  | b :: rest => .ok (b, rest)

/-- Take the next `n` items; `e` is the error when there are fewer. -/
def take (e : ε) (n : ℕ) : Decoder β ε (List β) :=
  fun input => if n ≤ input.length then .ok (input.take n, input.drop n) else .error e

/-- Take `n` values one after the other. -/
def replicate (d : Decoder β ε α) : ℕ → Decoder β ε (List α)
  | 0 => pure []
  | n + 1 => do
      let a ← d
      let as ← replicate d n
      return a :: as

/-- Turn an optional value into a decoder that takes nothing. -/
def ofOption (e : ε) : Option α → Decoder β ε α
  | none => fail e
  | some a => pure a

/-- The decoder takes exactly `bs` and returns `a`, whatever follows. -/
def Reads (d : Decoder β ε α) (bs : List β) (a : α) : Prop :=
  ∀ rest, d (bs ++ rest) = .ok (a, rest)

namespace Reads

variable {d : Decoder β ε α} {f : α → Decoder β ε γ} {bs cs : List β} {a : α} {c : γ}

theorem pure (a : α) : Reads (Pure.pure a : Decoder β ε α) [] a :=
  fun _ => rfl

/-- The items of a sequence are the items of its parts. -/
theorem bind (hd : Reads d bs a) (hf : Reads (f a) cs c) : Reads (d >>= f) (bs ++ cs) c := by
  intro rest
  rw [bind_apply, List.append_assoc, hd (cs ++ rest)]
  exact hf rest

/-- A sequence whose last part takes nothing. -/
theorem bind_nil (hd : Reads d bs a) (hf : Reads (f a) [] c) : Reads (d >>= f) bs c := by
  simpa using hd.bind hf

theorem map (g : α → γ) (hd : Reads d bs a) : Reads (g <$> d) bs (g a) :=
  hd.bind_nil (pure (g a))

theorem item (e : ε) (b : β) : Reads (Decoder.item e) [b] b :=
  fun _ => rfl

theorem take (e : ε) (bs : List β) : Reads (Decoder.take e bs.length) bs bs := by
  intro rest
  simp [Decoder.take]

theorem ofOption (e : ε) {value : Option α} (h : value = some a) :
    Reads (Decoder.ofOption e value : Decoder β ε α) [] a := by
  rw [h]
  exact pure a

/-- The items of a repeated field are those of its copies, in order. -/
theorem replicate {encode : γ → List β} {g : γ → α} {cs : List γ}
    (h : ∀ c ∈ cs, Reads d (encode c) (g c)) :
    Reads (Decoder.replicate d cs.length) (cs.flatMap encode) (cs.map g) := by
  induction cs with
  | nil => exact pure []
  | cons c cs ih =>
      have htail := ih fun b hb => h b (List.mem_cons_of_mem c hb)
      rw [List.flatMap_cons]
      exact (h c List.mem_cons_self).bind (htail.bind_nil (pure (g c :: cs.map g)))

/-- No encoding is a proper prefix of another. -/
theorem prefix_free {b : α} {s : List β} (hd : Reads d bs a) (hs : Reads d (bs ++ s) b) :
    s = [] ∧ a = b := by
  have hshort : d (bs ++ s) = .ok (a, s) := hd s
  have hlong : d (bs ++ s) = .ok (b, []) := by simpa using hs []
  have hsame : (a, s) = (b, []) := Except.ok.inj (hshort.symm.trans hlong)
  exact ⟨congrArg Prod.snd hsame, congrArg Prod.fst hsame⟩

end Reads
end Decoder

/-! ## Formats -/

/-- A format of values of `α` as items `β`: a writer, a reader, and that the
reader takes exactly what the writer wrote. -/
structure Codec (β ε α : Type) where
  encode : α → List β
  decode : Decoder β ε α
  reads : ∀ a, decode.Reads (encode a) a

namespace Codec

variable {β ε α γ : Type}

/-- A format of `γ` through `α`, with the error `e` for values of `α` that stand
for no value of `γ`. -/
def narrow (c : Codec β ε α) (e : ε) (write : γ → α) (read : α → Option γ)
    (h : ∀ g, read (write g) = some g) : Codec β ε γ where
  encode g := c.encode (write g)
  decode := c.decode >>= fun a => Decoder.ofOption e (read a)
  reads g := (c.reads (write g)).bind_nil (Decoder.Reads.ofOption e (h g))

end Codec
end Foundations
