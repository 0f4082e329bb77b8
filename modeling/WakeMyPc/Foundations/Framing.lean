import Mathlib.Data.List.Basic
import Mathlib.Tactic.Basic

/-!
# Streams of frames read in pieces

A framer looks at the front of a buffer and reports a frame, a refusal, or that
it needs more.  Its verdicts other than the last do not change when the buffer
grows.  A reader of a stream that arrives in pieces appends each piece to its
buffer until the framer reports something.

Main results:

- Theorem `pull_eq`: what a reader reports, and what it leaves, depends on the
  bytes of the pieces together and not on where they are cut.
- Theorem `split_flatMap_append`: a stream of encoded frames splits into these
  frames, and what follows splits as it would alone.
-/

namespace Foundations

/-- What a framer says about a buffer. -/
inductive Verdict (β ε φ : Type) where
  | frame (f : φ) (rest : List β)
  | more
  | bad (e : ε)

/-- A framer whose reports are final: they stay when the buffer grows. -/
structure Framer (β ε φ : Type) where
  next : List β → Verdict β ε φ
  next_nil : next [] = .more
  rest_shorter : ∀ {bs f rest}, next bs = .frame f rest → rest.length < bs.length
  frame_append : ∀ {bs f rest} (s : List β),
    next bs = .frame f rest → next (bs ++ s) = .frame f (rest ++ s)
  bad_append : ∀ {bs e} (s : List β), next bs = .bad e → next (bs ++ s) = .bad e

/-- What one call of a reader ends with: a frame with the buffer and the pieces
that are left, a refusal with the pieces that are left, or the buffer at the end
of the pieces. -/
inductive Pulled (β ε φ : Type) where
  | frame (f : φ) (buf : List β) (pieces : List (List β))
  | bad (e : ε) (pieces : List (List β))
  | short (buf : List β)

/-- The pieces that are left. -/
def Pulled.pieces {β ε φ : Type} : Pulled β ε φ → List (List β)
  | frame _ _ pieces => pieces
  | bad _ pieces => pieces
  | short _ => []

namespace Framer

variable {β ε φ : Type} (F : Framer β ε φ)

/-- One call of a reader with the buffer `buf` on the pieces still to come. -/
def pull : List (List β) → List β → Pulled β ε φ
  | [], buf =>
      match F.next buf with
      | .frame f rest => .frame f rest []
      | .bad e => .bad e []
      | .more => .short buf
  | piece :: pieces, buf =>
      match F.next buf with
      | .frame f rest => .frame f rest (piece :: pieces)
      | .bad e => .bad e (piece :: pieces)
      | .more => pull pieces (buf ++ piece)

theorem pull_frame {pieces : List (List β)} {buf rest : List β} {f : φ}
    (h : F.next buf = .frame f rest) : F.pull pieces buf = .frame f rest pieces := by
  cases pieces <;> simp [pull, h]

theorem pull_bad {pieces : List (List β)} {buf : List β} {e : ε}
    (h : F.next buf = .bad e) : F.pull pieces buf = .bad e pieces := by
  cases pieces <;> simp [pull, h]

theorem pull_more_nil {buf : List β} (h : F.next buf = .more) : F.pull [] buf = .short buf := by
  simp [pull, h]

theorem pull_more_cons {piece buf : List β} {pieces : List (List β)} (h : F.next buf = .more) :
    F.pull (piece :: pieces) buf = F.pull pieces (buf ++ piece) := by
  simp [pull, h]

/-- What a reader reports, and what it leaves, depends on the bytes of the
pieces together and not on where they are cut. -/
theorem pull_eq (pieces : List (List β)) (buf : List β) :
    (∃ f rest buf' pieces', F.next (buf ++ pieces.flatten) = .frame f rest ∧
        F.pull pieces buf = .frame f buf' pieces' ∧ rest = buf' ++ pieces'.flatten ∧
        pieces' <:+ pieces) ∨
      (∃ e pieces', F.next (buf ++ pieces.flatten) = .bad e ∧
        F.pull pieces buf = .bad e pieces') ∨
      (F.next (buf ++ pieces.flatten) = .more ∧
        F.pull pieces buf = .short (buf ++ pieces.flatten)) := by
  induction pieces generalizing buf with
  | nil =>
      cases h : F.next buf with
      | frame f rest =>
          exact .inl ⟨f, rest, rest, [], by simpa using h, F.pull_frame h, by simp,
            List.suffix_refl _⟩
      | bad e => exact .inr (.inl ⟨e, [], by simpa using h, F.pull_bad h⟩)
      | more => exact .inr (.inr ⟨by simpa using h, by simpa using F.pull_more_nil h⟩)
  | cons piece pieces ih =>
      cases h : F.next buf with
      | frame f rest =>
          exact .inl ⟨f, rest ++ (piece :: pieces).flatten, rest, piece :: pieces,
            F.frame_append _ h, F.pull_frame h, rfl, List.suffix_refl _⟩
      | bad e => exact .inr (.inl ⟨e, piece :: pieces, F.bad_append _ h, F.pull_bad h⟩)
      | more =>
          rw [F.pull_more_cons h, List.flatten_cons, ← List.append_assoc]
          rcases ih (buf ++ piece) with
            ⟨f, rest, buf', pieces', hnext, hpull, hrest, hsuffix⟩ | hother
          · exact .inl ⟨f, rest, buf', pieces', hnext, hpull, hrest,
              hsuffix.trans (List.suffix_cons piece pieces)⟩
          · exact .inr hother

/-! ## Whole streams -/

/-- The frames of a stream, and the bytes from the first one on that is no
frame. -/
def split (input : List β) : List φ × List β :=
  match _h : F.next input with
  | .frame f rest => (f :: (split rest).1, (split rest).2)
  | .more => ([], input)
  | .bad _ => ([], input)
termination_by input.length
decreasing_by all_goals exact F.rest_shorter _h

theorem split_frame {input rest : List β} {f : φ} (h : F.next input = .frame f rest) :
    F.split input = (f :: (F.split rest).1, (F.split rest).2) := by
  rw [split]
  split <;> simp_all

theorem split_more {input : List β} (h : F.next input = .more) : F.split input = ([], input) := by
  rw [split]
  split <;> simp_all

theorem split_bad {input : List β} {e : ε} (h : F.next input = .bad e) :
    F.split input = ([], input) := by
  rw [split]
  split <;> simp_all

/-- A stream whose first frame is `f` starts with `f`. -/
theorem split_cons {input : List β} {f : φ} {fs : List φ} (h : (F.split input).1 = f :: fs) :
    ∃ rest, F.next input = .frame f rest ∧ (F.split rest).1 = fs := by
  cases hnext : F.next input with
  | frame g rest =>
      rw [F.split_frame hnext] at h
      obtain ⟨rfl, hfs⟩ := List.cons.inj h
      exact ⟨rest, rfl, hfs⟩
  | more => simp [F.split_more hnext] at h
  | bad e => simp [F.split_bad hnext] at h

/-- A stream of encoded frames splits into these frames, and what follows
splits as it would alone. -/
theorem split_flatMap_append {encode : φ → List β} {fs : List φ}
    (h : ∀ f ∈ fs, ∀ rest, F.next (encode f ++ rest) = .frame f rest) (t : List β) :
    F.split (fs.flatMap encode ++ t) = (fs ++ (F.split t).1, (F.split t).2) := by
  induction fs with
  | nil => simp
  | cons f fs ih =>
      have htail := ih fun g hg => h g (List.mem_cons_of_mem f hg)
      have hhead := h f List.mem_cons_self (fs.flatMap encode ++ t)
      rw [List.flatMap_cons, List.append_assoc, F.split_frame hhead, htail]
      rfl

end Framer
end Foundations
