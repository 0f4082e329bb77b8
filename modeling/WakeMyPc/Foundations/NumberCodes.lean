import WakeMyPc.Foundations.Decoder
import Mathlib.Algebra.Order.Ring.Nat
import Mathlib.Data.List.Induction
import Mathlib.Tactic.Ring

/-!
# Number codes

Two ways of writing a natural number as bytes: a fixed number of bytes with the
most significant one first, and a variable number of bytes with seven bits in
each, the least significant ones first, and the high bit set in all but the
last.

Main results:

- Theorems `beValue_beBytes` and `beBytes_beValue`: fixed-width bytes give back every number
  that fits, and are those of their number.
- Theorem `reads_writeVarint`: a varint reader gives back every number within
  its limits and takes exactly the bytes written.
-/

namespace Foundations

/-! ## Fixed width, most significant byte first -/

/-- The lowest `n` bytes of `v`, most significant first. -/
def beBytes : ℕ → ℕ → List UInt8
  | 0, _ => []
  | n + 1, v => beBytes n (v / 256) ++ [UInt8.ofNat v]

/-- The number whose bytes are given, most significant first. -/
def beValue (bs : List UInt8) : ℕ :=
  bs.foldl (fun v b => v * 256 + b.toNat) 0

@[simp]
theorem length_beBytes (n v : ℕ) : (beBytes n v).length = n := by
  induction n generalizing v with
  | zero => rfl
  | succ n ih => simp [beBytes, ih]

theorem beValue_append_singleton (bs : List UInt8) (b : UInt8) :
    beValue (bs ++ [b]) = beValue bs * 256 + b.toNat := by
  simp [beValue]

/-- Fixed-width bytes give back every number that fits. -/
theorem beValue_beBytes {n v : ℕ} (h : v < 256 ^ n) : beValue (beBytes n v) = v := by
  induction n generalizing v with
  | zero =>
      have hv : v = 0 := by simpa using h
      simp [beBytes, beValue, hv]
  | succ n ih =>
      have hhigh : v / 256 < 256 ^ n := by
        rw [Nat.div_lt_iff_lt_mul (by decide)]
        simpa [Nat.pow_succ] using h
      rw [beBytes, beValue_append_singleton, ih hhigh, UInt8.toNat_ofNat']
      omega

/-- The number of some bytes fits in them. -/
theorem beValue_lt (bs : List UInt8) : beValue bs < 256 ^ bs.length := by
  induction bs using List.reverseRecOn with
  | nil => exact Nat.one_pos
  | append_singleton bs b ih =>
      have hb : b.toNat < 256 := b.toNat_lt
      rw [beValue_append_singleton, List.length_append, List.length_singleton, pow_succ]
      omega

/-- Fixed-width bytes are those of their number. -/
theorem beBytes_beValue (bs : List UInt8) : beBytes bs.length (beValue bs) = bs := by
  induction bs using List.reverseRecOn with
  | nil => rfl
  | append_singleton bs b ih =>
      have hb : b.toNat < 256 := b.toNat_lt
      have hhigh : (beValue bs * 256 + b.toNat) / 256 = beValue bs := by omega
      have hlow : UInt8.ofNat (beValue bs * 256 + b.toNat) = b := by
        apply UInt8.toNat_inj.mp
        rw [UInt8.toNat_ofNat']
        omega
      rw [beValue_append_singleton, List.length_append, List.length_singleton, beBytes, hhigh, hlow,
        ih]

/-! ## Varints -/

/-- The limits of one varint type: at most `more + 1` bytes, and when all of
these places are used the last byte is at most `last`. -/
structure VarintLimits where
  more : ℕ
  last : ℕ
  last_lt : last < 128

/-- The numbers of a varint type are those below its bound. -/
def VarintLimits.bound (l : VarintLimits) : ℕ :=
  128 ^ l.more * (l.last + 1)

/-- Write `v` in at most `n` bytes. -/
def writeVarint : ℕ → ℕ → List UInt8
  | 0, _ => []
  | n + 1, v =>
      if v < 128 then [UInt8.ofNat v]
      else UInt8.ofNat (v % 128 + 128) :: writeVarint n (v / 128)

variable {ε : Type}

/-- Read a number of at most `n` bytes.  The error `short` is for an input that
ends inside the number, `bad` for a number of more bytes or with a byte above
`last` in the last place. -/
def readVarint (short bad : ε) (last : ℕ) : ℕ → Decoder UInt8 ε ℕ
  | 0 => Decoder.fail bad
  | n + 1 => do
      let b ← Decoder.item short
      if b.toNat < 128 then
        if n = 0 ∧ last < b.toNat then Decoder.fail bad else return b.toNat
      else do
        let high ← readVarint short bad last n
        return b.toNat - 128 + 128 * high

theorem length_writeVarint_le (n v : ℕ) : (writeVarint n v).length ≤ n := by
  induction n generalizing v with
  | zero => simp [writeVarint]
  | succ n ih =>
      by_cases h : v < 128
      · simp [writeVarint, h]
      · simpa [writeVarint, h] using ih (v / 128)

/-- A number below 128 is written as itself. -/
theorem writeVarint_small {n v : ℕ} (h : v < 128) : writeVarint (n + 1) v = [UInt8.ofNat v] := by
  simp [writeVarint, h]

private theorem reads_last {short bad : ε} {last n v : ℕ} (hv : v < 128)
    (hlast : ¬ (n = 0 ∧ last < v)) :
    Decoder.Reads (readVarint short bad last (n + 1)) [UInt8.ofNat v] v := by
  have hb : (UInt8.ofNat v).toNat = v := by
    rw [UInt8.toNat_ofNat']
    omega
  refine (Decoder.Reads.item short _).bind_nil ?_
  rw [hb, if_pos hv, if_neg hlast]
  exact Decoder.Reads.pure v

/-- A varint reader gives back every number within its limits and takes exactly
the bytes written. -/
theorem reads_writeVarint (short bad : ε) (l : VarintLimits) {v : ℕ} (hv : v < l.bound) :
    Decoder.Reads (readVarint short bad l.last (l.more + 1)) (writeVarint (l.more + 1) v) v := by
  obtain ⟨more, last, hlast⟩ := l
  simp only [VarintLimits.bound] at hv ⊢
  induction more generalizing v with
  | zero =>
      have hsmall : v ≤ last := by
        rw [pow_zero, one_mul] at hv
        omega
      rw [writeVarint_small (by omega)]
      exact reads_last (by omega) (by omega)
  | succ more ih =>
      by_cases hsmall : v < 128
      · rw [writeVarint_small hsmall]
        exact reads_last hsmall (by omega)
      · have hhigh : v / 128 < 128 ^ more * (last + 1) := by
          rw [Nat.div_lt_iff_lt_mul (by decide)]
          calc v < 128 ^ (more + 1) * (last + 1) := hv
            _ = 128 ^ more * (last + 1) * 128 := by ring
        have hb : (UInt8.ofNat (v % 128 + 128)).toNat = v % 128 + 128 := by
          rw [UInt8.toNat_ofNat']
          omega
        have hjoin : v % 128 + 128 - 128 + 128 * (v / 128) = v := by omega
        rw [writeVarint, if_neg hsmall]
        refine Decoder.Reads.bind (Decoder.Reads.item short _) ?_
        rw [hb, if_neg (by omega)]
        refine (ih hhigh).bind_nil ?_
        rw [hjoin]
        exact Decoder.Reads.pure v

end Foundations
