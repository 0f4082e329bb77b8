import Mathlib.Algebra.Order.Ring.Nat
import Mathlib.Tactic.Basic

/-!
# Values of the source language

Byte strings and their checked slices, strings, and the checked and saturating
arithmetic of the fixed-width integers.

Main results:

- Theorem `RustString.fromUtf8_bytes`: a string is read back from its bytes.
- Theorems `toNat_saturatingAdd` and `toNat_saturatingMul`: saturating
  arithmetic in terms of natural numbers.
-/

namespace WakeMyPc

/-! ## Byte strings -/

/-- Byte strings of the source. -/
abbrev Bytes := List UInt8

/-- The first `n` bytes, if there are that many. -/
def firstChunk (n : ℕ) (bs : Bytes) : Option Bytes :=
  if n ≤ bs.length then some (bs.take n) else none

/-- The bytes from `i` up to `j`, if there are that many. -/
def getRange (bs : Bytes) (i j : ℕ) : Option Bytes :=
  if i ≤ j ∧ j ≤ bs.length then some ((bs.take j).drop i) else none

/-- The bytes from `i` on, if there are that many. -/
def getFrom (bs : Bytes) (i : ℕ) : Option Bytes :=
  if i ≤ bs.length then some (bs.drop i) else none

/-! ## Strings -/

/-- The longest allocation of the source language, in bytes. -/
def isizeMax : ℕ := 2 ^ 63 - 1

/-- A string of the source language: UTF-8 text that fits one allocation. -/
structure RustString where
  str : String
  size_le : str.toByteArray.size ≤ isizeMax
deriving DecidableEq

namespace RustString

/-- The UTF-8 bytes of a string. -/
def bytes (s : RustString) : Bytes :=
  s.str.toByteArray.data.toList

/-- The number of UTF-8 bytes. -/
def len (s : RustString) : ℕ :=
  s.bytes.length

/-- Check that bytes are UTF-8.  A slice of the source is never longer than an
allocation, so the length test refuses no input of the code. -/
def fromUtf8 (bs : Bytes) : Option RustString :=
  match String.fromUTF8? bs.toByteArray with
  | none => none
  | some s => if h : s.toByteArray.size ≤ isizeMax then some ⟨s, h⟩ else none

theorem len_le (s : RustString) : s.len ≤ isizeMax :=
  s.size_le

@[simp]
theorem length_bytes (s : RustString) : s.bytes.length = s.len :=
  rfl

private theorem toByteArray_bytes (s : RustString) : s.bytes.toByteArray = s.str.toByteArray := by
  apply ByteArray.ext
  apply Array.toList_inj.mp
  rw [List.toList_data_toByteArray]
  rfl

/-- A string is read back from its bytes. -/
theorem fromUtf8_bytes (s : RustString) : fromUtf8 s.bytes = some s := by
  have hvalid : String.fromUTF8? s.str.toByteArray = some s.str := by
    rw [String.fromUTF8?, dif_pos s.str.isValidUTF8]
    rfl
  rw [fromUtf8, toByteArray_bytes, hvalid]
  simp only [dif_pos s.size_le]

end RustString

/-! ## Integers -/

/-- Addition of `usize` values, refused on overflow. -/
def usizeCheckedAdd (a b : ℕ) : Option ℕ :=
  if a + b < 2 ^ 64 then some (a + b) else none

/-- Conversion of a `usize` to a `u32`, refused when it does not fit. -/
def u32TryFrom (a : ℕ) : Option UInt32 :=
  if a < 2 ^ 32 then some (UInt32.ofNat a) else none

/-- Addition of `u64` values, refused on overflow. -/
def u64CheckedAdd (a b : UInt64) : Option UInt64 :=
  if a.toNat + b.toNat < 2 ^ 64 then some (a + b) else none

/-- Addition of `u8` values, cut off at the largest one. -/
def u8SaturatingAdd (a b : UInt8) : UInt8 :=
  UInt8.ofNat (min (a.toNat + b.toNat) 255)

/-- The largest `u64`. -/
def u64Max : UInt64 := UInt64.ofNat (2 ^ 64 - 1)

/-- Addition of `u64` values, cut off at the largest one. -/
def saturatingAdd (a b : UInt64) : UInt64 :=
  UInt64.ofNat (min (a.toNat + b.toNat) (2 ^ 64 - 1))

/-- Multiplication of `u64` values, cut off at the largest one. -/
def saturatingMul (a b : UInt64) : UInt64 :=
  UInt64.ofNat (min (a.toNat * b.toNat) (2 ^ 64 - 1))

theorem toNat_u8SaturatingAdd (a b : UInt8) :
    (u8SaturatingAdd a b).toNat = min (a.toNat + b.toNat) 255 := by
  rw [u8SaturatingAdd, UInt8.toNat_ofNat']
  omega

theorem toNat_saturatingAdd (a b : UInt64) :
    (saturatingAdd a b).toNat = min (a.toNat + b.toNat) (2 ^ 64 - 1) := by
  rw [saturatingAdd, UInt64.toNat_ofNat']
  omega

theorem toNat_saturatingMul (a b : UInt64) :
    (saturatingMul a b).toNat = min (a.toNat * b.toNat) (2 ^ 64 - 1) := by
  rw [saturatingMul, UInt64.toNat_ofNat']
  omega

end WakeMyPc
