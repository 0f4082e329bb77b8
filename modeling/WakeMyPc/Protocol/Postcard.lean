import WakeMyPc.Foundations.NumberCodes
import WakeMyPc.Machine

/-!
# Postcard primitives

The serialised forms that messages and the keystore are made of: integers and variant
indices as varints, strings as a varint length and UTF-8 bytes, fixed byte arrays as
they are, options with a tag and sequences with their length.  Each form of a single
value is a `Codec`, so it carries its own round trip.

Main results:

- Theorems `reads_option` and `reads_vec`: an option or a sequence is read back as its
  values are.
-/

namespace WakeMyPc

namespace Postcard

open Foundations

/-- The reasons for which postcard refuses an input. -/
inductive Error where
  | deserializeUnexpectedEnd
  | deserializeBadVarint
  | deserializeBadBool
  | deserializeBadUtf8
  | deserializeBadOption
  | serdeDeCustom
deriving DecidableEq

/-- The text of a reason. -/
def Error.text : Error → RustString
  | .deserializeUnexpectedEnd => ⟨"Hit the end of buffer, expected more data", by decide⟩
  | .deserializeBadVarint =>
      ⟨"Found a varint that didn't terminate. Is the usize too big for this platform?", by decide⟩
  | .deserializeBadBool => ⟨"Found a bool that wasn't 0 or 1", by decide⟩
  | .deserializeBadUtf8 => ⟨"Tried to parse invalid utf-8", by decide⟩
  | .deserializeBadOption => ⟨"Found an Option discriminant that wasn't 0 or 1", by decide⟩
  | .serdeDeCustom => ⟨"Serde Deserialization Error", by decide⟩

/-- A serialised form. -/
abbrev Format (α : Type) := Codec UInt8 Error α

/-- Limits of a varint that holds a `u16`. -/
def u16Limits : VarintLimits := ⟨2, 3, by decide⟩

/-- Limits of a varint that holds a `u32`. -/
def u32Limits : VarintLimits := ⟨4, 15, by decide⟩

/-- Limits of a varint that holds a `u64` or a `usize`. -/
def u64Limits : VarintLimits := ⟨9, 1, by decide⟩

/-- The bytes of a varint. -/
def encodeVarint (l : VarintLimits) (v : ℕ) : Bytes :=
  writeVarint (l.more + 1) v

/-- Read a varint. -/
def decodeVarint (l : VarintLimits) : Decoder UInt8 Error ℕ :=
  readVarint .deserializeUnexpectedEnd .deserializeBadVarint l.last (l.more + 1)

theorem reads_encodeVarint (l : VarintLimits) {v : ℕ} (h : v < l.bound) :
    (decodeVarint l).Reads (encodeVarint l v) v :=
  reads_writeVarint _ _ l h

theorem length_encodeVarint_le (l : VarintLimits) (v : ℕ) :
    (encodeVarint l v).length ≤ l.more + 1 :=
  length_writeVarint_le _ v

theorem u16Limits_bound : u16Limits.bound = 2 ^ 16 := by
  decide

theorem u32Limits_bound : u32Limits.bound = 2 ^ 32 := by
  decide

theorem u64Limits_bound : u64Limits.bound = 2 ^ 64 := by
  decide

/-- A `u8`: the byte itself. -/
def u8 : Format UInt8 where
  encode b := [b]
  decode := Decoder.item .deserializeUnexpectedEnd
  reads b := Decoder.Reads.item _ b

/-- A `bool`: one byte, which is 0 or 1. -/
def bool : Format Bool :=
  u8.narrow .deserializeBadBool (fun b => if b then 1 else 0)
    (fun byte => if byte = 0 then some false else if byte = 1 then some true else none)
    fun b => by cases b <;> rfl

/-- A `u16`. -/
def u16 : Format UInt16 where
  encode v := encodeVarint u16Limits v.toNat
  decode := UInt16.ofNat <$> decodeVarint u16Limits
  reads v := by
    have hv : v.toNat < u16Limits.bound := u16Limits_bound ▸ v.toNat_lt
    simpa using (reads_encodeVarint u16Limits hv).map UInt16.ofNat

/-- A `u32`. -/
def u32 : Format UInt32 where
  encode v := encodeVarint u32Limits v.toNat
  decode := UInt32.ofNat <$> decodeVarint u32Limits
  reads v := by
    have hv : v.toNat < u32Limits.bound := u32Limits_bound ▸ v.toNat_lt
    simpa using (reads_encodeVarint u32Limits hv).map UInt32.ofNat

/-- A `u64`. -/
def u64 : Format UInt64 where
  encode v := encodeVarint u64Limits v.toNat
  decode := UInt64.ofNat <$> decodeVarint u64Limits
  reads v := by
    have hv : v.toNat < u64Limits.bound := u64Limits_bound ▸ v.toNat_lt
    simpa using (reads_encodeVarint u64Limits hv).map UInt64.ofNat

/-- A string: its length as a `usize`, then its bytes. -/
def string : Format RustString where
  encode s := encodeVarint u64Limits s.len ++ s.bytes
  decode := do
    let len ← decodeVarint u64Limits
    let bytes ← Decoder.take .deserializeUnexpectedEnd len
    Decoder.ofOption .deserializeBadUtf8 (RustString.fromUtf8 bytes)
  reads s := by
    have hlen : s.len < u64Limits.bound := by
      have hle := s.len_le
      rw [u64Limits_bound]
      simp only [isizeMax] at hle
      omega
    exact (reads_encodeVarint u64Limits hlen).bind
      ((Decoder.Reads.take _ s.bytes).bind_nil
        (Decoder.Reads.ofOption _ (RustString.fromUtf8_bytes s)))

/-- An array of `n` bytes as one number: its bytes, the most significant one first. -/
def octets (n : ℕ) : Format (BitVec (8 * n)) where
  encode v := beBytes n v.toNat
  decode := (fun bytes => BitVec.ofNat (8 * n) (beValue bytes)) <$>
    Decoder.take .deserializeUnexpectedEnd n
  reads v := by
    have hv : v.toNat < 256 ^ n := by
      calc v.toNat < 2 ^ (8 * n) := v.isLt
        _ = 256 ^ n := by rw [pow_mul]; rfl
    have htake := Decoder.Reads.take Error.deserializeUnexpectedEnd (beBytes n v.toNat)
    rw [length_beBytes] at htake
    have hmap := htake.map fun bytes => BitVec.ofNat (8 * n) (beValue bytes)
    rwa [beValue_beBytes hv, BitVec.ofNat_toNat, BitVec.setWidth_eq] at hmap

/-- An enumeration without data: the index of its variant. -/
def unitEnum {α : Type} (index : α → ℕ) (variant : ℕ → Option α)
    (hlt : ∀ a, index a < 128) (hvariant : ∀ a, variant (index a) = some a) : Format α where
  encode a := encodeVarint u32Limits (index a)
  decode := do
    let i ← decodeVarint u32Limits
    Decoder.ofOption .serdeDeCustom (variant i)
  reads a := by
    have hbound : index a < u32Limits.bound := by
      have hsmall := hlt a
      rw [u32Limits_bound]
      omega
    exact (reads_encodeVarint u32Limits hbound).bind_nil (Decoder.Reads.ofOption _ (hvariant a))

theorem length_unitEnum_le {α : Type} {index : α → ℕ} {variant : ℕ → Option α}
    (hlt : ∀ a, index a < 128) (hvariant : ∀ a, variant (index a) = some a) (a : α) :
    ((unitEnum index variant hlt hvariant).encode a).length ≤ 5 :=
  length_encodeVarint_le u32Limits (index a)

theorem length_u64_le (v : UInt64) : (u64.encode v).length ≤ 10 :=
  length_encodeVarint_le u64Limits v.toNat

theorem length_string_le (s : RustString) : (string.encode s).length ≤ 10 + isizeMax := by
  have hlen := length_encodeVarint_le u64Limits s.len
  have hsize := s.len_le
  simp only [u64Limits] at hlen
  simp only [string, u64Limits, List.length_append, RustString.length_bytes]
  omega

/-! ## Options and sequences -/

section Composite

variable {α γ : Type} {encode : α → Bytes} {d : Decoder UInt8 Error γ} {g : α → γ}

/-- An `Option`: one byte that says whether there is a value, and the value. -/
def encodeOption (encode : α → Bytes) : Option α → Bytes
  | none => [0]
  | some a => 1 :: encode a

/-- Read an `Option`. -/
def decodeOption (d : Decoder UInt8 Error γ) : Decoder UInt8 Error (Option γ) := do
  let tag ← Decoder.item .deserializeUnexpectedEnd
  if tag = 0 then return none
  else if tag = 1 then return some (← d)
  else Decoder.fail .deserializeBadOption

/-- An `Option` is read as its value is. -/
theorem reads_option {o : Option α} (h : ∀ a, o = some a → d.Reads (encode a) (g a)) :
    (decodeOption d).Reads (encodeOption encode o) (o.map g) := by
  cases o with
  | none => exact (Decoder.Reads.item _ (0 : UInt8)).bind_nil (Decoder.Reads.pure none)
  | some a =>
      exact (Decoder.Reads.item _ (1 : UInt8)).bind
        ((h a rfl).bind_nil (Decoder.Reads.pure (some (g a))))

/-- A `Vec`: the number of its values as a `usize`, then the values. -/
def encodeVec (encode : α → Bytes) (as : List α) : Bytes :=
  encodeVarint u64Limits as.length ++ as.flatMap encode

/-- A `Vec` is no longer than its form when every value takes a byte. -/
theorem length_le_encodeVec (h : ∀ a, 0 < (encode a).length) (as : List α) :
    as.length ≤ (encodeVec encode as).length := by
  have hvalues : as.length ≤ (as.flatMap encode).length := by
    induction as with
    | nil => exact Nat.le_refl 0
    | cons a as ih =>
        have hone := h a
        simp only [List.flatMap_cons, List.length_append, List.length_cons]
        omega
  rw [encodeVec, List.length_append]
  omega

/-- Read a `Vec`. -/
def decodeVec (d : Decoder UInt8 Error γ) : Decoder UInt8 Error (List γ) := do
  let len ← decodeVarint u64Limits
  Decoder.replicate d len

/-- A `Vec` is read as its values are; no `Vec` is longer than an allocation. -/
theorem reads_vec {as : List α} (hlen : as.length ≤ isizeMax)
    (h : ∀ a ∈ as, d.Reads (encode a) (g a)) :
    (decodeVec d).Reads (encodeVec encode as) (as.map g) := by
  have hbound : as.length < u64Limits.bound := by
    rw [u64Limits_bound]
    simp only [isizeMax] at hlen
    omega
  exact (reads_encodeVarint u64Limits hbound).bind (Decoder.Reads.replicate h)

end Composite

/-! ## Whole values -/

variable {T : Type}

/-- Serialise a value.  The forms above never fail. -/
def toAllocvec (form : Format T) (value : T) : Except Error Bytes :=
  .ok (form.encode value)

/-- Take a value from the front of some bytes. -/
def takeFromBytes (form : Format T) (bs : Bytes) : Except Error (T × Bytes) :=
  form.decode bs

/-- Read a value from some bytes; what follows it is not looked at. -/
def fromBytes (d : Decoder UInt8 Error T) (bs : Bytes) : Except Error T :=
  (d bs).map Prod.fst

theorem fromBytes_of_reads {d : Decoder UInt8 Error T} {bs : Bytes} {value : T}
    (h : d.Reads bs value) : fromBytes d bs = .ok value := by
  have hall := h []
  rw [List.append_nil] at hall
  rw [fromBytes, hall]
  rfl

end Postcard
end WakeMyPc
