import WakeMyPc.Daemon.CutShort

/-!
# Contents that were loaded

What is loaded from a plaintext, of either format and whoever wrote it, is no larger than the
plaintext and has no address with a scope.  So it can be saved, and is then loaded as it was.

Main results:

- Theorem `loadPlaintext_yields`: what is loaded fits in memory and has nothing to lose.
- Theorem `loaded_again`: what was loaded once is loaded again as it was.
-/

namespace WakeMyPc
namespace Daemon

open Foundations
open Foundations.Decoder (Yields)
open Postcard (decodeOption decodeVec fromBytes)

/-! ## What decoders yield -/

/-- What an option holds is what its decoder yields. -/
theorem yields_option {γ : Type} {d : Decoder UInt8 Postcard.Error γ} {R : γ → Prop}
    (hd : d.Yields fun _ a => R a) : (decodeOption d).Yields fun _ o => ∀ a, o = some a → R a := by
  refine (Yields.item _).bind fun n tag _ => ?_
  split
  · exact .pure nofun
  · split
    · refine hd.bind fun m a ha => .pure ?_
      rintro _ ⟨⟩
      exact ha
    · exact .fail _

/-- A vector has no more items than it takes bytes, when each item takes at least one. -/
theorem yields_vec {γ : Type} {d : Decoder UInt8 Postcard.Error γ} {R : γ → Prop}
    (hd : d.Yields fun n a => 1 ≤ n ∧ R a) :
    (decodeVec d).Yields fun n as => as.length ≤ n ∧ ∀ a ∈ as, R a :=
  (Yields.of_streams (streams_varint _)).bind fun _ len _ =>
    (Yields.replicate hd len).mono fun _ _ has => ⟨Nat.le_add_left_of_le has.1, has.2⟩

/-- Bytes that are read are no more than they take. -/
theorem yields_bytes :
    (decodeVec Postcard.u8.decode).Yields fun n as => as.length ≤ n :=
  (yields_vec (R := fun _ => True) ((Yields.item _).mono fun _ _ hn => ⟨hn.ge, trivial⟩)).mono
    fun _ _ has => has.1

/-- An address is read without flow information and scope. -/
theorem yields_address : SocketAddr.deserialize.Yields fun _ addr => addr.Unscoped := by
  refine (Yields.of_streams (streams_varint _)).bind fun n tag _ => ?_
  split
  · exact (Yields.of_streams (streams_octets 4)).bind fun _ _ _ =>
      (Yields.of_streams streams_u16).bind fun _ _ _ => .pure trivial
  · exact (Yields.of_streams (streams_octets 16)).bind fun _ _ _ =>
      (Yields.of_streams streams_u16).bind fun _ _ _ => .pure ⟨rfl, rfl⟩
  · exact .fail _

/-- A key hash takes at least one byte. -/
theorem yields_spkiHash : Protocol.SpkiHash.format.decode.Yields fun n _ => 1 ≤ n :=
  (Yields.take _ 32).bind fun n bytes hn => by
    cases Protocol.SpkiHash.ofBytes bytes with
    | none => exact .fail _
    | some spki => exact .pure (by omega)

/-- A record takes at least the bytes of its key. -/
theorem yields_record : PairingRecord.deserialize.Yields fun n p =>
    1 ≤ n ∧ ∀ addr, p.lastKnownAddress = some addr → addr.Unscoped := by
  refine (Yields.of_streams streams_string).bind fun n₁ phoneName _ => ?_
  refine yields_spkiHash.bind fun n₂ clientSpki hn₂ => ?_
  refine (Yields.of_streams streams_u64).bind fun n₃ pairedAt _ => ?_
  refine (Yields.of_streams streams_u64).bind fun n₄ lastAuthenticated _ => ?_
  refine (Yields.of_streams streams_bool).bind fun n₅ revoked _ => ?_
  refine (Yields.of_streams streams_bool).bind fun n₆ pending _ => ?_
  exact (yields_option yields_address).bind fun n₇ addr haddr => .pure ⟨by omega, haddr⟩

/-- A record of format 1 takes at least the bytes of its key. -/
theorem yields_recordV1 : PairingRecordV1.format.decode.Yields fun n _ => 1 ≤ n := by
  refine (Yields.of_streams streams_string).bind fun n₁ phoneName _ => ?_
  refine yields_spkiHash.bind fun n₂ clientSpki hn₂ => ?_
  refine (Yields.of_streams streams_u64).bind fun n₃ pairedAt _ => ?_
  refine (Yields.of_streams streams_u64).bind fun n₄ lastAuthenticated _ => ?_
  refine (Yields.of_streams streams_bool).bind fun n₅ revoked _ => ?_
  exact (Yields.of_streams streams_bool).bind fun n₆ pending _ => .pure (by omega)

/-- What is loaded is no larger than the plaintext, and has nothing to lose. -/
structure KeystoreContents.Loaded (n : ℕ) (c : KeystoreContents) : Prop where
  key_le : c.keyPkcs8Der.length ≤ n
  cert_le : c.certDer.length ≤ n
  pairings_le : c.pairings.length ≤ n
  unscoped : c.Unscoped

/-- The contents that are read are no larger than the bytes they take. -/
theorem yields_contents : KeystoreContents.deserialize.Yields KeystoreContents.Loaded := by
  refine yields_bytes.bind fun n₁ key hkey => ?_
  refine yields_bytes.bind fun n₂ cert hcert => ?_
  refine (yields_vec yields_record).bind fun n₃ pairings hpairings => ?_
  refine (Yields.of_streams streams_u8).bind fun n₄ days _ => ?_
  refine (Yields.of_streams streams_u64).bind fun n₅ lastAuthenticated _ => .pure ?_
  exact ⟨by simp only; omega, by simp only; omega, by simp only; omega, hpairings.2⟩

/-- Nor are those that are migrated from format 1. -/
theorem yields_contentsV1 : KeystoreContentsV1.deserialize.Yields fun n v =>
    (KeystoreContents.fromV1 v).Loaded n := by
  refine yields_bytes.bind fun n₁ key hkey => ?_
  refine yields_bytes.bind fun n₂ cert hcert => ?_
  refine (yields_vec (R := fun _ => True) (yields_recordV1.mono fun _ _ hn => ⟨hn, trivial⟩)).bind
    fun n₃ pairings hpairings => ?_
  refine (Yields.of_streams streams_u8).bind fun n₄ days _ => ?_
  refine (Yields.of_streams streams_u64).bind fun n₅ lastAuthenticated _ => .pure ?_
  refine ⟨?_, ?_, ?_, KeystoreContents.unscoped_fromV1 _⟩
  · simp only [KeystoreContents.fromV1]
    omega
  · simp only [KeystoreContents.fromV1]
    omega
  · simp only [KeystoreContents.fromV1, List.length_map]
    omega

/-! ## What is loaded -/

/-- What `fromBytes` reads takes no more bytes than there are. -/
theorem fromBytes_yields {T : Type} {d : Decoder UInt8 Postcard.Error T} {P : ℕ → T → Prop}
    (hd : d.Yields P) {bs : Bytes} {value : T} (h : fromBytes d bs = .ok value) :
    ∃ n, n ≤ bs.length ∧ P n value := by
  unfold fromBytes at h
  cases hbs : d bs with
  | error e =>
      rw [hbs] at h
      cases h
  | ok taken =>
      obtain ⟨value', rest⟩ := taken
      rw [hbs] at h
      cases h
      obtain ⟨n, hn, hvalue⟩ := hd bs _ rest hbs
      exact ⟨n, by omega, hvalue⟩

/-- Contents that are no larger than a plaintext are no larger than a longer one. -/
theorem KeystoreContents.Loaded.mono {n m : ℕ} {c : KeystoreContents} (h : c.Loaded n)
    (hle : n ≤ m) : c.Loaded m :=
  ⟨h.key_le.trans hle, h.cert_le.trans hle, h.pairings_le.trans hle, h.unscoped⟩

/-- What is loaded is no larger than the plaintext, and has nothing to lose. -/
theorem loadPlaintext_yields {plain : Bytes} {c : KeystoreContents}
    (h : loadPlaintext plain = .ok c) : c.Loaded plain.length := by
  cases plain with
  | nil => cases h
  | cons format payload =>
      rw [loadPlaintext] at h
      split_ifs at h
      · cases hread : fromBytes KeystoreContentsV1.deserialize payload with
        | error e =>
            rw [hread] at h
            cases h
        | ok v =>
            rw [hread] at h
            cases h
            obtain ⟨n, hn, hloaded⟩ := fromBytes_yields yields_contentsV1 hread
            exact hloaded.mono (Nat.le_succ_of_le hn)
      · cases hread : fromBytes KeystoreContents.deserialize payload with
        | error e =>
            rw [hread] at h
            cases h
        | ok v =>
            rw [hread] at h
            cases h
            obtain ⟨n, hn, hloaded⟩ := fromBytes_yields yields_contents hread
            exact hloaded.mono (Nat.le_succ_of_le hn)

/-- Contents that fit are loaded back, as what they are read back as. -/
theorem loadPlaintext_saved {c : KeystoreContents} (hc : c.Fits) :
    loadPlaintext (savePlaintext c) = .ok c.reloaded := by
  have hread := Postcard.fromBytes_of_reads (KeystoreContents.reads hc)
  simp only [savePlaintext, loadPlaintext, keystoreFormatVersion, hread]
  rfl

/-- Whatever plaintext of either format is loaded, if it fits in memory, what was loaded is
saved as a plaintext that is loaded as the same contents. -/
theorem loaded_again {plain : Bytes} {c : KeystoreContents} (hlength : plain.length ≤ isizeMax)
    (h : loadPlaintext plain = .ok c) : loadPlaintext (savePlaintext c) = .ok c := by
  have hloaded := loadPlaintext_yields h
  have hfits : c.Fits := ⟨hloaded.key_le.trans hlength, hloaded.cert_le.trans hlength,
    hloaded.pairings_le.trans hlength⟩
  rw [loadPlaintext_saved hfits, (KeystoreContents.reloaded_eq_iff c).mpr hloaded.unscoped]

/-- A keystore of format 1 is loaded again as it was. -/
theorem legacy_loaded_again :
    ∃ c, loadPlaintext (1 :: legacyContents.serialize) = .ok c ∧
      loadPlaintext (savePlaintext c) = .ok c := by
  have hload : loadPlaintext (1 :: legacyContents.serialize) = .ok (.fromV1 legacyContents) := by
    rfl
  exact ⟨_, hload, loaded_again (by decide) hload⟩

end Daemon
end WakeMyPc
