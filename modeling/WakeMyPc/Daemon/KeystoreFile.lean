import WakeMyPc.Daemon.Keystore
import Mathlib.Data.List.Forall2

/-!
# The keystore file

The plaintext of the keystore is a format byte and the serialised contents, and the
platform encrypts it.  Format 2 is what is written; format 1, whose records have no
address, is still read.

Main results:

- Theorem `loadImage_of_saveImage`: what is loaded after a save.
- Theorem `load_saved_iff`: the contents come back exactly when no address has flow
  information or a scope.
- Theorem `load_migrated`: what is loaded from format 1.
-/

namespace WakeMyPc
namespace Daemon

open Foundations
open Protocol (SpkiHash encodeTag decodeTag)
open Postcard (encodeOption decodeOption encodeVec decodeVec fromBytes)

/-! ## Serialised forms -/

/-- An address: its kind, its octets and its port.  Flow information and scope of an
IPv6 address are not part of the form. -/
def SocketAddr.serialize : SocketAddr → Bytes
  | .v4 ip port => encodeTag 0 ++ ((Postcard.octets 4).encode ip ++ Postcard.u16.encode port)
  | .v6 ip port _ _ => encodeTag 1 ++ ((Postcard.octets 16).encode ip ++ Postcard.u16.encode port)

/-- Read an address. -/
def SocketAddr.deserialize : Decoder UInt8 Postcard.Error SocketAddr := do
  match ← decodeTag with
  | 0 =>
      let ip ← (Postcard.octets 4).decode
      let port ← Postcard.u16.decode
      return .v4 ip port
  | 1 =>
      let ip ← (Postcard.octets 16).decode
      let port ← Postcard.u16.decode
      return .v6 ip port 0 0
  | _ => Decoder.fail .serdeDeCustom

/-- What comes back of an address. -/
def SocketAddr.reloaded : SocketAddr → SocketAddr
  | .v4 ip port => .v4 ip port
  | .v6 ip port _ _ => .v6 ip port 0 0

/-- The address has neither flow information nor a scope. -/
def SocketAddr.Unscoped : SocketAddr → Prop
  | .v4 _ _ => True
  | .v6 _ _ flowinfo scopeId => flowinfo = 0 ∧ scopeId = 0

/-- What comes back has nothing more to lose. -/
theorem SocketAddr.unscoped_reloaded (addr : SocketAddr) : addr.reloaded.Unscoped := by
  cases addr with
  | v4 ip port => trivial
  | v6 ip port flowinfo scopeId => exact ⟨rfl, rfl⟩

instance (addr : SocketAddr) : Decidable addr.Unscoped :=
  match addr with
  | .v4 _ _ => isTrue trivial
  | .v6 _ _ flowinfo scopeId => inferInstanceAs (Decidable (flowinfo = 0 ∧ scopeId = 0))

private theorem reads_addressTag {tag : ℕ} (h : tag < 2 ^ 32) :
    decodeTag.Reads (encodeTag tag) tag :=
  Postcard.reads_encodeVarint Postcard.u32Limits (Postcard.u32Limits_bound ▸ h)

theorem SocketAddr.reads (addr : SocketAddr) :
    SocketAddr.deserialize.Reads addr.serialize addr.reloaded := by
  cases addr with
  | v4 ip port =>
      exact (reads_addressTag (by decide)).bind (((Postcard.octets 4).reads ip).bind
        ((Postcard.u16.reads port).bind_nil (Decoder.Reads.pure _)))
  | v6 ip port flowinfo scopeId =>
      exact (reads_addressTag (by decide)).bind (((Postcard.octets 16).reads ip).bind
        ((Postcard.u16.reads port).bind_nil (Decoder.Reads.pure _)))

theorem SocketAddr.reloaded_eq_iff (addr : SocketAddr) : addr.reloaded = addr ↔ addr.Unscoped := by
  cases addr with
  | v4 ip port => simp [reloaded, Unscoped]
  | v6 ip port flowinfo scopeId => simp [reloaded, Unscoped, eq_comm]

@[simp]
theorem SocketAddr.reloaded_reloaded (addr : SocketAddr) :
    addr.reloaded.reloaded = addr.reloaded :=
  addr.reloaded.reloaded_eq_iff.mpr addr.unscoped_reloaded

theorem SocketAddr.serialize_reloaded (addr : SocketAddr) :
    addr.reloaded.serialize = addr.serialize := by
  cases addr <;> rfl

/-- The record of a paired phone. -/
def PairingRecord.serialize (p : PairingRecord) : Bytes :=
  Postcard.string.encode p.phoneName ++ (SpkiHash.format.encode p.clientSpki ++
    (Postcard.u64.encode p.pairedAtUnixMs ++ (Postcard.u64.encode p.lastAuthenticatedAtUnixMs ++
      (Postcard.bool.encode p.revoked ++ (Postcard.bool.encode p.revokePending ++
        encodeOption SocketAddr.serialize p.lastKnownAddress)))))

/-- Read a record. -/
def PairingRecord.deserialize : Decoder UInt8 Postcard.Error PairingRecord := do
  let phoneName ← Postcard.string.decode
  let clientSpki ← SpkiHash.format.decode
  let pairedAtUnixMs ← Postcard.u64.decode
  let lastAuthenticatedAtUnixMs ← Postcard.u64.decode
  let revoked ← Postcard.bool.decode
  let revokePending ← Postcard.bool.decode
  let lastKnownAddress ← decodeOption SocketAddr.deserialize
  return { phoneName, clientSpki, pairedAtUnixMs, lastAuthenticatedAtUnixMs, revoked,
           revokePending, lastKnownAddress }

/-- What comes back of a record. -/
def PairingRecord.reloaded (p : PairingRecord) : PairingRecord :=
  { p with lastKnownAddress := p.lastKnownAddress.map SocketAddr.reloaded }

theorem PairingRecord.reads (p : PairingRecord) :
    PairingRecord.deserialize.Reads p.serialize p.reloaded :=
  (Postcard.string.reads p.phoneName).bind <|
    (SpkiHash.format.reads p.clientSpki).bind <|
      (Postcard.u64.reads p.pairedAtUnixMs).bind <|
        (Postcard.u64.reads p.lastAuthenticatedAtUnixMs).bind <|
          (Postcard.bool.reads p.revoked).bind <|
            (Postcard.bool.reads p.revokePending).bind <|
              (Postcard.reads_option fun addr _ => addr.reads).bind_nil (Decoder.Reads.pure _)

/-- The contents of the keystore. -/
def KeystoreContents.serialize (c : KeystoreContents) : Bytes :=
  encodeVec Postcard.u8.encode c.keyPkcs8Der ++ (encodeVec Postcard.u8.encode c.certDer ++
    (encodeVec PairingRecord.serialize c.pairings ++
      (Postcard.u8.encode c.reauthIntervalDays ++
        Postcard.u64.encode c.lastAuthenticatedAtUnixMs)))

/-- Read the contents. -/
def KeystoreContents.deserialize : Decoder UInt8 Postcard.Error KeystoreContents := do
  let keyPkcs8Der ← decodeVec Postcard.u8.decode
  let certDer ← decodeVec Postcard.u8.decode
  let pairings ← decodeVec PairingRecord.deserialize
  let reauthIntervalDays ← Postcard.u8.decode
  let lastAuthenticatedAtUnixMs ← Postcard.u64.decode
  return { keyPkcs8Der, certDer, pairings, reauthIntervalDays, lastAuthenticatedAtUnixMs }

/-- What comes back of the contents. -/
def KeystoreContents.reloaded (c : KeystoreContents) : KeystoreContents :=
  { c with pairings := c.pairings.map PairingRecord.reloaded }

/-- The vectors fit in memory, as those of the source do. -/
structure KeystoreContents.Fits (c : KeystoreContents) : Prop where
  key_le : c.keyPkcs8Der.length ≤ isizeMax
  cert_le : c.certDer.length ≤ isizeMax
  pairings_le : c.pairings.length ≤ isizeMax

private theorem reads_bytes {bytes : Bytes} (h : bytes.length ≤ isizeMax) :
    (decodeVec Postcard.u8.decode).Reads (encodeVec Postcard.u8.encode bytes) bytes := by
  have hreads := Postcard.reads_vec (g := id) h fun b _ => Postcard.u8.reads b
  rwa [List.map_id] at hreads

theorem KeystoreContents.reads {c : KeystoreContents} (h : c.Fits) :
    KeystoreContents.deserialize.Reads c.serialize c.reloaded :=
  (reads_bytes h.key_le).bind <|
    (reads_bytes h.cert_le).bind <|
      (Postcard.reads_vec h.pairings_le fun p _ => p.reads).bind <|
        (Postcard.u8.reads c.reauthIntervalDays).bind <|
          (Postcard.u64.reads c.lastAuthenticatedAtUnixMs).bind_nil (Decoder.Reads.pure _)

/-- The serialised form does not depend on what is lost. -/
theorem KeystoreContents.serialize_reloaded (c : KeystoreContents) :
    c.reloaded.serialize = c.serialize := by
  have hrecord : ∀ p : PairingRecord, p.reloaded.serialize = p.serialize := by
    intro p
    cases haddr : p.lastKnownAddress with
    | none => simp [PairingRecord.serialize, PairingRecord.reloaded, haddr, encodeOption]
    | some addr =>
        simp [PairingRecord.serialize, PairingRecord.reloaded, haddr, encodeOption,
          addr.serialize_reloaded]
  simp [serialize, reloaded, encodeVec, List.flatMap_map, hrecord]

/-- No address of the contents has flow information or a scope. -/
def KeystoreContents.Unscoped (c : KeystoreContents) : Prop :=
  ∀ p ∈ c.pairings, ∀ addr, p.lastKnownAddress = some addr → addr.Unscoped

private theorem map_eq_self_iff {α : Type} (g : α → α) (as : List α) :
    as.map g = as ↔ ∀ a ∈ as, g a = a := by
  induction as with
  | nil => simp
  | cons a as ih => simp [ih]

theorem PairingRecord.reloaded_eq_iff (p : PairingRecord) :
    p.reloaded = p ↔ ∀ addr, p.lastKnownAddress = some addr → addr.Unscoped := by
  obtain ⟨phoneName, clientSpki, pairedAt, lastAuth, revoked, pending, addr⟩ := p
  cases addr with
  | none => simp [reloaded]
  | some addr => simp [reloaded, addr.reloaded_eq_iff]

/-- The contents come back as they were exactly when no address has anything to lose. -/
theorem KeystoreContents.reloaded_eq_iff (c : KeystoreContents) :
    c.reloaded = c ↔ c.Unscoped := by
  have hpairings : c.reloaded = c ↔ c.pairings.map PairingRecord.reloaded = c.pairings := by
    constructor
    · exact fun h => congrArg KeystoreContents.pairings h
    · intro h
      unfold reloaded
      rw [h]
  rw [hpairings, map_eq_self_iff]
  exact forall_congr' fun p => forall_congr' fun _ => p.reloaded_eq_iff

/-- What comes back has nothing more to lose. -/
theorem KeystoreContents.unscoped_reloaded (c : KeystoreContents) : c.reloaded.Unscoped := by
  intro p hp addr haddr
  obtain ⟨q, -, rfl⟩ := List.mem_map.mp hp
  obtain ⟨addr', -, rfl⟩ := Option.map_eq_some_iff.mp haddr
  exact addr'.unscoped_reloaded

@[simp]
theorem KeystoreContents.reloaded_reloaded (c : KeystoreContents) :
    c.reloaded.reloaded = c.reloaded :=
  c.reloaded.reloaded_eq_iff.mpr c.unscoped_reloaded

/-- The live keys come back. -/
@[simp]
theorem KeystoreContents.hasActive_reloaded {c : KeystoreContents} {clientSpki : SpkiHash} :
    c.reloaded.HasActive clientSpki ↔ c.HasActive clientSpki := by
  simp only [HasActive, reloaded, List.mem_map, exists_exists_and_eq_and]
  rfl

/-! ## Format 1 -/

/-- A record of format 1: it has no address. -/
structure PairingRecordV1 where
  phoneName : RustString
  clientSpki : SpkiHash
  pairedAtUnixMs : UInt64
  lastAuthenticatedAtUnixMs : UInt64
  revoked : Bool
  revokePending : Bool
deriving DecidableEq

/-- The serialised form of such a record. -/
def PairingRecordV1.format : Postcard.Format PairingRecordV1 where
  encode p :=
    Postcard.string.encode p.phoneName ++ (SpkiHash.format.encode p.clientSpki ++
      (Postcard.u64.encode p.pairedAtUnixMs ++ (Postcard.u64.encode p.lastAuthenticatedAtUnixMs ++
        (Postcard.bool.encode p.revoked ++ Postcard.bool.encode p.revokePending))))
  decode := do
    let phoneName ← Postcard.string.decode
    let clientSpki ← SpkiHash.format.decode
    let pairedAtUnixMs ← Postcard.u64.decode
    let lastAuthenticatedAtUnixMs ← Postcard.u64.decode
    let revoked ← Postcard.bool.decode
    let revokePending ← Postcard.bool.decode
    return { phoneName, clientSpki, pairedAtUnixMs, lastAuthenticatedAtUnixMs, revoked,
             revokePending }
  reads p :=
    (Postcard.string.reads p.phoneName).bind <|
      (SpkiHash.format.reads p.clientSpki).bind <|
        (Postcard.u64.reads p.pairedAtUnixMs).bind <|
          (Postcard.u64.reads p.lastAuthenticatedAtUnixMs).bind <|
            (Postcard.bool.reads p.revoked).bind <|
              (Postcard.bool.reads p.revokePending).bind_nil (Decoder.Reads.pure _)

/-- The contents of format 1. -/
structure KeystoreContentsV1 where
  keyPkcs8Der : Bytes
  certDer : Bytes
  pairings : List PairingRecordV1
  reauthIntervalDays : UInt8
  lastAuthenticatedAtUnixMs : UInt64
deriving DecidableEq

/-- The serialised form of such contents. -/
def KeystoreContentsV1.serialize (v : KeystoreContentsV1) : Bytes :=
  encodeVec Postcard.u8.encode v.keyPkcs8Der ++ (encodeVec Postcard.u8.encode v.certDer ++
    (encodeVec PairingRecordV1.format.encode v.pairings ++
      (Postcard.u8.encode v.reauthIntervalDays ++
        Postcard.u64.encode v.lastAuthenticatedAtUnixMs)))

/-- Read such contents. -/
def KeystoreContentsV1.deserialize : Decoder UInt8 Postcard.Error KeystoreContentsV1 := do
  let keyPkcs8Der ← decodeVec Postcard.u8.decode
  let certDer ← decodeVec Postcard.u8.decode
  let pairings ← decodeVec PairingRecordV1.format.decode
  let reauthIntervalDays ← Postcard.u8.decode
  let lastAuthenticatedAtUnixMs ← Postcard.u64.decode
  return { keyPkcs8Der, certDer, pairings, reauthIntervalDays, lastAuthenticatedAtUnixMs }

/-- The vectors fit in memory, as those of the source do. -/
structure KeystoreContentsV1.Fits (v : KeystoreContentsV1) : Prop where
  key_le : v.keyPkcs8Der.length ≤ isizeMax
  cert_le : v.certDer.length ≤ isizeMax
  pairings_le : v.pairings.length ≤ isizeMax

theorem KeystoreContentsV1.reads {v : KeystoreContentsV1} (h : v.Fits) :
    KeystoreContentsV1.deserialize.Reads v.serialize v := by
  have hpairings := Postcard.reads_vec (g := id) h.pairings_le
    fun p _ => PairingRecordV1.format.reads p
  rw [List.map_id] at hpairings
  exact (reads_bytes h.key_le).bind <|
    (reads_bytes h.cert_le).bind <|
      hpairings.bind <|
        (Postcard.u8.reads v.reauthIntervalDays).bind <|
          (Postcard.u64.reads v.lastAuthenticatedAtUnixMs).bind_nil (Decoder.Reads.pure _)

/-- The record in the present format. -/
def PairingRecord.fromV1 (v : PairingRecordV1) : PairingRecord where
  phoneName := v.phoneName
  clientSpki := v.clientSpki
  pairedAtUnixMs := v.pairedAtUnixMs
  lastAuthenticatedAtUnixMs := v.lastAuthenticatedAtUnixMs
  revoked := v.revoked
  revokePending := v.revokePending
  lastKnownAddress := none

/-- The contents in the present format. -/
def KeystoreContents.fromV1 (v : KeystoreContentsV1) : KeystoreContents where
  keyPkcs8Der := v.keyPkcs8Der
  certDer := v.certDer
  pairings := v.pairings.map PairingRecord.fromV1
  reauthIntervalDays := v.reauthIntervalDays
  lastAuthenticatedAtUnixMs := v.lastAuthenticatedAtUnixMs

/-! ## Loading and saving -/

/-- The format that is written. -/
def keystoreFormatVersion : UInt8 := 2

/-- The encryption of the platform. -/
structure Platform where
  encrypt : Bytes → Except RustString Bytes
  decrypt : Bytes → Except RustString Bytes

/-- What was encrypted is decrypted to what it was. -/
def Platform.Undoes (platform : Platform) : Prop :=
  ∀ plain cipher, platform.encrypt plain = .ok cipher → platform.decrypt cipher = .ok plain

/-- Why a file cannot be read. -/
inductive ReadError where
  | notFound
  | other (cause : IoError)
deriving DecidableEq

/-- The error of bytes that cannot be read as contents. -/
def KeystoreError.ofPostcard (e : Postcard.Error) : KeystoreError :=
  .decode e.text

/-- The contents of a plaintext. -/
def loadPlaintext : Bytes → Except KeystoreError KeystoreContents
  | [] => .error (.decode ⟨"empty plaintext", by decide⟩)
  | format :: payload =>
      if format = 1 then
        match fromBytes KeystoreContentsV1.deserialize payload with
        | .error e => .error (.ofPostcard e)
        | .ok v1 => .ok (.fromV1 v1)
      else if format = 2 then
        match fromBytes KeystoreContents.deserialize payload with
        | .error e => .error (.ofPostcard e)
        | .ok contents => .ok contents
      else .error (.formatVersion format keystoreFormatVersion)

/-- The plaintext of some contents. -/
def savePlaintext (contents : KeystoreContents) : Bytes :=
  keystoreFormatVersion :: contents.serialize

section Platform

-- the encryption of the operating system
variable (platform : Platform)

/-- The contents of the bytes of a keystore file. -/
def loadImage (cipher : Bytes) : Except KeystoreError KeystoreContents :=
  match platform.decrypt cipher with
  | .error detail => .error (.encryption detail)
  | .ok plain => loadPlaintext plain

/-- Load the keystore from what reading its file gives; a file that is not there is no
error. -/
def load (read : Except ReadError Bytes) : Except KeystoreError (Option KeystoreContents) :=
  match read with
  | .error .notFound => .ok none
  | .error (.other e) => .error (.io e)
  | .ok cipher => (loadImage platform cipher).map some

/-- The bytes that a save writes. -/
def saveImage (contents : KeystoreContents) : Except KeystoreError Bytes :=
  match platform.encrypt (savePlaintext contents) with
  | .error detail => .error (.encryption detail)
  | .ok cipher => .ok cipher

variable {platform}

theorem encrypt_of_saveImage {c : KeystoreContents} {cipher : Bytes}
    (h : saveImage platform c = .ok cipher) :
    platform.encrypt (savePlaintext c) = .ok cipher := by
  unfold saveImage at h
  split at h
  · simp at h
  · next hencrypt => rw [hencrypt, Except.ok.inj h]

/-- What is loaded after a save. -/
theorem loadImage_of_saveImage (hplatform : platform.Undoes) {c : KeystoreContents} (hc : c.Fits)
    {cipher : Bytes} (hsave : saveImage platform c = .ok cipher) :
    loadImage platform cipher = .ok c.reloaded := by
  have hdecrypt := hplatform _ _ (encrypt_of_saveImage hsave)
  have hread := Postcard.fromBytes_of_reads (KeystoreContents.reads hc)
  unfold loadImage
  rw [hdecrypt]
  simp only [savePlaintext, loadPlaintext, keystoreFormatVersion, hread]
  rfl

/-- What is loaded from format 1. -/
theorem loadImage_of_v1 (hplatform : platform.Undoes) {v : KeystoreContentsV1} (hv : v.Fits)
    {cipher : Bytes} (hcipher : platform.encrypt (1 :: v.serialize) = .ok cipher) :
    loadImage platform cipher = .ok (.fromV1 v) := by
  have hdecrypt := hplatform _ _ hcipher
  have hread := Postcard.fromBytes_of_reads (KeystoreContentsV1.reads hv)
  unfold loadImage
  rw [hdecrypt]
  simp only [loadPlaintext, hread]
  rfl

/-! ## Saving and loading again -/

/-- A second save writes the same plaintext, whatever was lost. -/
theorem savePlaintext_reloaded (c : KeystoreContents) :
    savePlaintext c.reloaded = savePlaintext c := by
  rw [savePlaintext, savePlaintext, c.serialize_reloaded]

/-- What was saved is loaded as it was, and saved again as the same plaintext, exactly when
no address of it has flow information or a scope. -/
theorem load_saved_iff (hplatform : platform.Undoes) {c : KeystoreContents} (hc : c.Fits)
    {cipher : Bytes} (hsave : saveImage platform c = .ok cipher) :
    (∃ loaded, load platform (.ok cipher) = .ok (some loaded) ∧ loaded = c ∧
      savePlaintext loaded = savePlaintext c) ↔ c.Unscoped := by
  have hload : load platform (.ok cipher) = .ok (some c.reloaded) := by
    rw [load, loadImage_of_saveImage hplatform hc hsave]
    rfl
  rw [hload, ← c.reloaded_eq_iff]
  constructor
  · rintro ⟨loaded, heq, rfl, -⟩
    exact Option.some.inj (Except.ok.inj heq)
  · intro hsame
    exact ⟨c.reloaded, rfl, hsame, savePlaintext_reloaded c⟩

end Platform

/-- A platform that encrypts nothing. -/
def plainPlatform : Platform :=
  ⟨Except.ok, Except.ok⟩

theorem plainPlatform_undoes : plainPlatform.Undoes := by
  intro plain cipher h
  rw [Except.ok.inj h]
  rfl

/-- A phone that was seen at an IPv4 address. -/
def lanContents : KeystoreContents :=
  { pairedContents with pairings := [{ livePairing with lastKnownAddress := some phoneAddress }] }

/-- Nothing of it is lost. -/
theorem load_saved_lan :
    (∃ loaded, load plainPlatform (.ok (savePlaintext lanContents)) = .ok (some loaded) ∧
      loaded = lanContents ∧ savePlaintext loaded = savePlaintext lanContents) ↔
      lanContents.Unscoped :=
  load_saved_iff plainPlatform_undoes ⟨by decide, by decide, by decide⟩ rfl

/-- A phone that was seen at a link-local IPv6 address. -/
def linkLocalContents : KeystoreContents :=
  { pairedContents with
    pairings :=
      [{ livePairing with lastKnownAddress := some (.v6 (0xfe80 <<< 112 + 1) 51820 0 7) }] }

/-- The scope of the address is lost. -/
theorem scope_lost :
    plainPlatform.Undoes ∧ linkLocalContents.Fits ∧
      ∃ cipher, saveImage plainPlatform linkLocalContents = .ok cipher ∧
        ¬ ∃ loaded, load plainPlatform (.ok cipher) = .ok (some loaded) ∧
          loaded = linkLocalContents ∧
          savePlaintext loaded = savePlaintext linkLocalContents := by
  have hfits : linkLocalContents.Fits := ⟨by decide, by decide, by decide⟩
  refine ⟨plainPlatform_undoes, hfits, _, rfl, ?_⟩
  rintro ⟨loaded, hload, rfl, -⟩
  rw [load, loadImage_of_saveImage plainPlatform_undoes hfits rfl] at hload
  have hsame : linkLocalContents.reloaded = linkLocalContents :=
    Option.some.inj (Except.ok.inj hload)
  exact absurd hsame (by decide)

/-! ## Migration -/

/-- A record of the present format has all that the record of format 1 has, and no
address. -/
structure PairingRecordV1.MigratesTo (v : PairingRecordV1) (p : PairingRecord) : Prop where
  phoneName : p.phoneName = v.phoneName
  clientSpki : p.clientSpki = v.clientSpki
  pairedAtUnixMs : p.pairedAtUnixMs = v.pairedAtUnixMs
  lastAuthenticatedAtUnixMs : p.lastAuthenticatedAtUnixMs = v.lastAuthenticatedAtUnixMs
  revoked : p.revoked = v.revoked
  revokePending : p.revokePending = v.revokePending
  lastKnownAddress : p.lastKnownAddress = none

theorem PairingRecordV1.migratesTo_fromV1 (v : PairingRecordV1) :
    v.MigratesTo (.fromV1 v) :=
  ⟨rfl, rfl, rfl, rfl, rfl, rfl, rfl⟩

/-- The records of the migrated contents are those of format 1, one by one. -/
theorem KeystoreContents.forall₂_fromV1 (v : KeystoreContentsV1) :
    List.Forall₂ PairingRecordV1.MigratesTo v.pairings (fromV1 v).pairings := by
  rw [fromV1, List.forall₂_map_right_iff, List.forall₂_same]
  exact fun p _ => p.migratesTo_fromV1

/-- A key has a live pairing exactly when it had one. -/
theorem KeystoreContents.activePairing_fromV1 (v : KeystoreContentsV1) (clientSpki : SpkiHash) :
    ((fromV1 v).activePairing clientSpki).isSome ↔
      ∃ p ∈ v.pairings, p.revoked = false ∧ p.clientSpki = clientSpki := by
  rw [activePairing_isSome_iff, HasActive, fromV1]
  simp only [List.mem_map, exists_exists_and_eq_and]
  rfl

/-- Migrated contents have no address, so nothing of them is lost. -/
theorem KeystoreContents.unscoped_fromV1 (v : KeystoreContentsV1) : (fromV1 v).Unscoped := by
  intro p hp addr haddr
  obtain ⟨q, -, rfl⟩ := List.mem_map.mp hp
  simp [PairingRecord.fromV1] at haddr

/-- Format 1 is loaded with all its fields and records, each key has a live pairing exactly
when it had one, and what is then saved is loaded again as it was. -/
theorem load_migrated {platform : Platform} (hplatform : platform.Undoes)
    {v : KeystoreContentsV1} (hv : v.Fits) {cipher : Bytes}
    (hcipher : platform.encrypt (1 :: v.serialize) = .ok cipher) :
    ∃ c, load platform (.ok cipher) = .ok (some c) ∧
      c.keyPkcs8Der = v.keyPkcs8Der ∧ c.certDer = v.certDer ∧
      c.reauthIntervalDays = v.reauthIntervalDays ∧
      c.lastAuthenticatedAtUnixMs = v.lastAuthenticatedAtUnixMs ∧
      List.Forall₂ PairingRecordV1.MigratesTo v.pairings c.pairings ∧
      (∀ clientSpki, (c.activePairing clientSpki).isSome ↔
        ∃ p ∈ v.pairings, p.revoked = false ∧ p.clientSpki = clientSpki) ∧
      ∀ cipher', saveImage platform c = .ok cipher' →
        load platform (.ok cipher') = .ok (some c) := by
  refine ⟨.fromV1 v, ?_, rfl, rfl, rfl, rfl, KeystoreContents.forall₂_fromV1 v,
    KeystoreContents.activePairing_fromV1 v, ?_⟩
  · rw [load, loadImage_of_v1 hplatform hv hcipher]
    rfl
  · intro cipher' hsave
    have hfits : (KeystoreContents.fromV1 v).Fits :=
      ⟨hv.key_le, hv.cert_le, by simpa [KeystoreContents.fromV1] using hv.pairings_le⟩
    have hsame := (KeystoreContents.reloaded_eq_iff _).mpr (KeystoreContents.unscoped_fromV1 v)
    rw [load, loadImage_of_saveImage hplatform hfits hsave, hsame]
    rfl

/-- A keystore of format 1 with a pairing that is revoked and one that is not. -/
def legacyContents : KeystoreContentsV1 where
  keyPkcs8Der := [1, 2]
  certDer := [3]
  pairings :=
    [⟨⟨"legacy-phone", by decide⟩, phoneKey, 1000, 1000, true, true⟩,
      ⟨⟨"phone", size_phone_le⟩, phoneKey, 2000, 2000, false, false⟩]
  reauthIntervalDays := 7
  lastAuthenticatedAtUnixMs := 5

/-- It is migrated. -/
theorem load_migrated_legacy :
    ∃ c, load plainPlatform (.ok (1 :: legacyContents.serialize)) = .ok (some c) ∧
      c.keyPkcs8Der = legacyContents.keyPkcs8Der ∧ c.certDer = legacyContents.certDer ∧
      c.reauthIntervalDays = legacyContents.reauthIntervalDays ∧
      c.lastAuthenticatedAtUnixMs = legacyContents.lastAuthenticatedAtUnixMs ∧
      List.Forall₂ PairingRecordV1.MigratesTo legacyContents.pairings c.pairings ∧
      (∀ clientSpki, (c.activePairing clientSpki).isSome ↔
        ∃ p ∈ legacyContents.pairings, p.revoked = false ∧ p.clientSpki = clientSpki) ∧
      ∀ cipher', saveImage plainPlatform c = .ok cipher' →
        load plainPlatform (.ok cipher') = .ok (some c) :=
  load_migrated plainPlatform_undoes ⟨by decide, by decide, by decide⟩ rfl

end Daemon
end WakeMyPc
