import WakeMyPc.Daemon.Admin
import WakeMyPc.Daemon.KeystoreFile

/-!
# Edits of the keystore contents

Every writer of the keystore file changes some of its fields on purpose and means to
leave the others alone.  An edit is one such change: an update of the shared contents,
or the change of a subcommand.

Main results:

- Definition `Edit.aims`: the fields that an edit is meant to change.
- Theorem `Edit.read_apply`: an edit changes no other field.
- Theorem `Kept.of_edits`: what a list of edits keeps.
-/

namespace WakeMyPc
namespace Daemon

open Protocol (SpkiHash)

/-! ## Fields -/

/-- The parts of a pairing record that are changed apart from each other. -/
inductive RecordField where
  | times
  | revoked
  | revokePending
  | lastKnownAddress
deriving DecidableEq

/-- The values of a part. -/
def RecordField.Value : RecordField → Type
  | times => UInt64 × UInt64
  | revoked => Bool
  | revokePending => Bool
  | lastKnownAddress => Option SocketAddr

/-- A part of a record. -/
def RecordField.read : (part : RecordField) → PairingRecord → part.Value
  | times, p => (p.pairedAtUnixMs, p.lastAuthenticatedAtUnixMs)
  | revoked, p => p.revoked
  | revokePending, p => p.revokePending
  | lastKnownAddress, p => p.lastKnownAddress

/-- The fields of the contents.  A record is known by its name and its key. -/
inductive Field where
  | identity
  | reauthInterval
  | lastAuthenticated
  | record (phoneName : RustString) (clientSpki : SpkiHash) (part : RecordField)
deriving DecidableEq

/-- The values of a field; a part of a record has one for each record of that name and
key. -/
def Field.Value : Field → Type
  | identity => DeviceIdentityBytes
  | reauthInterval => UInt8
  | lastAuthenticated => UInt64
  | record _ _ part => List part.Value

/-- The records of a name and a key. -/
def recordsOf (phoneName : RustString) (clientSpki : SpkiHash) (ps : List PairingRecord) :
    List PairingRecord :=
  ps.filter fun p => p.phoneName = phoneName ∧ p.clientSpki = clientSpki

/-- A field of some contents. -/
def Field.read : (f : Field) → KeystoreContents → f.Value
  | identity, c => c.deviceIdentityBytes
  | reauthInterval, c => c.reauthIntervalDays
  | lastAuthenticated, c => c.lastAuthenticatedAtUnixMs
  | record phoneName clientSpki part, c =>
      (recordsOf phoneName clientSpki c.pairings).map part.read

/-! ## Edits -/

/-- One change of the contents. -/
inductive Edit where
  | update (u : Update)
  | change (c : Change)
deriving DecidableEq

/-- The contents after an edit. -/
def Edit.apply (c : KeystoreContents) : Edit → KeystoreContents
  | update u => u.apply c
  | change made => made.apply c

/-- The contents after some edits. -/
def applyEdits (c : KeystoreContents) (edits : List Edit) : KeystoreContents :=
  edits.foldl Edit.apply c

/-- The edit does not set the time of the last credential prompt back. -/
def Edit.Forward (c : KeystoreContents) : Edit → Prop
  | change (.reauthNow nowMs) => c.lastAuthenticatedAtUnixMs ≤ nowMs
  | _ => True

/-- None of some edits in turn sets the time of the last credential prompt back. -/
def Forward : KeystoreContents → List Edit → Prop
  | _, [] => True
  | c, e :: edits => e.Forward c ∧ Forward (e.apply c) edits

/-- The fields that an edit is meant to change. -/
def Edit.aims : Edit → Field → Bool
  | update (.lastKnownAddress peerSpki _), .record _ clientSpki .lastKnownAddress =>
      clientSpki == peerSpki
  | update (.reauthInterval _), .reauthInterval => true
  | update (.removeRevoked peerSpki), .record _ clientSpki _ => clientSpki == peerSpki
  | change (.revoke name), .record phoneName _ .revoked => phoneName == name
  | change (.revoke name), .record phoneName _ .revokePending => phoneName == name
  | change (.reauthNow _), .lastAuthenticated => true
  | change .revokeAll, .record _ _ .revoked => true
  | change .revokeAll, .record _ _ .revokePending => true
  | change (.pair new), .record _ clientSpki _ => clientSpki == new.clientSpki
  | _, _ => false

/-! ## Fields that an edit leaves alone -/

section Records

variable {phoneName : RustString} {clientSpki : SpkiHash} {part : RecordField}

/-- A change of records that keeps their names and keys, and the part of the records
of this name and key. -/
private theorem recordsOf_map {g : PairingRecord → PairingRecord} (ps : List PairingRecord)
    (hname : ∀ p, (g p).phoneName = p.phoneName) (hspki : ∀ p, (g p).clientSpki = p.clientSpki)
    (hpart : ∀ p, p.phoneName = phoneName → p.clientSpki = clientSpki →
      part.read (g p) = part.read p) :
    (recordsOf phoneName clientSpki (ps.map g)).map part.read =
      (recordsOf phoneName clientSpki ps).map part.read := by
  induction ps with
  | nil => rfl
  | cons p ps ih =>
      simp only [recordsOf, List.map_cons, List.filter_cons, hname, hspki] at ih ⊢
      split
      · next hkey =>
          obtain ⟨hp, hq⟩ := of_decide_eq_true hkey
          rw [List.map_cons, List.map_cons, hpart p hp hq, ih]
      · exact ih

/-- Removing records of other keys. -/
private theorem recordsOf_filter (phoneName : RustString) (keep : PairingRecord → Bool)
    (ps : List PairingRecord) (hkeep : ∀ p, p.clientSpki = clientSpki → keep p = true) :
    recordsOf phoneName clientSpki (ps.filter keep) = recordsOf phoneName clientSpki ps := by
  rw [recordsOf, recordsOf, List.filter_filter]
  refine List.filter_congr fun p _ => ?_
  by_cases hspki : p.clientSpki = clientSpki
  · simp [hkeep p hspki]
  · simp [hspki]

/-- Setting an address changes no other part, and no record of another key. -/
private theorem recordsOf_setLastKnownAddress {peerSpki : SpkiHash} {peerAddr : SocketAddr}
    (h : clientSpki ≠ peerSpki ∨ part ≠ .lastKnownAddress) (ps : List PairingRecord) :
    (recordsOf phoneName clientSpki (setLastKnownAddress peerSpki peerAddr ps).2).map part.read =
      (recordsOf phoneName clientSpki ps).map part.read := by
  have hpart : ∀ p : PairingRecord, p.clientSpki = peerSpki → p.clientSpki = clientSpki →
      part.read { p with lastKnownAddress := some peerAddr } = part.read p := by
    intro p hpeer hclient
    rcases h with hkey | hother
    · exact absurd (hclient.symm.trans hpeer) hkey
    · cases part with
      | lastKnownAddress => exact absurd rfl hother
      | _ => rfl
  induction ps with
  | nil => rfl
  | cons p ps ih =>
      simp only [setLastKnownAddress]
      split
      · next hset =>
          simp only [recordsOf, List.filter_cons]
          split
          · next hkey =>
              obtain ⟨-, hclient⟩ := of_decide_eq_true hkey
              rw [List.map_cons, List.map_cons, hpart p hset.1 hclient]
          · rfl
      · simp only [recordsOf, List.filter_cons] at ih ⊢
        split
        · rw [List.map_cons, List.map_cons, ih]
        · exact ih

end Records

/-- An update changes no field that it is not meant to change. -/
private theorem read_update {u : Update} {f : Field} (h : (Edit.update u).aims f = false)
    (c : KeystoreContents) : f.read (u.apply c) = f.read c := by
  cases u with
  | lastKnownAddress peerSpki peerAddr =>
      cases f with
      | record phoneName clientSpki part =>
          refine recordsOf_setLastKnownAddress ?_ c.pairings
          cases part <;> simp_all [Edit.aims]
      | _ => rfl
  | reauthInterval newDays =>
      cases f with
      | reauthInterval => simp [Edit.aims] at h
      | _ => rfl
  | removeRevoked peerSpki =>
      cases f with
      | record phoneName clientSpki part =>
          refine congrArg (List.map part.read) (recordsOf_filter _ _ c.pairings fun p hp => ?_)
          simp_all [Edit.aims]
      | _ => rfl

/-- A subcommand changes no field that it is not meant to change. -/
private theorem read_change {change : Change} {f : Field}
    (h : (Edit.change change).aims f = false) (c : KeystoreContents) :
    f.read (change.apply c) = f.read c := by
  cases change with
  | revoke name =>
      cases f with
      | record phoneName clientSpki part =>
          refine recordsOf_map c.pairings (fun p => ?_) (fun p => ?_) fun p hp _ => ?_
          · split <;> rfl
          · split <;> rfl
          · split
            · next hname => cases part <;> simp_all [Edit.aims] <;> rfl
            · rfl
      | _ => rfl
  | reauthNow nowMs =>
      cases f with
      | lastAuthenticated => simp [Edit.aims] at h
      | _ => rfl
  | revokeAll =>
      cases f with
      | record phoneName clientSpki part =>
          refine recordsOf_map c.pairings (fun p => rfl) (fun p => rfl) fun p _ _ => ?_
          cases part <;> simp_all [Edit.aims] <;> rfl
      | _ => rfl
  | pair new =>
      cases f with
      | record phoneName clientSpki part =>
          have hspki : clientSpki ≠ new.clientSpki := by simpa [Edit.aims] using h
          have hfilter := recordsOf_filter phoneName
            (fun p => p.clientSpki != new.clientSpki) c.pairings
            fun p hp => by simpa [hp] using hspki
          have hnew : recordsOf phoneName clientSpki [new] = [] := by
            simp [recordsOf, hspki.symm]
          have hall : recordsOf phoneName clientSpki ((Change.pair new).apply c).pairings =
              recordsOf phoneName clientSpki c.pairings := by
            rw [Change.apply, recordsOf, List.filter_append, ← recordsOf, hfilter, ← recordsOf,
              hnew, List.append_nil]
          exact congrArg (List.map part.read) hall
      | _ => rfl

/-- An edit changes no field that it is not meant to change. -/
theorem Edit.read_apply {e : Edit} {f : Field} (h : e.aims f = false) (c : KeystoreContents) :
    f.read (e.apply c) = f.read c := by
  cases e with
  | update u => exact read_update h c
  | change change => exact read_change h c

/-! ## Fields that are read back -/

/-- A part of a record, as it is read back. -/
def RecordField.reread : (part : RecordField) → part.Value → part.Value
  | times, value => value
  | revoked, value => value
  | revokePending, value => value
  | lastKnownAddress, value => Option.map SocketAddr.reloaded value

theorem RecordField.read_reloaded (part : RecordField) (p : PairingRecord) :
    part.read p.reloaded = part.reread (part.read p) := by
  cases part <;> rfl

/-- The records of a name and a key come back as those of this name and key. -/
private theorem recordsOf_reloaded (phoneName : RustString) (clientSpki : SpkiHash)
    (ps : List PairingRecord) :
    recordsOf phoneName clientSpki (ps.map PairingRecord.reloaded) =
      (recordsOf phoneName clientSpki ps).map PairingRecord.reloaded := by
  rw [recordsOf, List.filter_map]
  rfl

/-- A field that is the same in two contents comes back as the same. -/
theorem Field.read_reloaded {f : Field} {c c' : KeystoreContents} (h : f.read c' = f.read c) :
    f.read c'.reloaded = f.read c.reloaded := by
  cases f with
  | record phoneName clientSpki part =>
      have hread : ∀ c : KeystoreContents,
          (record phoneName clientSpki part).read c.reloaded =
            ((record phoneName clientSpki part).read c).map part.reread := by
        intro c
        simp only [read, KeystoreContents.reloaded, recordsOf_reloaded, List.map_map]
        exact List.map_congr_left fun p _ => part.read_reloaded p
      rw [hread c', hread c, h]
  | _ => exact h

/-! ## What some edits keep -/

/-- No record becomes live again but by a new pairing of its key. -/
private theorem live_of_apply {e : Edit} {c : KeystoreContents} {q : PairingRecord}
    (hq : q ∈ (e.apply c).pairings) (hlive : q.revoked = false) :
    (∃ p ∈ c.pairings, p.revoked = false ∧ p.phoneName = q.phoneName ∧
      p.clientSpki = q.clientSpki) ∨ e = .change (.pair q) := by
  match e with
  | .update (.lastKnownAddress peerSpki peerAddr) =>
      obtain ⟨p, hp, rfl | rfl⟩ := setLastKnownAddress_mem hq
      · exact .inl ⟨q, hp, hlive, rfl, rfl⟩
      · exact .inl ⟨p, hp, hlive, rfl, rfl⟩
  | .update (.reauthInterval newDays) => exact .inl ⟨q, hq, hlive, rfl, rfl⟩
  | .update (.removeRevoked peerSpki) =>
      exact .inl ⟨q, (List.mem_filter.mp hq).1, hlive, rfl, rfl⟩
  | .change (.revoke name) =>
      obtain ⟨p, hp, rfl⟩ := List.mem_map.mp hq
      by_cases hname : p.phoneName = name
      · simp [hname, PairingRecord.markRevoked] at hlive
      · rw [if_neg hname] at hlive ⊢
        exact .inl ⟨p, hp, hlive, rfl, rfl⟩
  | .change (.reauthNow nowMs) => exact .inl ⟨q, hq, hlive, rfl, rfl⟩
  | .change .revokeAll =>
      obtain ⟨p, hp, rfl⟩ := List.mem_map.mp hq
      simp [PairingRecord.markRevoked] at hlive
  | .change (.pair new) =>
      rcases List.mem_append.mp hq with hold | hnew
      · exact .inl ⟨q, (List.mem_filter.mp hold).1, hlive, rfl, rfl⟩
      · obtain rfl := List.mem_singleton.mp hnew
        exact .inr rfl

/-- No key loses its last record but when the phone acknowledges its revocation. -/
private theorem key_of_apply {e : Edit} {c : KeystoreContents} {p : PairingRecord}
    (hp : p ∈ c.pairings) :
    (∃ q ∈ (e.apply c).pairings, q.clientSpki = p.clientSpki) ∨
      e = .update (.removeRevoked p.clientSpki) := by
  match e with
  | .update (.lastKnownAddress peerSpki peerAddr) =>
      have hkeys : ∀ ps : List PairingRecord,
          (setLastKnownAddress peerSpki peerAddr ps).2.map (·.clientSpki) =
            ps.map (·.clientSpki) := by
        intro ps
        induction ps with
        | nil => rfl
        | cons p ps ih =>
            simp only [setLastKnownAddress]
            split
            · rfl
            · rw [List.map_cons, List.map_cons, ih]
      have hmem : p.clientSpki ∈ c.pairings.map (·.clientSpki) := List.mem_map_of_mem hp
      rw [← hkeys] at hmem
      exact .inl (List.mem_map.mp hmem)
  | .update (.reauthInterval newDays) => exact .inl ⟨p, hp, rfl⟩
  | .update (.removeRevoked peerSpki) =>
      by_cases hspki : p.clientSpki = peerSpki
      · exact .inr (by rw [hspki])
      · exact .inl ⟨p, List.mem_filter.mpr ⟨hp, by simp [hspki]⟩, rfl⟩
  | .change (.revoke name) =>
      refine .inl ⟨_, List.mem_map_of_mem hp, ?_⟩
      split <;> rfl
  | .change (.reauthNow nowMs) => exact .inl ⟨p, hp, rfl⟩
  | .change .revokeAll => exact .inl ⟨_, List.mem_map_of_mem hp, rfl⟩
  | .change (.pair new) =>
      by_cases hspki : p.clientSpki = new.clientSpki
      · exact .inl ⟨new, List.mem_append_right _ (List.mem_singleton.mpr rfl), hspki.symm⟩
      · exact .inl ⟨p, List.mem_append_left _ (List.mem_filter.mpr ⟨hp, by simp [hspki]⟩), rfl⟩

/-- What is the same, or has only moved forward, when some contents become others by
edits that are meant to change them. -/
structure Kept (edits : List Edit) (c c' : KeystoreContents) : Prop where
  /-- A field stays until an edit is meant to change it. -/
  fields : ∀ f : Field, (∀ e ∈ edits, e.aims f = false) → f.read c' = f.read c
  /-- A revoked record stays revoked until its key is paired anew. -/
  revoked : ∀ q ∈ c'.pairings, q.revoked = false →
    (∃ p ∈ c.pairings, p.revoked = false ∧ p.phoneName = q.phoneName ∧
      p.clientSpki = q.clientSpki) ∨
    ∃ new : PairingRecord, Edit.change (.pair new) ∈ edits ∧ new.clientSpki = q.clientSpki
  /-- A key stays until its phone acknowledges its revocation. -/
  paired : ∀ p ∈ c.pairings, (∃ q ∈ c'.pairings, q.clientSpki = p.clientSpki) ∨
    Edit.update (.removeRevoked p.clientSpki) ∈ edits
  /-- The time of the last credential prompt does not go back. -/
  lastAuthenticated : c.lastAuthenticatedAtUnixMs ≤ c'.lastAuthenticatedAtUnixMs

namespace Kept

theorem refl (edits : List Edit) (c : KeystoreContents) : Kept edits c c where
  fields _ _ := rfl
  revoked q hq hlive := .inl ⟨q, hq, hlive, rfl, rfl⟩
  paired p hp := .inl ⟨p, hp, rfl⟩
  lastAuthenticated := UInt64.le_refl _

/-- What is kept by two lists of edits in turn is kept by both together. -/
theorem trans {edits edits' : List Edit} {c c' c'' : KeystoreContents} (h : Kept edits c c')
    (h' : Kept edits' c' c'') : Kept (edits ++ edits') c c'' where
  fields f haims := by
    rw [h'.fields f fun e he => haims e (List.mem_append_right _ he),
      h.fields f fun e he => haims e (List.mem_append_left _ he)]
  revoked q hq hlive := by
    rcases h'.revoked q hq hlive with ⟨p, hp, hrevoked, hname, hspki⟩ | ⟨new, hnew, hspki⟩
    · rcases h.revoked p hp hrevoked with ⟨p', hp', hrevoked', hname', hspki'⟩ | ⟨new, hnew, hspki'⟩
      · exact .inl ⟨p', hp', hrevoked', hname'.trans hname, hspki'.trans hspki⟩
      · exact .inr ⟨new, List.mem_append_left _ hnew, hspki'.trans hspki⟩
    · exact .inr ⟨new, List.mem_append_right _ hnew, hspki⟩
  paired p hp := by
    rcases h.paired p hp with ⟨q, hq, hspki⟩ | hremoved
    · rcases h'.paired q hq with ⟨q', hq', hspki'⟩ | hremoved
      · exact .inl ⟨q', hq', hspki'.trans hspki⟩
      · exact .inr (List.mem_append_right _ (hspki ▸ hremoved))
    · exact .inr (List.mem_append_left _ hremoved)
  lastAuthenticated := UInt64.le_trans h.lastAuthenticated h'.lastAuthenticated

/-- What is kept is kept when both contents are read back. -/
theorem reloaded {edits : List Edit} {c c' : KeystoreContents} (h : Kept edits c c') :
    Kept edits c.reloaded c'.reloaded where
  fields f haims := Field.read_reloaded (h.fields f haims)
  revoked q hq hlive := by
    obtain ⟨q', hq', rfl⟩ := List.mem_map.mp hq
    rcases h.revoked q' hq' hlive with ⟨p, hp, hrevoked, hname, hspki⟩ | hnew
    · exact .inl ⟨p.reloaded, List.mem_map_of_mem hp, hrevoked, hname, hspki⟩
    · exact .inr hnew
  paired p hp := by
    obtain ⟨p', hp', rfl⟩ := List.mem_map.mp hp
    rcases h.paired p' hp' with ⟨q, hq, hspki⟩ | hremoved
    · exact .inl ⟨q.reloaded, List.mem_map_of_mem hq, hspki⟩
    · exact .inr hremoved
  lastAuthenticated := h.lastAuthenticated

/-- One edit; a credential prompt moves the time forward only when its own is not
earlier. -/
theorem of_edit {e : Edit} {c : KeystoreContents} (hforward : e.Forward c) :
    Kept [e] c (e.apply c) where
  fields f haims := Edit.read_apply (haims e (List.mem_singleton.mpr rfl)) c
  revoked q hq hlive := by
    rcases live_of_apply hq hlive with hold | rfl
    · exact .inl hold
    · exact .inr ⟨q, List.mem_singleton.mpr rfl, rfl⟩
  paired p hp := by
    rcases key_of_apply hp with hold | hremoved
    · exact .inl hold
    · exact .inr (List.mem_singleton.mpr hremoved.symm)
  lastAuthenticated := by
    match e with
    | .update u => cases u <;> exact UInt64.le_refl _
    | .change (.reauthNow nowMs) => exact hforward
    | .change (.revoke name) => exact UInt64.le_refl _
    | .change .revokeAll => exact UInt64.le_refl _
    | .change (.pair new) => exact UInt64.le_refl _

/-- Some edits in turn. -/
theorem of_edits {edits : List Edit} {c : KeystoreContents} (hforward : Forward c edits) :
    Kept edits c (applyEdits c edits) := by
  induction edits generalizing c with
  | nil => exact refl [] c
  | cons e edits ih => exact (of_edit hforward.1).trans (ih hforward.2)

end Kept

end Daemon
end WakeMyPc
