import WakeMyPc.Daemon.KeystoreFile
import WakeMyPc.Foundations.Streaming

/-!
# Values that are cut short

All decoders of messages and of the keystore decode streams.  So a payload or a plaintext of
which the end is missing is refused, and never read as something else.

Main results:

- Theorem `cut_short_refused`: what is said about messages and keystores that are cut short.
- Theorem `plaintext_continued`: what follows a plaintext changes nothing.
-/

namespace WakeMyPc
namespace Daemon

open Foundations
open Foundations.Decoder (Streams)
open Postcard (decodeOption decodeVec fromBytes)
open Protocol (decodeTag SpkiHash PcState ReauthInterval ProtocolError ClientFrame DaemonFrame
  decodePayload decodeClientFrame decodeDaemonFrame)

/-- The decoder decodes a stream, as those of postcard do. -/
abbrev PostcardStreams {α : Type} (d : Decoder UInt8 Postcard.Error α) : Prop :=
  d.Streams .deserializeUnexpectedEnd

/-! ## Primitive forms -/

/-- A varint is read as a stream. -/
theorem streams_varint (l : VarintLimits) : PostcardStreams (Postcard.decodeVarint l) :=
  streams_readVarint _ _ l.last (l.more + 1)

/-- A byte is read as a stream. -/
theorem streams_u8 : PostcardStreams Postcard.u8.decode :=
  .item

/-- A flag is a byte that is looked at after it was taken. -/
theorem streams_bool : PostcardStreams Postcard.bool.decode :=
  .bind .item fun _ => .ofOption _ _

/-- A `u16` is a varint. -/
theorem streams_u16 : PostcardStreams Postcard.u16.decode :=
  (streams_varint _).map _

/-- A `u32` is a varint. -/
theorem streams_u32 : PostcardStreams Postcard.u32.decode :=
  (streams_varint _).map _

/-- A `u64` is a varint. -/
theorem streams_u64 : PostcardStreams Postcard.u64.decode :=
  (streams_varint _).map _

/-- A string is its length, that many bytes, and a look at them. -/
theorem streams_string : PostcardStreams Postcard.string.decode :=
  .bind (streams_varint _) fun len => .bind (.take len) fun _ => .ofOption _ _

/-- The octets of an address are a fixed number of bytes. -/
theorem streams_octets (n : ℕ) : PostcardStreams (Postcard.octets n).decode :=
  (Streams.take n).map _

/-- The variant of an enumeration is a varint, and a look at it. -/
theorem streams_unitEnum {α : Type} (index : α → ℕ) (variant : ℕ → Option α)
    (hlt : ∀ a, index a < 128) (hvariant : ∀ a, variant (index a) = some a) :
    PostcardStreams (Postcard.unitEnum index variant hlt hvariant).decode :=
  .bind (streams_varint _) fun _ => .ofOption _ _

/-- A key hash is thirty-two bytes. -/
theorem streams_spkiHash : PostcardStreams SpkiHash.format.decode :=
  .bind (.take 32) fun _ => .ofOption _ _

/-- An option is a byte that says whether its value follows. -/
theorem streams_option {γ : Type} {d : Decoder UInt8 Postcard.Error γ} (hd : PostcardStreams d) :
    PostcardStreams (decodeOption d) := by
  refine .bind .item fun tag => ?_
  split
  · exact .pure none
  · split
    · exact hd.bind fun a => .pure (some a)
    · exact .fail _

/-- A vector is its length, and that many items. -/
theorem streams_vec {γ : Type} {d : Decoder UInt8 Postcard.Error γ} (hd : PostcardStreams d) :
    PostcardStreams (decodeVec d) :=
  .bind (streams_varint _) fun len => hd.replicate len

/-! ## Messages -/

/-- A message of a client is its tag, and the fields of that tag. -/
theorem streams_clientFrame : PostcardStreams ClientFrame.format.decode := by
  refine .bind (streams_varint _) fun tag => ?_
  split
  · exact .bind streams_string fun _ => .bind streams_u32 fun _ => .pure _
  · exact .pure _
  · exact .pure _
  · exact .pure _
  · exact .pure _
  · exact .pure _
  · exact .bind (streams_unitEnum _ _ _ _) fun _ => .pure _
  · exact .pure _
  · exact .fail _

/-- A message of the daemon is its tag, and the fields of that tag. -/
theorem streams_daemonFrame : PostcardStreams DaemonFrame.format.decode := by
  refine .bind (streams_varint _) fun tag => ?_
  split
  · exact .bind streams_u64 fun _ => .pure _
  · exact .bind (streams_unitEnum _ _ _ _) fun _ => .pure _
  · exact .bind streams_spkiHash fun _ => .bind streams_u64 fun _ => .pure _
  · exact .bind streams_u64 fun _ => .bind (streams_unitEnum _ _ _ _) fun _ => .pure _
  · exact .bind streams_u64 fun _ => .bind (streams_unitEnum _ _ _ _) fun _ =>
      .bind streams_u64 fun _ => .pure _
  · exact .fail _

/-- A payload that is cut short is refused for that reason. -/
theorem decodePayload_cut_short {T : Type} {form : Postcard.Format T}
    (hform : PostcardStreams form.decode) {value : T} {front tail : Bytes}
    (hsplit : form.encode value = front ++ tail) (htail : tail ≠ []) :
    decodePayload form front = .error (.decoding .deserializeUnexpectedEnd) := by
  have hreads : form.decode.Reads (front ++ tail) value := hsplit ▸ form.reads value
  rw [decodePayload, Postcard.takeFromBytes, hform.cut_short hreads htail]

/-! ## Keystores -/

/-- An address is the tag of its family, its octets and its port. -/
theorem streams_address : PostcardStreams SocketAddr.deserialize := by
  refine .bind (streams_varint _) fun tag => ?_
  split
  · exact .bind (streams_octets 4) fun _ => .bind streams_u16 fun _ => .pure _
  · exact .bind (streams_octets 16) fun _ => .bind streams_u16 fun _ => .pure _
  · exact .fail _

/-- A record of a pairing is its fields in their order. -/
theorem streams_record : PostcardStreams PairingRecord.deserialize :=
  .bind streams_string fun _ => .bind streams_spkiHash fun _ => .bind streams_u64 fun _ =>
    .bind streams_u64 fun _ => .bind streams_bool fun _ => .bind streams_bool fun _ =>
      .bind (streams_option streams_address) fun _ => .pure _

/-- The contents of a keystore are their fields in their order. -/
theorem streams_contents : PostcardStreams KeystoreContents.deserialize :=
  .bind (streams_vec streams_u8) fun _ => .bind (streams_vec streams_u8) fun _ =>
    .bind (streams_vec streams_record) fun _ => .bind streams_u8 fun _ =>
      .bind streams_u64 fun _ => .pure _

/-- A record of format 1 has the same fields except the address. -/
theorem streams_recordV1 : PostcardStreams PairingRecordV1.format.decode :=
  .bind streams_string fun _ => .bind streams_spkiHash fun _ => .bind streams_u64 fun _ =>
    .bind streams_u64 fun _ => .bind streams_bool fun _ => .bind streams_bool fun _ => .pure _

/-- The contents of a keystore of format 1. -/
theorem streams_contentsV1 : PostcardStreams KeystoreContentsV1.deserialize :=
  .bind (streams_vec streams_u8) fun _ => .bind (streams_vec streams_u8) fun _ =>
    .bind (streams_vec streams_recordV1) fun _ => .bind streams_u8 fun _ =>
      .bind streams_u64 fun _ => .pure _

/-- A value that `fromBytes` reads is refused by it when it is cut short. -/
theorem fromBytes_cut_short {T : Type} {d : Decoder UInt8 Postcard.Error T}
    (hd : PostcardStreams d) {value : T} {front tail : Bytes}
    (hreads : d.Reads (front ++ tail) value) (htail : tail ≠ []) :
    fromBytes d front = .error .deserializeUnexpectedEnd := by
  rw [fromBytes, hd.cut_short hreads htail]
  rfl

/-- The error of an input that ended too early. -/
def endedEarly : KeystoreError :=
  .ofPostcard .deserializeUnexpectedEnd

theorem size_emptyPlaintext_le : "empty plaintext".toByteArray.size ≤ isizeMax := by decide

/-- The error for what is left of a plaintext that was cut short. -/
def cutShortError (front : Bytes) : KeystoreError :=
  if front.isEmpty then .decode ⟨"empty plaintext", size_emptyPlaintext_le⟩ else endedEarly

/-- Every client message, daemon message and keystore plaintext of either format that is cut
short anywhere is refused, because it ended too early or because nothing of it is left. -/
theorem cut_short_refused :
    (∀ (frame : ClientFrame) (front tail : Bytes), tail ≠ [] →
      ClientFrame.format.encode frame = front ++ tail →
        decodeClientFrame front = .error (.decoding .deserializeUnexpectedEnd)) ∧
    (∀ (frame : DaemonFrame) (front tail : Bytes), tail ≠ [] →
      DaemonFrame.format.encode frame = front ++ tail →
        decodeDaemonFrame front = .error (.decoding .deserializeUnexpectedEnd)) ∧
    (∀ (c : KeystoreContents) (front tail : Bytes), c.Fits → tail ≠ [] →
      savePlaintext c = front ++ tail → loadPlaintext front = .error (cutShortError front)) ∧
    (∀ (v : KeystoreContentsV1) (front tail : Bytes), v.Fits → tail ≠ [] →
      1 :: v.serialize = front ++ tail →
        loadPlaintext front = .error (cutShortError front)) := by
  refine ⟨?_, ?_, ?_, ?_⟩
  · intro frame front tail htail hsplit
    exact decodePayload_cut_short streams_clientFrame hsplit htail
  · intro frame front tail htail hsplit
    exact decodePayload_cut_short streams_daemonFrame hsplit htail
  · intro c front tail hfits htail hsplit
    cases front with
    | nil => rfl
    | cons format payload =>
        obtain ⟨rfl, hpayload⟩ := List.cons_eq_cons.mp (hsplit.trans (List.cons_append ..))
        have hreads : KeystoreContents.deserialize.Reads (payload ++ tail) c.reloaded := by
          rw [← hpayload]
          exact KeystoreContents.reads hfits
        rw [loadPlaintext, if_neg (by decide), keystoreFormatVersion, if_pos rfl,
          fromBytes_cut_short streams_contents hreads htail]
        rfl
  · intro v front tail hfits htail hsplit
    cases front with
    | nil => rfl
    | cons format payload =>
        obtain ⟨rfl, hpayload⟩ := List.cons_eq_cons.mp (hsplit.trans (List.cons_append ..))
        have hreads : KeystoreContentsV1.deserialize.Reads (payload ++ tail) v := by
          rw [← hpayload]
          exact KeystoreContentsV1.reads hfits
        rw [loadPlaintext, if_pos rfl, fromBytes_cut_short streams_contentsV1 hreads htail]
        rfl

/-- A request, a reply, a keystore of each format and a whole plaintext, cut short. -/
theorem pairing_cut_short :
    decodeClientFrame [0, 5, 112, 104] = .error (.decoding .deserializeUnexpectedEnd) ∧
      decodeDaemonFrame [0] = .error (.decoding .deserializeUnexpectedEnd) ∧
      loadPlaintext ((savePlaintext lanContents).take 40) = .error endedEarly ∧
      loadPlaintext ((1 :: legacyContents.serialize).take 20) = .error endedEarly ∧
      loadPlaintext [] = .error (.decode ⟨"empty plaintext", size_emptyPlaintext_le⟩) := by
  obtain ⟨hclient, hdaemon, hcontents, hcontentsV1⟩ := cut_short_refused
  have hlan : lanContents.Fits := ⟨by decide, by decide, by decide⟩
  have hlegacy : legacyContents.Fits := ⟨by decide, by decide, by decide⟩
  refine ⟨?_, ?_, ?_, ?_, ?_⟩
  · exact hclient (.pair ⟨"phone", by decide⟩ 7) [0, 5, 112, 104] [111, 110, 101, 7]
      (by decide) (by decide)
  · exact hdaemon (.ack 7) [0] [7] (by decide) (by decide)
  · exact hcontents lanContents _ ((savePlaintext lanContents).drop 40) hlan (by decide)
      (List.take_append_drop ..).symm
  · exact hcontentsV1 legacyContents _ ((1 :: legacyContents.serialize).drop 20) hlegacy
      (by decide) (List.take_append_drop ..).symm
  · exact hcontents lanContents [] (savePlaintext lanContents) hlan (by decide) rfl

/-- What was read stays read, whatever follows, and so does an error other than the early end. -/
theorem fromBytes_continued {T : Type} {d : Decoder UInt8 Postcard.Error T}
    (hd : PostcardStreams d) (bs more : Bytes) :
    (∀ value, fromBytes d bs = .ok value → fromBytes d (bs ++ more) = .ok value) ∧
      ∀ e, fromBytes d bs = .error e → e ≠ .deserializeUnexpectedEnd →
        fromBytes d (bs ++ more) = .error e := by
  unfold fromBytes
  cases hbs : d bs with
  | error e =>
      refine ⟨nofun, ?_⟩
      rintro _ ⟨⟩ hother
      rcases hd.fails hbs with hshort | hstays
      · exact absurd hshort hother
      · rw [hstays more]
        rfl
  | ok taken =>
      obtain ⟨value, rest⟩ := taken
      refine ⟨?_, nofun⟩
      rintro _ ⟨⟩
      rw [hd.stays hbs more]
      rfl

/-- What follows a plaintext changes nothing: it is loaded as the same contents, or refused for
the same reason unless that was its early end. -/
theorem plaintext_continued (plain more : Bytes) :
    (∀ c, loadPlaintext plain = .ok c → loadPlaintext (plain ++ more) = .ok c) ∧
      ∀ e, loadPlaintext plain = .error e → plain ≠ [] → e ≠ endedEarly →
        loadPlaintext (plain ++ more) = .error e := by
  cases plain with
  | nil =>
      refine ⟨?_, fun _ _ hne => absurd rfl hne⟩
      rintro _ ⟨⟩
  | cons format payload =>
      rw [List.cons_append, loadPlaintext, loadPlaintext]
      split_ifs with hv1 hv2
      · obtain ⟨hok, herror⟩ := fromBytes_continued streams_contentsV1 payload more
        cases hread : fromBytes KeystoreContentsV1.deserialize payload with
        | ok v =>
            rw [hok v hread]
            exact ⟨fun _ h => h, fun _ h _ _ => h⟩
        | error e =>
            constructor
            · rintro _ ⟨⟩
            · rintro _ ⟨⟩ - hother
              rw [herror e hread fun hshort => hother (congrArg KeystoreError.ofPostcard hshort)]
      · obtain ⟨hok, herror⟩ := fromBytes_continued streams_contents payload more
        cases hread : fromBytes KeystoreContents.deserialize payload with
        | ok c =>
            rw [hok c hread]
            exact ⟨fun _ h => h, fun _ h _ _ => h⟩
        | error e =>
            constructor
            · rintro _ ⟨⟩
            · rintro _ ⟨⟩ - hother
              rw [herror e hread fun hshort => hother (congrArg KeystoreError.ofPostcard hshort)]
      · exact ⟨fun _ h => h, fun _ h _ _ => h⟩

/-- A keystore with more after it is loaded as without, and one of an unknown format is refused
as without. -/
theorem legacy_continued :
    loadPlaintext (1 :: legacyContents.serialize ++ [9, 9]) = .ok (.fromV1 legacyContents) ∧
      loadPlaintext ([3] ++ [9, 9]) = .error (.formatVersion 3 keystoreFormatVersion) :=
  ⟨(plaintext_continued _ _).1 _ (by rfl),
    (plaintext_continued [3] _).2 _ rfl (by decide) (by decide)⟩

end Daemon
end WakeMyPc
