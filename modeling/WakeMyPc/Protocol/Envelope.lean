import WakeMyPc.Protocol.Message

/-!
# Length-prefixed envelopes

Each direction of a connection is a sequence of frames: a four-byte length, the
version byte, the eight-byte nonce and the payload.

Main results:

- Theorem `encodeEnvelope_ok`: an envelope of at most `maxFrameLen` bytes is
  written as its length, version, nonce and payload.
- Theorem `decodeEnvelope_eq`: the verdict on a buffer in terms of its length,
  its declared length and its version byte.
- Theorem `decodeEnvelope_wireBytes`: a written envelope is read back in front of
  any bytes.
-/

namespace WakeMyPc
namespace Protocol

open Foundations

/-! ## Definitions -/

/-- The protocol version byte. -/
def protocolVersion : UInt8 := 0x01

/-- Bytes of the version and the nonce. -/
def envelopeHeaderLen : ℕ := 1 + 8

/-- The smallest legal envelope. -/
def minFrameLen : ℕ := envelopeHeaderLen + 1

/-- The largest legal envelope. -/
def maxFrameLen : ℕ := 65536

/-- Bytes of the length prefix. -/
def lengthPrefixLen : ℕ := 4

/-- An envelope with its payload still encoded. -/
structure Envelope where
  version : UInt8
  nonce : UInt64
  payload : Bytes
deriving DecidableEq

/-- A parse of the front of a buffer that is not an error. -/
inductive DecodeOutcome where
  | frame (envelope : Envelope) (remainder : Bytes)
  | incomplete
deriving DecidableEq

/-- Encode an envelope as its wire bytes. -/
def encodeEnvelope (env : Envelope) : Except Error Bytes := do
  let some envLen := usizeCheckedAdd envelopeHeaderLen env.payload.length
    | throw .lengthOverflow
  if envLen > maxFrameLen then
    throw (.oversizedFrame envLen maxFrameLen)
  let some lenField := u32TryFrom envLen
    | throw .lengthOverflow
  return beBytes 4 lenField.toNat ++ [env.version] ++ beBytes 8 env.nonce.toNat ++ env.payload

/-- Try to parse one envelope from the head of a buffer. -/
def decodeEnvelope (buf : Bytes) : Except Error DecodeOutcome := do
  let some lenBytes := firstChunk 4 buf
    | return .incomplete
  let envLen := beValue lenBytes
  if envLen < minFrameLen then
    throw (.undersizedFrame envLen minFrameLen)
  if envLen > maxFrameLen then
    throw (.oversizedFrame envLen maxFrameLen)
  let some totalNeeded := usizeCheckedAdd lengthPrefixLen envLen
    | throw .lengthOverflow
  if buf.length < totalNeeded then
    return .incomplete
  let some envelopeBytes := getRange buf lengthPrefixLen totalNeeded
    | throw .lengthOverflow
  let some version := envelopeBytes.head?
    | throw (.undersizedFrame envLen minFrameLen)
  if version ≠ protocolVersion then
    throw (.versionMismatch version protocolVersion)
  let some nonceBytes := getRange envelopeBytes 1 9
    | throw (.undersizedFrame envLen minFrameLen)
  let nonce := UInt64.ofNat (beValue nonceBytes)
  let some payload := getFrom envelopeBytes envelopeHeaderLen
    | throw (.undersizedFrame envLen minFrameLen)
  let remainder := (getFrom buf totalNeeded).getD []
  return .frame ⟨version, nonce, payload⟩ remainder

/-! ## Encoding -/

/-- The wire bytes of an envelope that is not too long. -/
def wireBytes (env : Envelope) : Bytes :=
  beBytes 4 (envelopeHeaderLen + env.payload.length) ++ [env.version] ++
    beBytes 8 env.nonce.toNat ++ env.payload

theorem length_wireBytes (env : Envelope) :
    (wireBytes env).length = lengthPrefixLen + (envelopeHeaderLen + env.payload.length) := by
  simp only [wireBytes, List.length_append, length_beBytes, List.length_singleton,
    lengthPrefixLen, envelopeHeaderLen]
  omega

/-- An envelope of at most `maxFrameLen` bytes is written as its length,
version, nonce and payload. -/
theorem encodeEnvelope_ok {env : Envelope}
    (h : envelopeHeaderLen + env.payload.length ≤ maxFrameLen) :
    encodeEnvelope env = .ok (wireBytes env) := by
  have hmax : maxFrameLen = 65536 := rfl
  have hadd : usizeCheckedAdd envelopeHeaderLen env.payload.length =
      some (envelopeHeaderLen + env.payload.length) := if_pos (by omega)
  have hfield : u32TryFrom (envelopeHeaderLen + env.payload.length) =
      some (UInt32.ofNat (envelopeHeaderLen + env.payload.length)) := if_pos (by omega)
  have hback : (UInt32.ofNat (envelopeHeaderLen + env.payload.length)).toNat =
      envelopeHeaderLen + env.payload.length := by
    rw [UInt32.toNat_ofNat']
    omega
  simp only [encodeEnvelope, hadd, hfield, hback, gt_iff_lt, if_neg (Nat.not_lt.mpr h)]
  rfl

/-- A longer envelope is refused, as long as its length is a `usize`. -/
theorem encodeEnvelope_oversized {env : Envelope}
    (h : maxFrameLen < envelopeHeaderLen + env.payload.length)
    (husize : envelopeHeaderLen + env.payload.length < 2 ^ 64) :
    encodeEnvelope env =
      .error (.oversizedFrame (envelopeHeaderLen + env.payload.length) maxFrameLen) := by
  have hadd : usizeCheckedAdd envelopeHeaderLen env.payload.length =
      some (envelopeHeaderLen + env.payload.length) := if_pos husize
  simp only [encodeEnvelope, hadd, gt_iff_lt, if_pos h]
  rfl

/-! ## Decoding -/

/-- The length that a buffer of at least four bytes declares. -/
def declaredLen (buf : Bytes) : ℕ :=
  beValue (buf.take lengthPrefixLen)

/-- The frame at the head of a buffer that holds all of it. -/
def headFrame (buf : Bytes) : Envelope where
  version := protocolVersion
  nonce := UInt64.ofNat (beValue ((buf.drop 5).take 8))
  payload := (buf.drop 13).take (declaredLen buf - envelopeHeaderLen)

/-- The version byte of a buffer that is long enough to hold it. -/
def versionByte (buf : Bytes) : UInt8 :=
  buf.getD lengthPrefixLen 0

/-- A buffer that holds a whole frame has its version byte, nonce and payload
where the parser looks for them. -/
private theorem envelopeBytes_parts {buf : Bytes} (hmin : minFrameLen ≤ declaredLen buf)
    (hlen : lengthPrefixLen + declaredLen buf ≤ buf.length) :
    let total := lengthPrefixLen + declaredLen buf
    let envelopeBytes := (buf.take total).drop lengthPrefixLen
    envelopeBytes.head? = some (versionByte buf) ∧
      getRange envelopeBytes 1 9 = some ((buf.drop 5).take 8) ∧
      getFrom envelopeBytes envelopeHeaderLen =
        some ((buf.drop 13).take (declaredLen buf - envelopeHeaderLen)) := by
  intro total envelopeBytes
  simp only [minFrameLen, envelopeHeaderLen, lengthPrefixLen] at hmin hlen
  have htotal : total = 4 + declaredLen buf := rfl
  have hlength : envelopeBytes.length = declaredLen buf := by
    simp only [envelopeBytes, List.length_drop, List.length_take, lengthPrefixLen]
    omega
  refine ⟨?_, ?_, ?_⟩
  · have h4 : 4 < buf.length := by omega
    rw [List.head?_drop, List.getElem?_take_of_lt (by simp only [lengthPrefixLen]; omega)]
    simp only [versionByte, lengthPrefixLen, List.getD_eq_getElem?_getD,
      List.getElem?_eq_getElem h4, Option.getD_some]
  · rw [getRange, if_pos (by omega)]
    simp only [envelopeBytes, lengthPrefixLen, List.drop_take, List.drop_drop, List.take_take]
    rw [Nat.min_eq_left (by omega)]
  · rw [getFrom, if_pos (by simp only [envelopeHeaderLen]; omega)]
    simp only [envelopeBytes, lengthPrefixLen, envelopeHeaderLen, List.drop_take, List.drop_drop]
    rw [show total - 4 - (1 + 8) = declaredLen buf - (1 + 8) by omega]

/-- The verdict on a buffer in terms of its length, its declared length and its
version byte. -/
theorem decodeEnvelope_eq (buf : Bytes) :
    decodeEnvelope buf =
      if buf.length < lengthPrefixLen then .ok .incomplete
      else if declaredLen buf < minFrameLen then
        .error (.undersizedFrame (declaredLen buf) minFrameLen)
      else if declaredLen buf > maxFrameLen then
        .error (.oversizedFrame (declaredLen buf) maxFrameLen)
      else if buf.length < lengthPrefixLen + declaredLen buf then .ok .incomplete
      else if versionByte buf ≠ protocolVersion then
        .error (.versionMismatch (versionByte buf) protocolVersion)
      else .ok (.frame (headFrame buf) (buf.drop (lengthPrefixLen + declaredLen buf))) := by
  by_cases hfront : buf.length < lengthPrefixLen
  · have hchunk : firstChunk 4 buf = none := if_neg (Nat.not_le.mpr hfront)
    simp only [decodeEnvelope, hchunk, if_pos hfront]
    rfl
  have hchunk : firstChunk 4 buf = some (buf.take 4) := if_pos (Nat.not_lt.mp hfront)
  have hdeclared : beValue (buf.take 4) = declaredLen buf := rfl
  simp only [decodeEnvelope, hchunk, hdeclared, if_neg hfront]
  change (if declaredLen buf < minFrameLen then _ else _) = _
  by_cases hmin : declaredLen buf < minFrameLen
  · rw [if_pos hmin, if_pos hmin]
    rfl
  rw [if_neg hmin, if_neg hmin]
  by_cases hmax : declaredLen buf > maxFrameLen
  · rw [if_pos hmax, if_pos hmax]
    rfl
  rw [if_neg hmax, if_neg hmax]
  have hadd : usizeCheckedAdd lengthPrefixLen (declaredLen buf) =
      some (lengthPrefixLen + declaredLen buf) := by
    apply if_pos
    simp only [lengthPrefixLen, maxFrameLen] at hmax ⊢
    omega
  simp only [hadd]
  change (if buf.length < lengthPrefixLen + declaredLen buf then _ else _) = _
  by_cases hshort : buf.length < lengthPrefixLen + declaredLen buf
  · rw [if_pos hshort, if_pos hshort]
    rfl
  rw [if_neg hshort, if_neg hshort]
  have hrange : getRange buf lengthPrefixLen (lengthPrefixLen + declaredLen buf) =
      some ((buf.take (lengthPrefixLen + declaredLen buf)).drop lengthPrefixLen) :=
    if_pos ⟨Nat.le_add_right _ _, Nat.not_lt.mp hshort⟩
  have hrest : getFrom buf (lengthPrefixLen + declaredLen buf) =
      some (buf.drop (lengthPrefixLen + declaredLen buf)) := if_pos (Nat.not_lt.mp hshort)
  obtain ⟨hversion, hnonce, hpayload⟩ :=
    envelopeBytes_parts (Nat.not_lt.mp hmin) (Nat.not_lt.mp hshort)
  simp only [hrange, hversion, hnonce, hpayload, hrest]
  change (if versionByte buf ≠ protocolVersion then _ else _) = _
  by_cases hv : versionByte buf = protocolVersion
  · rw [if_neg (not_not.mpr hv), if_neg (not_not.mpr hv), hv]
    rfl
  · rw [if_pos hv, if_pos hv]
    rfl

/-! ## Reading back what was written -/

private theorem declaredLen_wireBytes {env : Envelope} (r : Bytes)
    (h : envelopeHeaderLen + env.payload.length ≤ maxFrameLen) :
    declaredLen (wireBytes env ++ r) = envelopeHeaderLen + env.payload.length := by
  have hfits : envelopeHeaderLen + env.payload.length < 256 ^ 4 := by
    simp only [maxFrameLen] at h
    omega
  simp only [declaredLen, wireBytes, List.append_assoc]
  rw [List.take_left' (by simp [lengthPrefixLen])]
  exact beValue_beBytes hfits

private theorem versionByte_wireBytes (env : Envelope) (r : Bytes) :
    versionByte (wireBytes env ++ r) = env.version := by
  simp [versionByte, wireBytes, lengthPrefixLen]

private theorem headFrame_wireBytes {env : Envelope} (r : Bytes)
    (hversion : env.version = protocolVersion)
    (h : envelopeHeaderLen + env.payload.length ≤ maxFrameLen) :
    headFrame (wireBytes env ++ r) = env := by
  have hnonce : ((wireBytes env ++ r).drop 5).take 8 = beBytes 8 env.nonce.toNat := by
    have hsplit : wireBytes env ++ r =
        (beBytes 4 (envelopeHeaderLen + env.payload.length) ++ [env.version]) ++
          (beBytes 8 env.nonce.toNat ++ (env.payload ++ r)) := by
      simp only [wireBytes, List.append_assoc]
    rw [hsplit, List.drop_left' (by simp), List.take_left' (by simp)]
  have hpayload : ((wireBytes env ++ r).drop 13).take
      (declaredLen (wireBytes env ++ r) - envelopeHeaderLen) = env.payload := by
    have hsplit : wireBytes env ++ r =
        (beBytes 4 (envelopeHeaderLen + env.payload.length) ++ [env.version] ++
          beBytes 8 env.nonce.toNat) ++ (env.payload ++ r) := by
      simp only [wireBytes, List.append_assoc]
    rw [declaredLen_wireBytes r h, hsplit, List.drop_left' (by simp), Nat.add_sub_cancel_left,
      List.take_left' rfl]
  have hfits : env.nonce.toNat < 256 ^ 8 := env.nonce.toNat_lt
  simp only [headFrame, hnonce, hpayload, beValue_beBytes hfits, UInt64.ofNat_toNat, ← hversion]

/-- A written envelope is read back in front of any bytes. -/
theorem decodeEnvelope_wireBytes {env : Envelope} (r : Bytes)
    (hversion : env.version = protocolVersion) (hpos : 0 < env.payload.length)
    (h : envelopeHeaderLen + env.payload.length ≤ maxFrameLen) :
    decodeEnvelope (wireBytes env ++ r) = .ok (.frame env r) := by
  have hlength : (wireBytes env ++ r).length =
      lengthPrefixLen + (envelopeHeaderLen + env.payload.length) + r.length := by
    rw [List.length_append, length_wireBytes]
  have hfront : ¬ (wireBytes env ++ r).length < lengthPrefixLen := by omega
  have hmin : ¬ envelopeHeaderLen + env.payload.length < minFrameLen := by
    simp only [minFrameLen]
    omega
  have hmax : ¬ envelopeHeaderLen + env.payload.length > maxFrameLen := by omega
  have hshort : ¬ (wireBytes env ++ r).length <
      lengthPrefixLen + (envelopeHeaderLen + env.payload.length) := by omega
  have hrest : (wireBytes env ++ r).drop
      (lengthPrefixLen + (envelopeHeaderLen + env.payload.length)) = r :=
    List.drop_left' (length_wireBytes env)
  rw [decodeEnvelope_eq, declaredLen_wireBytes r h, versionByte_wireBytes, hrest,
    headFrame_wireBytes r hversion h, if_neg hfront, if_neg hmin, if_neg hmax, if_neg hshort,
    if_neg (not_not.mpr hversion)]

end Protocol
end WakeMyPc
