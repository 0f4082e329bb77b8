import WakeMyPc.Daemon.PairingWindow

/-!
# What a pairing window stores

A pairing window writes the keystore file at most once, for the code that it displayed, and
tells a phone that it is paired only after its record has been stored.

Main results:

- Definition `PairingFlow.keystoreAfter`: the keystore file after a history.
- Theorem `PairingFlow.pairing_sound`: what is stored and acknowledged, and when.
-/

namespace WakeMyPc
namespace Daemon
namespace PairingFlow

open Foundations
open Protocol
open Crypto.Lifecycle (Entry Window WindowOpen)

/-! ## The keystore file -/

/-- The keystore file after one more operation: only a save that succeeds changes it. -/
def keystoreStep (file : Option KeystoreContents) : TaskEvent → Option KeystoreContents
  | ⟨.saveFile contents, result⟩ =>
      match (result : Except KeystoreError Unit) with
      | .ok () => some contents
      | .error _ => file
  | _ => file

/-- The keystore file after a history that found `file`. -/
def keystoreAfter (file : Option KeystoreContents) (h : List TaskEvent) :
    Option KeystoreContents :=
  h.foldl keystoreStep file

theorem keystoreStep_of_not_saved (file : Option KeystoreContents) {e : TaskEvent}
    (h : savedBy e = false) : keystoreStep file e = file := by
  obtain ⟨o, r⟩ := e
  cases o with
  | saveFile contents =>
      cases (r : Except KeystoreError Unit) with
      | ok _ => cases h
      | error e => rfl
  | _ => rfl

/-- What stores nothing leaves the file alone. -/
theorem keystoreAfter_append (file : Option KeystoreContents) (front : List TaskEvent)
    {events : List TaskEvent} (h : ∀ e ∈ events, savedBy e = false) :
    keystoreAfter file (front ++ events) = keystoreAfter file front := by
  unfold keystoreAfter
  rw [List.foldl_append]
  generalize front.foldl keystoreStep file = stored
  induction events generalizing stored with
  | nil => rfl
  | cons e events ih =>
      rw [List.foldl_cons, keystoreStep_of_not_saved _ (h e List.mem_cons_self)]
      exact ih (fun x hx => h x (List.mem_cons_of_mem e hx)) stored

/-! ## Histories that fit -/

section Fits

variable {extractSpkiHash : Bytes → Except Crypto.Error SpkiHash} {h events : List TaskEvent}

/-- Every operation of a history fits what comes before it. -/
def Fits (extractSpkiHash : Bytes → Except Crypto.Error SpkiHash) (events : List TaskEvent) :
    Prop :=
  ∀ front e back, events = front ++ e :: back → PairOp extractSpkiHash front e.op

theorem fits_of_performs {draws rounds reads : ℕ}
    (hrun : (run extractSpkiHash draws rounds reads).Performs events) :
    Fits extractSpkiHash events :=
  fun front e back heq => (run_pairs draws rounds reads).performs hrun front e back heq

theorem Fits.front {back : List TaskEvent} (hfits : Fits extractSpkiHash (h ++ back)) :
    Fits extractSpkiHash h := by
  rintro front e rest rfl
  exact hfits front e (rest ++ back) (by simp)

theorem Unsaved.countP_isSave (hunsaved : Unsaved h) : h.countP (·.op.isSave) = 0 := by
  rw [List.countP_eq_zero]
  intro e he
  simp [Op.not_isSave_of_not_concludes (hunsaved e he)]

/-- Nothing is saved twice. -/
theorem Fits.countP_isSave_le (hfits : Fits extractSpkiHash events) :
    events.countP (·.op.isSave) ≤ 1 := by
  induction events using List.reverseRecOn with
  | nil => simp
  | append_singleton h e ih =>
      rw [List.countP_append]
      by_cases hsave : e.op.isSave = true
      · obtain ⟨o, r⟩ := e
        have hnone : h.countP (·.op.isSave) = 0 := by
          cases o with
          | saveFile contents =>
              obtain ⟨front, now, -, -, -, -, rfl, hunsaved, -⟩ := hfits h _ [] rfl
              exact (hunsaved.concat (e := ⟨.clock, now⟩) id).countP_isSave
          | _ => cases hsave
        rw [hnone, List.countP_singleton, if_pos hsave]
      · rw [List.countP_singleton, if_neg hsave]
        exact ih hfits.front

theorem savedLast_of_acceptedLast (hlast : acceptedLast h = true) : savedLast h = false := by
  induction h using List.reverseRecOn with
  | nil => rfl
  | append_singleton h e =>
      rw [acceptedLast_concat] at hlast
      rw [savedLast_concat]
      obtain ⟨o, r⟩ := e
      cases o <;> first | rfl | cases hlast

theorem eq_concat_of_savedLast (hlast : savedLast h = true) :
    ∃ front contents, h = front ++ [⟨.saveFile contents, Except.ok ()⟩] := by
  induction h using List.reverseRecOn with
  | nil => cases hlast
  | append_singleton h e =>
      rw [savedLast_concat] at hlast
      obtain ⟨o, r⟩ := e
      cases o with
      | saveFile contents =>
          cases (r : Except KeystoreError Unit) with
          | ok _ => exact ⟨h, contents, rfl⟩
          | error e => cases hlast
      | _ => cases hlast

/-- Right after a save that succeeded comes its acknowledgement. -/
theorem isAck_of_savedLast {o : Op} (hop : PairOp extractSpkiHash h o)
    (hlast : savedLast h = true) : ∃ bytes, o = .send bytes ∧ IsAck bytes := by
  cases o with
  | send bytes => exact ⟨bytes, rfl, hop.2.mpr hlast⟩
  | saveFile contents =>
      obtain ⟨front, now, -, -, -, -, rfl, -⟩ := hop
      rw [savedLast_concat] at hlast
      cases hlast
  | handshake mode =>
      rw [savedLast_of_acceptedLast hop.2.1] at hlast
      cases hlast
  | _ =>
      rw [hop.1] at hlast
      cases hlast

theorem savedLast_of_ended {result : Except PairError Unit} (hended : Ended h result) :
    savedLast h = false := by
  cases result with
  | error e => exact hended.1.1
  | ok _ =>
      obtain ⟨front, contents, bytes, closed, -, -, rfl⟩ := hended
      simp [savedLast, savedBy]

/-- The event is the write of an acknowledgement. -/
def SendsAck (e : TaskEvent) : Prop :=
  ∃ bytes, e.op = .send bytes ∧ IsAck bytes

/-- A part of a run is over: the next TLS handshake comes, or the run has returned. -/
def Over (extractSpkiHash : Bytes → Except Crypto.Error SpkiHash) (draws rounds reads : ℕ)
    (h back : List TaskEvent) : Prop :=
  (∃ mode result rest, back = ⟨.handshake mode, result⟩ :: rest) ∨
    (back = [] ∧ ∃ result, (run extractSpkiHash draws rounds reads).Trace h result)

/-- A part of a run without an acknowledgement stores nothing. -/
theorem not_savedBy_of_over {draws rounds reads : ℕ} {front part back : List TaskEvent}
    (hfits : Fits extractSpkiHash (front ++ part ++ back))
    (hover : Over extractSpkiHash draws rounds reads (front ++ part) back)
    (hacks : ∀ e ∈ part, ¬ SendsAck e) : ∀ e ∈ part, savedBy e = false := by
  intro e he
  by_contra hsaved
  rw [Bool.not_eq_false] at hsaved
  obtain ⟨earlier, later, rfl⟩ := List.append_of_mem he
  have hlast : savedLast (front ++ earlier ++ [e]) = true := by rwa [savedLast_concat]
  cases later with
  | cons x later =>
      have hop := hfits (front ++ earlier ++ [e]) x (later ++ back) (by simp)
      exact hacks x (by simp) (isAck_of_savedLast hop hlast)
  | nil =>
      rw [← List.append_assoc] at hover hfits
      rcases hover with ⟨mode, result, rest, rfl⟩ | ⟨rfl, result, htrace⟩
      · obtain ⟨bytes, hsend, -⟩ := isAck_of_savedLast (hfits _ _ rest rfl) hlast
        cases hsend
      · have hended := savedLast_of_ended ((run_pairs draws rounds reads).trace htrace)
        rw [List.nil_append, hlast] at hended
        cases hended

/-- What was saved stays in the file. -/
theorem keystoreAfter_saved {front back : List TaskEvent} {contents : KeystoreContents}
    (hfits : Fits extractSpkiHash (front ++ ⟨.saveFile contents, Except.ok ()⟩ :: back))
    (file : Option KeystoreContents) :
    keystoreAfter file (front ++ ⟨.saveFile contents, Except.ok ()⟩ :: back) = some contents := by
  have hle := hfits.countP_isSave_le
  rw [List.countP_append, List.countP_cons_of_pos rfl] at hle
  have hnone : back.countP (·.op.isSave) = 0 := by omega
  have hkeep : ∀ e ∈ back, savedBy e = false := by
    intro e he
    have hsave := List.countP_eq_zero.mp hnone e he
    exact savedBy_of_not_isSave (Bool.eq_false_of_not_eq_true hsave)
  rw [← List.singleton_append, ← List.append_assoc, keystoreAfter_append _ _ hkeep, keystoreAfter,
    List.foldl_append]
  rfl

/-- In every run, with every answer of the phones and of the file system, the keystore is
saved at most once; a save is for an offer of the code that was displayed, made before the end
of the window and after fewer wrong offers than the limit, and stores the copy without the
records of the TLS peer and with one fresh record of it; an acknowledgement follows the save
that stored the record of its peer; and a part of the run without an acknowledgement leaves
the file as it was. -/
theorem pairing_sound (extractSpkiHash : Bytes → Except Crypto.Error SpkiHash)
    (draws rounds reads : ℕ) (file : Option KeystoreContents) {events : List TaskEvent}
    (hrun : (run extractSpkiHash draws rounds reads).Performs events) :
    events.countP (·.op.isSave) ≤ 1 ∧
    (∀ front contents saved back, events = front ++ ⟨.saveFile contents, saved⟩ :: back →
      (∃ before now copy w since phoneName peerSpki record,
        front = before ++ [⟨.clock, now⟩] ∧ copyOf before = some copy ∧
        peerOf extractSpkiHash (seen extractSpkiHash before).connection = some peerSpki ∧
        messageOf (seen extractSpkiHash before).connection = some (.pair phoneName w.code) ∧
        Displays (seen extractSpkiHash before) w ∧
        WindowOpen (seen extractSpkiHash before).played.log w since ∧
        now < w.expiresAtUnixMs ∧
        since.countP (Entry.wrongFor w) < Crypto.maxPairingAttempts.toNat ∧
        record.clientSpki = peerSpki ∧ record.revoked = false ∧ record.pairedAtUnixMs = now ∧
        contents = { copy with
          pairings := (copy.pairings.filter fun p => p.clientSpki != peerSpki) ++ [record] }) ∧
      (saved = Except.ok () → keystoreAfter file events = some contents)) ∧
    (∀ front e back, events = front ++ e :: back → SendsAck e →
      ∃ before contents record, front = before ++ [⟨.saveFile contents, Except.ok ()⟩] ∧
        record ∈ contents.pairings ∧
        peerOf extractSpkiHash (seen extractSpkiHash front).connection =
          some record.clientSpki) ∧
    (∀ front part back, events = front ++ part ++ back →
      Over extractSpkiHash draws rounds reads (front ++ part) back →
      (∀ e ∈ part, ¬ SendsAck e) →
        keystoreAfter file (front ++ part) = keystoreAfter file front) := by
  have hfits := fits_of_performs hrun
  refine ⟨hfits.countP_isSave_le, ?_, ?_, ?_⟩
  · rintro front contents saved back rfl
    refine ⟨?_, ?_⟩
    · obtain ⟨before, now, offer, copy, w, since, rfl, -, hoffer, hwindow, hcode, hopen, hfew,
        hcopy, rfl⟩ := hfits front _ back rfl
      obtain ⟨hpeer, hmessage⟩ := peer_of_offer hoffer
      rw [hcode] at hmessage
      exact ⟨before, now, copy, w, since, offer.phoneName, offer.clientSpki, offer.record now, rfl,
        hcopy, hpeer, hmessage, displays_seen before hwindow.1, hwindow, hopen, hfew, rfl, rfl, rfl,
        rfl⟩
    · rintro rfl
      exact keystoreAfter_saved hfits file
  · rintro front e back rfl ⟨bytes, hsend, hack⟩
    have hop := hfits front e back rfl
    rw [hsend] at hop
    obtain ⟨before, contents, rfl⟩ := eq_concat_of_savedLast (hop.2.mp hack)
    obtain ⟨earlier, now, offer, copy, -, -, rfl, -, hoffer, -, -, -, -, -, rfl⟩ :=
      hfits before ⟨.saveFile contents, Except.ok ()⟩ (e :: back) (by simp)
    refine ⟨_, _, offer.record now, rfl, List.mem_append_right _ List.mem_cons_self, ?_⟩
    rw [connection_concat _ rfl, connection_concat _ rfl]
    exact peerOf_append (peerOf_append (peer_of_offer hoffer).1 _) _
  · rintro front part back rfl hover hacks
    exact keystoreAfter_append file front (not_savedBy_of_over hfits hover hacks)

end Fits

/-! ## A phone that offers the code -/

/-- The bytes of an offer of the code zero. -/
def offerBytes : Bytes :=
  let payload := ClientFrame.format.encode (.pair livePairing.phoneName 0)
  (encodeEnvelope ⟨protocolVersion, 1, payload⟩).toOption.getD []

/-- So many connections of a phone that offers the code zero, to a window that displays it. -/
def offering (nowMs : UInt64) (saved : Except KeystoreError Unit) (sent : Except IoError Unit)
    (left : ℕ) (o : Op) : Ans o × ℕ :=
  match o with
  | .clock => (nowMs, left)
  | .load => (Except.ok none, left)
  | .acceptTcp =>
      match left with
      | 0 => (none, 0)
      | left + 1 => (some (Except.ok ()), left)
  | .recv => (Except.ok offerBytes, left)
  | .saveFile _ => (saved, left)
  | .send _ => (sent, left)
  | o => (succeeding pairedContents o, left)

/-- The phone offers the code that was displayed, while its window is open: its record is the
only one that is saved, the acknowledgement follows, and nothing is stored before the phone
connects. -/
theorem phone_pairs :
    ∃ front contents sent back events, events = front ++ ⟨.saveFile contents, Except.ok ()⟩ ::
        sent :: back ∧
      (run (fun _ => .ok phoneKey) 1 2 2).Trace events (.ok ()) ∧ SendsAck sent ∧
      events.countP (·.op.isSave) ≤ 1 ∧ keystoreAfter none events = some contents ∧
      (∃ before now w since, front = before ++ [⟨.clock, now⟩] ∧
        Displays (seen (fun _ => .ok phoneKey) before) w ∧
        WindowOpen (seen (fun _ => .ok phoneKey) before).played.log w since ∧
        now < w.expiresAtUnixMs) ∧
      (∃ record ∈ contents.pairings, record.clientSpki = phoneKey) ∧
      keystoreAfter none (events.take 9) = none := by
  let out := (run (fun _ => .ok phoneKey) 1 2 2).exec (answering (offering 0 (.ok ()) (.ok ()))) 1
  have hvalue : out.value = some (.ok ()) := by rfl
  have htrace := Prog.exec_trace _ _ hvalue
  obtain ⟨contents, sent, hevents, hack⟩ : ∃ contents sent,
      out.events = out.events.take 13 ++ ⟨.saveFile contents, Except.ok ()⟩ :: sent ::
        out.events.drop 15 ∧ SendsAck sent :=
    ⟨_, _, by rfl, _, rfl, 1, 1, by rfl⟩
  obtain ⟨honce, hsave, hacked, hparts⟩ :=
    pairing_sound (fun _ => .ok phoneKey) 1 2 2 none htrace.performs
  obtain ⟨⟨before, now, copy, w, since, phoneName, peerSpki, record, hclock, -, -, -, hdisplays,
    hwindow, hopen, -⟩, hstored⟩ := hsave _ contents _ _ hevents
  obtain ⟨before', contents', record', hbefore, hrecord, hpeer⟩ :=
    hacked (out.events.take 13 ++ [⟨.saveFile contents, Except.ok ()⟩]) sent (out.events.drop 15)
      (hevents.trans (by simp)) hack
  cases List.append_inj_right' hbefore rfl
  have hpaired : peerOf (fun _ => .ok phoneKey)
      (seen (fun _ => .ok phoneKey) (out.events.take 14)).connection = some phoneKey := by rfl
  have hquiet : (out.events.take 9).all (fun e => !e.op.isSend) = true := by rfl
  have hnone := hparts [] (out.events.take 9) (out.events.drop 9) (by rfl)
    (.inl ⟨_, _, out.events.drop 10, by rfl⟩) (by
      rintro ⟨o, answer⟩ he ⟨bytes, rfl, -⟩
      cases List.all_eq_true.mp hquiet _ he)
  exact ⟨_, contents, sent, _, out.events, hevents, htrace, hack, honce, hstored rfl,
    ⟨before, now, w, since, hclock, hdisplays, hwindow, hopen⟩,
    ⟨record', hrecord, (Option.some.inj (hpaired.symm.trans hpeer)).symm⟩, hnone⟩

end PairingFlow
end Daemon
end WakeMyPc
