import WakeMyPc.Daemon.PhoneNames

/-!
# The addresses of phones

The keystore keeps the address from which each phone last connected.  Nobody but the phone
with a key sets the address for that key, whatever the order in which the connections and
subcommands go on.

Main results:

- Theorem `acceptConnection_records`: a connection records its own address for its own key.
- Theorem `addressesKept_of_steps`: what holds of the addresses of the peers holds of all stored
  addresses.
- Theorem `recorded_addresses`: every stored address was there at first, or its phone connected
  from there, but for the flow information and scope that a save drops.
-/

namespace WakeMyPc
namespace Daemon

open Foundations
open Foundations.Prog (safe_bind safe_loop)
open Protocol
open Crypto (NonceCounter)
open PairingFlow (PairOp)

section Addresses

-- the hash of the public key of a certificate, by the X.509 parser and SHA-256
variable (extractSpkiHash : Bytes → Except Crypto.Error SpkiHash)

/-! ## What a connection records -/

/-- The operation records no address but this one, for the key of the certificates that were
presented. -/
def RecordOp (peerAddr : SocketAddr) (h : List TaskEvent) : Op → Prop
  | .write (.lastKnownAddress peerSpki addr) => addr = peerAddr ∧
      ∃ certs, (⟨.peerCertificates, certs⟩ : TaskEvent) ∈ h ∧
        leafSpki extractSpkiHash certs = .ok peerSpki
  | _ => True

variable {extractSpkiHash} {peerAddr : SocketAddr} {h : List TaskEvent}

theorem save_records : save.Safe (RecordOp extractSpkiHash peerAddr) h fun _ _ => True :=
  ⟨trivial, fun _ => ⟨trivial, fun _ => trivial⟩⟩

/-- A command, or its refusal. -/
private theorem stateChange_records (reauthState : ReauthState) (requestNonce : UInt64) {o : Op}
    (ho : ∀ h, RecordOp extractSpkiHash peerAddr h o)
    (toResult : Ans o → Except OsHandlerError Unit) :
    (stateChange reauthState requestNonce (.call o fun r => .ret (toResult r))).Safe
      (RecordOp extractSpkiHash peerAddr) h fun _ _ => True := by
  unfold stateChange
  split
  · trivial
  · exact ⟨ho h, fun _ => trivial⟩

theorem dispatch_records (peerSpki : SpkiHash) (frame : ClientFrame) (requestNonce : UInt64) :
    (dispatch peerSpki frame requestNonce).Safe (RecordOp extractSpkiHash peerAddr) h
      fun _ _ => True := by
  refine ⟨trivial, fun nowMs => ⟨trivial, fun snap => ?_⟩⟩
  cases frame with
  | pair phoneName pairingCode => trivial
  | sleep => exact stateChange_records _ requestNonce (o := .sleep) (fun _ => trivial) id
  | lock => exact stateChange_records _ requestNonce (o := .lock) (fun _ => trivial) id
  | powerOff => exact stateChange_records _ requestNonce (o := .powerOff) (fun _ => trivial) id
  | stateProbe =>
      refine ⟨trivial, fun result => ?_⟩
      cases result <;> trivial
  | reauthStatus => trivial
  | reauthConfig interval =>
      refine ⟨trivial, fun _ => (safe_bind save _ _ _).mpr (save_records.mono ?_)⟩
      intro _ result _
      cases result <;> trivial
  | revokeAck =>
      refine ⟨trivial, fun (removed : ℕ) => ?_⟩
      change (if removed > 0 then _ else _ : Task DaemonFrame).Safe _ _ _
      split
      · exact (safe_bind save _ _ _).mpr (save_records.mono fun _ _ _ => trivial)
      · trivial

theorem readEnvelope_records (reads : ℕ) (buf : Bytes) :
    (readEnvelope reads buf).Safe (RecordOp extractSpkiHash peerAddr) h fun _ _ => True := by
  refine safe_loop (fun _ (_ : Bytes) => True) ?_ reads trivial
  intro h buf _
  unfold readEnvelopeRound
  split
  · trivial
  · trivial
  · refine ⟨trivial, fun result => ?_⟩
    cases result with
    | error e => trivial
    | ok chunk =>
        change (if _ then _ else _ : Task _).Safe _ _ _
        split_ifs <;> trivial

theorem writeFrame_records (nonces : NonceCounter) (frame : DaemonFrame) :
    (writeFrame nonces frame).Safe (RecordOp extractSpkiHash peerAddr) h fun _ _ => True := by
  unfold writeFrame
  split
  · trivial
  · split
    · trivial
    · split
      · trivial
      · refine ⟨trivial, fun result => ?_⟩
        cases result <;> trivial

theorem sendErrorAndClose_records (requestNonce : UInt64) (code : ProtocolError) :
    (sendErrorAndClose requestNonce code).Safe (RecordOp extractSpkiHash peerAddr) h
      fun _ _ => True := by
  unfold sendErrorAndClose
  split
  · trivial
  · split
    · trivial
    · exact ⟨trivial, fun _ => ⟨trivial, fun _ => trivial⟩⟩

theorem serveEnvelope_records (peerSpki : SpkiHash) (s : LoopState) (envelope : Envelope) :
    (serveEnvelope peerSpki s envelope).Safe (RecordOp extractSpkiHash peerAddr) h
      fun _ _ => True := by
  unfold serveEnvelope
  split
  · exact (safe_bind _ _ _ _).mpr ((sendErrorAndClose_records _ _).mono fun _ _ _ => trivial)
  · split
    · exact (safe_bind _ _ _ _).mpr ((sendErrorAndClose_records _ _).mono fun _ _ _ => trivial)
    · refine (safe_bind _ _ _ _).mpr ((dispatch_records peerSpki _ _).mono ?_)
      intro h₁ response _
      refine (safe_bind _ _ _ _).mpr ((writeFrame_records _ response).mono ?_)
      rintro h₂ ⟨written, nonces⟩ _
      cases written with
      | error e => trivial
      | ok written =>
          change (if _ then _ else _ : Task _).Safe _ _ _
          split_ifs
          · trivial
          · exact ⟨trivial, fun _ => trivial⟩
          · trivial

theorem protocolLoop_records (rounds reads : ℕ) (peerSpki : SpkiHash) :
    (protocolLoop rounds reads peerSpki).Safe (RecordOp extractSpkiHash peerAddr) h
      fun _ _ => True := by
  refine safe_loop (fun _ (_ : LoopState) => True) ?_ rounds trivial
  intro h s _
  refine (safe_bind _ _ _ _).mpr ((readEnvelope_records reads s.buf).mono ?_)
  intro h' result _
  rcases result with e | ⟨_ | envelope, rest⟩
  · trivial
  · trivial
  · refine (serveEnvelope_records peerSpki { s with buf := rest } envelope).mono ?_
    intro h'' result _
    cases result <;> trivial

theorem recordAddress_records {peerSpki : SpkiHash} {certs : Option (List Bytes)}
    (hcerts : (⟨.peerCertificates, certs⟩ : TaskEvent) ∈ h)
    (hleaf : leafSpki extractSpkiHash certs = .ok peerSpki) :
    (recordAddress peerSpki peerAddr).Safe (RecordOp extractSpkiHash peerAddr) h
      fun _ _ => True := by
  refine ⟨⟨rfl, certs, hcerts, hleaf⟩, fun (changed : Bool) => ?_⟩
  cases changed with
  | false => trivial
  | true =>
      change (save >>= fun _ => return () : Task Unit).Safe _ _ _
      exact (safe_bind _ _ _ _).mpr (save_records.mono fun _ _ _ => trivial)

/-- The task after the TLS handshake. -/
theorem run_records (rounds reads : ℕ) :
    (run extractSpkiHash rounds reads peerAddr).Safe (RecordOp extractSpkiHash peerAddr) h
      fun _ _ => True := by
  have hleaf : (peerSpkiFromTls extractSpkiHash).Safe (RecordOp extractSpkiHash peerAddr) h
      fun h' result => ∃ certs, (⟨.peerCertificates, certs⟩ : TaskEvent) ∈ h' ∧
        leafSpki extractSpkiHash certs = result :=
    ⟨trivial, fun certs => ⟨certs, List.mem_append_right _ List.mem_cons_self, rfl⟩⟩
  refine (safe_bind _ _ _ _).mpr (hleaf.mono ?_)
  rintro h₁ result ⟨certs, hcerts, hleaf⟩
  cases result with
  | error e => trivial
  | ok peerSpki =>
      refine ⟨trivial, fun checked => ?_⟩
      change (if _ then _ else _ : Task _).Safe _ _ _
      split
      · refine (safe_bind _ _ _ _).mpr ((recordAddress_records
          (List.mem_append_left [⟨.snapshot, checked⟩] hcerts) hleaf).mono fun _ _ _ => ?_)
        exact protocolLoop_records rounds reads peerSpki
      · exact sendErrorAndClose_records 0 .revoked

/-- A connection records its own address, for the key of its own certificate. -/
theorem acceptConnection_records (rounds reads : ℕ) :
    (acceptConnection extractSpkiHash rounds reads peerAddr).Safe
      (RecordOp extractSpkiHash peerAddr) [] fun _ _ => True := by
  refine ⟨trivial, fun pinned => ⟨trivial, fun result => ?_⟩⟩
  cases result with
  | error e => trivial
  | ok _ => exact run_records rounds reads

/-! ## Stored addresses -/

section Stored

variable {P : SpkiHash → SocketAddr → Prop}

/-- The addresses of all records satisfy `P`. -/
def Addresses (P : SpkiHash → SocketAddr → Prop) (c : KeystoreContents) : Prop :=
  ∀ p ∈ c.pairings, ∀ addr, p.lastKnownAddress = some addr → P p.clientSpki addr

theorem addresses_fromIdentity (identity : DeviceIdentityBytes) :
    Addresses P (.fromIdentity identity) :=
  fun p hp => by cases hp

theorem mem_setLastKnownAddress_cases {peerSpki : SpkiHash} {ps : List PairingRecord}
    {q : PairingRecord} (hq : q ∈ (setLastKnownAddress peerSpki peerAddr ps).2) :
    q ∈ ps ∨ (q.clientSpki = peerSpki ∧ q.lastKnownAddress = some peerAddr) := by
  induction ps with
  | nil => cases hq
  | cons p ps ih =>
      simp only [setLastKnownAddress] at hq
      split at hq
      · next hset =>
          rcases List.mem_cons.mp hq with rfl | hq
          · exact .inr ⟨hset.1, rfl⟩
          · exact .inl (List.mem_cons_of_mem p hq)
      · rcases List.mem_cons.mp hq with rfl | hq
        · exact .inl List.mem_cons_self
        · exact (ih hq).imp_left (List.mem_cons_of_mem p)

/-- What is read back has the addresses without flow information and scope. -/
theorem addresses_reloaded (hreloaded : ∀ spki addr, P spki addr → P spki addr.reloaded)
    {c : KeystoreContents} (hc : Addresses P c) : Addresses P c.reloaded := by
  intro p hp addr haddr
  obtain ⟨q, hq, rfl⟩ := List.mem_map.mp hp
  obtain ⟨addr', haddr', rfl⟩ := Option.map_eq_some_iff.mp haddr
  exact hreloaded _ addr' (hc q hq addr' haddr')

/-- Only an address that is recorded is new. -/
theorem addresses_update {c : KeystoreContents} (hc : Addresses P c) {u : Update}
    (hrecord : ∀ peerSpki addr, u = .lastKnownAddress peerSpki addr → P peerSpki addr) :
    Addresses P (u.apply c) := by
  cases u with
  | lastKnownAddress peerSpki peerAddr =>
      intro q hq addr haddr
      rcases mem_setLastKnownAddress_cases hq with hold | ⟨rfl, hset⟩
      · exact hc q hold addr haddr
      · obtain rfl := Option.some.inj (hset.symm.trans haddr)
        exact hrecord _ _ rfl
  | reauthInterval newDays => exact hc
  | removeRevoked peerSpki => exact fun p hp => hc p (List.mem_filter.mp hp).1

/-- A change of a subcommand brings no address. -/
theorem addresses_change (change : Change) {c : KeystoreContents} (hc : Addresses P c)
    (hpair : ∀ new, change = .pair new → new.lastKnownAddress = none) :
    Addresses P (change.apply c) := by
  cases change with
  | revoke phoneName =>
      intro q hq addr haddr
      obtain ⟨p, hp, rfl⟩ := List.mem_map.mp hq
      split at haddr <;> split <;> exact hc p hp addr haddr
  | reauthNow nowMs => exact hc
  | revokeAll =>
      intro q hq addr haddr
      obtain ⟨p, hp, rfl⟩ := List.mem_map.mp hq
      exact hc p hp addr haddr
  | pair new =>
      intro q hq addr haddr
      rcases List.mem_append.mp hq with hold | hnew
      · exact hc q (List.mem_filter.mp hold).1 addr haddr
      · obtain rfl := List.mem_singleton.mp hnew
        rw [hpair _ rfl] at haddr
        cases haddr

variable (extractSpkiHash) in
/-- The file, all copies of it and what connections may record satisfy `P`. -/
structure AddressesKept (P : SpkiHash → SocketAddr → Prop) (h : Host) : Prop where
  hold : AllHold extractSpkiHash (Addresses P) h
  pairs : ∀ t ∈ h.threads, PairThread extractSpkiHash t
  connections : ∀ t ∈ h.threads, ∀ certs addr rounds reads,
    t.kind = .connection certs addr rounds reads →
      t.Keeps (RecordOp extractSpkiHash addr) ∧
        ∀ spki, leafSpki extractSpkiHash (some certs) = .ok spki → P spki addr

variable (extractSpkiHash P) in
/-- A peer that is accepted may have its address recorded. -/
def PeerFits : Action → Prop
  | .accept certs addr _ _ => ∀ spki, leafSpki extractSpkiHash (some certs) = .ok spki → P spki addr
  | _ => True

/-- What a connection is about to record satisfies `P`. -/
theorem recorded_fits {h : Host} (hkept : AddressesKept extractSpkiHash P h) {t : DaemonThread}
    (ht : t ∈ h.threads) {peerSpki : SpkiHash} {addr : SocketAddr}
    (hnext : t.next = some (.write (.lastKnownAddress peerSpki addr))) : P peerSpki addr := by
  have hkeeps := (hkept.hold.threads t ht).1
  unfold ThreadKeeps at hkeeps
  cases hkind : t.kind with
  | connection certs peerAddr rounds reads =>
      simp only [hkind] at hkeeps
      obtain ⟨hrecords, hpeer⟩ := hkept.connections t ht certs peerAddr rounds reads hkind
      obtain ⟨rfl, presented, hpresented, hleaf⟩ := hrecords.next hnext
      have hown : presented = some certs := hkeeps.fromPeer _ hpresented
      exact hpeer peerSpki (hown ▸ hleaf)
  | command command =>
      simp only [hkind] at hkeeps
      exact (hkeeps.next hnext).elim

/-- What a thread saves satisfies `P`. -/
theorem saved_addresses {h : Host} (hkept : AddressesKept extractSpkiHash P h) {t : DaemonThread}
    (ht : t ∈ h.threads) {contents : KeystoreContents}
    (hnext : t.next = some (.saveFile contents)) : Addresses P contents := by
  obtain ⟨hkeeps, hshows⟩ := hkept.hold.threads t ht
  have hcopied : ∀ {copy}, copyOf t.done = some copy → Addresses P copy :=
    fun hcopy => copyOf_shown addresses_fromIdentity hshows hcopy
  rcases saved_cases hkeeps hnext with hshown | ⟨command, copy, hkind, hcopy, hedits⟩
  · exact hshows _ hshown
  · cases command with
    | pair draws rounds reads =>
        obtain ⟨front, now, offer, copy, w, since, hdone, -, -, -, -, -, -, hcopy, rfl⟩ :=
          (hkept.pairs t ht draws rounds reads hkind).next hnext
        have hcopy' : copyOf t.done = some copy := by
          rw [hdone, copyOf_concat front rfl]
          exact hcopy
        refine addresses_change (.pair (offer.record now)) (hcopied hcopy') ?_
        rintro _ ⟨⟩
        rfl
    | revoke phoneName =>
        rw [← hedits]
        exact addresses_change (.revoke phoneName) (hcopied hcopy) nofun
    | reauthNow =>
        rw [← hedits]
        exact addresses_change (.reauthNow _) (hcopied hcopy) nofun
    | uninstallRevokeBroadcast =>
        rw [← hedits]
        exact addresses_change .revokeAll (hcopied hcopy) nofun

/-- A connection keeps what it may record. -/
theorem connections_of_step {h h' : Host} {a : Action}
    (hconnections : ∀ t ∈ h.threads, ∀ certs addr rounds reads,
      t.kind = .connection certs addr rounds reads →
        t.Keeps (RecordOp extractSpkiHash addr) ∧
          ∀ spki, leafSpki extractSpkiHash (some certs) = .ok spki → P spki addr)
    (hfits : PeerFits extractSpkiHash P a) (hstep : h.step extractSpkiHash a = some h') :
    ∀ t ∈ h'.threads, ∀ certs addr rounds reads, t.kind = .connection certs addr rounds reads →
      t.Keeps (RecordOp extractSpkiHash addr) ∧
        ∀ spki, leafSpki extractSpkiHash (some certs) = .ok spki → P spki addr := by
  cases Host.stepped_of_step hstep with
  | start hserver hfile => exact hconnections
  | stop =>
      intro t ht certs addr rounds reads hkind
      obtain ⟨t₀, ht₀, rfl⟩ := List.mem_map.mp ht
      unfold endConnection at hkind ⊢
      split at hkind
      · next hconnection =>
          rw [if_pos hconnection]
          exact ⟨trivial, (hconnections t₀ ht₀ certs addr rounds reads hkind).2⟩
      · next hcommand =>
          rw [if_neg hcommand]
          exact hconnections t₀ ht₀ certs addr rounds reads hkind
  | accept hserver certs addr rounds reads =>
      intro t ht certs' addr' rounds' reads' hkind
      rcases List.mem_append.mp ht with hold | hnew
      · exact hconnections t hold certs' addr' rounds' reads' hkind
      · obtain rfl := List.mem_singleton.mp hnew
        obtain ⟨rfl, rfl, rfl, rfl⟩ := Kind.connection.inj hkind
        refine ⟨(safe_bind _ _ _ _).mpr ?_, hfits⟩
        exact (acceptConnection_records rounds reads).mono fun _ _ _ => trivial
  | launch command =>
      intro t ht certs addr rounds reads hkind
      rcases List.mem_append.mp ht with hold | hnew
      · exact hconnections t hold certs addr rounds reads hkind
      · obtain rfl := List.mem_singleton.mp hnew
        cases hkind
  | @perform i outside t t' e w ht hthread heffect =>
      intro u hu certs addr rounds reads hkind
      rcases List.mem_or_eq_of_mem_set hu with hold | rfl
      · exact hconnections u hold certs addr rounds reads hkind
      · obtain ⟨k, -, -, hafter⟩ := Thread.perform_eq_some hthread
        have hkind' : t.kind = .connection certs addr rounds reads := by rw [← hkind, hafter]
        obtain ⟨hkeeps, hpeer⟩ :=
          hconnections t (List.mem_of_getElem? ht) certs addr rounds reads hkind'
        exact ⟨hkeeps.perform hthread, hpeer⟩

/-- A step in which only such peers are accepted keeps `P` of all addresses, if `P` does not ask
for flow information or a scope. -/
theorem AddressesKept.step {h h' : Host} {a : Action} (hkept : AddressesKept extractSpkiHash P h)
    (hreloaded : ∀ spki addr, P spki addr → P spki addr.reloaded)
    (hfits : PeerFits extractSpkiHash P a) (hstep : h.step extractSpkiHash a = some h') :
    AddressesKept extractSpkiHash P h' := by
  refine ⟨hkept.hold.step ?_ ?_ hstep, ?_, connections_of_step hkept.connections hfits hstep⟩
  · intro t ht u hnext c hc
    refine addresses_update hc ?_
    rintro peerSpki addr rfl
    exact recorded_fits hkept ht hnext
  · intro i outside t t' w contents _ ht hthread
    exact addresses_reloaded hreloaded
      (saved_addresses hkept (List.mem_of_getElem? ht) (Thread.next_of_perform hthread))
  · exact Host.threads_of_step pairThread_start
      (fun _ _ _ _ _ _ ht hperform _ => pairThread_perform ht hperform)
      (fun _ ht => pairThread_end ht) hkept.pairs hstep

theorem addressesKept_initial {file : Option KeystoreContents}
    (hfile : ∀ c, file = some c → Addresses P c.reloaded) :
    AddressesKept extractSpkiHash P (Host.initial file) :=
  ⟨allHold_initial hfile, nofun, nofun⟩

/-- In a run in which only such peers are accepted, all stored addresses satisfy `P`. -/
theorem addressesKept_of_steps {file : Option KeystoreContents}
    (hreloaded : ∀ spki addr, P spki addr → P spki addr.reloaded)
    (hfile : ∀ c, file = some c → Addresses P c) {actions : List Action}
    (hfits : ∀ a ∈ actions, PeerFits extractSpkiHash P a) {h : Host}
    (hsteps : takeSteps (Host.step extractSpkiHash) (Host.initial file) actions = some h) :
    AddressesKept extractSpkiHash P h :=
  (Along.of_forall hfits (Host.initial file)).invariant (AddressesKept extractSpkiHash P)
    (fun _ _ _ hkept hfits hstep => hkept.step hreloaded hfits hstep)
    (addressesKept_initial fun c hc => addresses_reloaded hreloaded (hfile c hc)) hsteps

variable (extractSpkiHash) in
/-- The address, as it is or before it lost its flow information and scope, is one that the file
has for the key, or one from which a peer with the key is accepted. -/
def AddressOrigin (file : Option KeystoreContents) (actions : List Action) (spki : SpkiHash)
    (addr : SocketAddr) : Prop :=
  ∃ origin : SocketAddr, (addr = origin ∨ addr = origin.reloaded) ∧
    ((∃ c, file = some c ∧
        ∃ p ∈ c.pairings, p.clientSpki = spki ∧ p.lastKnownAddress = some origin) ∨
      ∃ certs rounds reads, Action.accept certs origin rounds reads ∈ actions ∧
        leafSpki extractSpkiHash (some certs) = .ok spki)

/-- In every run, an address that the file or the memory of the server has for a key was there
for that key at first, or a peer with that key was accepted from there; a save may have dropped
its flow information and scope. -/
theorem recorded_addresses {file : Option KeystoreContents} {h : Host} {actions : List Action}
    (hsteps : takeSteps (Host.step extractSpkiHash) (Host.initial file) actions = some h)
    {c : KeystoreContents} (hc : h.world.file = some c ∨ h.world.server = some c)
    {p : PairingRecord} (hp : p ∈ c.pairings) {addr : SocketAddr}
    (haddr : p.lastKnownAddress = some addr) :
    AddressOrigin extractSpkiHash file actions p.clientSpki addr := by
  have hkept : AddressesKept extractSpkiHash (AddressOrigin extractSpkiHash file actions) h := by
    refine addressesKept_of_steps ?_ ?_ ?_ hsteps
    · rintro spki addr ⟨origin, hsame, horigin⟩
      refine ⟨origin, .inr ?_, horigin⟩
      rcases hsame with rfl | rfl
      · rfl
      · exact origin.reloaded_reloaded
    · exact fun first hfirst q hq addr hq' =>
        ⟨addr, .inl rfl, .inl ⟨first, hfirst, q, hq, rfl, hq'⟩⟩
    · intro a ha
      cases a with
      | accept certs addr rounds reads =>
          exact fun spki hleaf => ⟨addr, .inl rfl, .inr ⟨certs, rounds, reads, ha, hleaf⟩⟩
      | _ => trivial
  rcases hc with hfile | hserver
  · exact hkept.hold.file c hfile p hp addr haddr
  · exact hkept.hold.server c hserver p hp addr haddr

end Stored
end Addresses

/-- The address from which the phone connects to lock the PC is recorded. -/
theorem phone_address_recorded :
    ∃ h c p addr, takeSteps (Host.step phoneSpki) (Host.initial (some pairedContents))
        lockActions = some h ∧ h.world.server = some c ∧ p ∈ c.pairings ∧
      p.lastKnownAddress = some addr ∧
      AddressOrigin phoneSpki (some pairedContents) lockActions p.clientSpki addr := by
  have hview : ((takeSteps (Host.step phoneSpki) (Host.initial (some pairedContents))
      lockActions).bind fun h => h.world.server.bind fun c => c.pairings.head?.bind fun p =>
        p.lastKnownAddress) = some phoneAddress := by
    rfl
  obtain ⟨h, hsteps, hserver⟩ := Option.bind_eq_some_iff.mp hview
  obtain ⟨c, hc, hhead⟩ := Option.bind_eq_some_iff.mp hserver
  obtain ⟨p, hp, haddr⟩ := Option.bind_eq_some_iff.mp hhead
  have hmem := List.mem_of_mem_head? hp
  exact ⟨h, c, p, phoneAddress, hsteps, hc, hmem, haddr,
    recorded_addresses hsteps (.inr hc) hmem haddr⟩

end Daemon
end WakeMyPc
