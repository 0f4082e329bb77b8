import WakeMyPc.Daemon.Locks

/-!
# Runs of the server with its lock

In whatever order the tasks of a server ask for the lock, get it, work under it and give it
back, what can be seen of them is what tasks show that read and write the contents in single
operations.

Main results:

- Theorem `locked_refines`: a run with the lock shows what a run of the host shows that
  takes some of the same actions.
- Theorem `nothing_else_under_lock`: no task waits for anything else while it has the lock.
- Theorem `no_deadlock`: as long as a task waits for the lock, some task can go on.
-/

namespace WakeMyPc
namespace Daemon

open Foundations
open Foundations.Prog (safe_bind interpret)
open Protocol (SpkiHash)

section Runs

-- the hash of the public key of a certificate, by the X.509 parser and SHA-256
variable (extractSpkiHash : Bytes → Except Crypto.Error SpkiHash)

/-! ## What a task does under the lock -/

/-- The events of a task with the lock. -/
abbrev LockEvent := Event LockOp (GuardAns Ans KeystoreContents)

/-- The task has looked up its peer, which has no live pairing, and still has the lock. -/
def Refused (h : List LockEvent) : Prop :=
  ∃ certs peerSpki c, ⟨.op .peerCertificates, certs⟩ ∈ h ∧
    leafSpki extractSpkiHash certs = .ok peerSpki ∧ view h = some (some c) ∧
    c.activePairing peerSpki = none

/-- The operations of a connection that fit its history: under the lock it does nothing else,
unless it refuses its peer. -/
def LockedOp (h : List LockEvent) : LockOp → Prop
  | .op _ => view h = none ∨ Refused extractSpkiHash h
  | _ => True

variable {extractSpkiHash}

theorem view_release (h : List LockEvent) (u : Unit) : view (h ++ [⟨.release, u⟩]) = none := by
  rw [view_concat]
  rfl

theorem view_op (h : List LockEvent) (o : Op) (r : GuardAns Ans KeystoreContents (.op o)) :
    view (h ++ [⟨.op o, r⟩]) = view h := by
  rw [view_concat]
  rfl

theorem addressLoop_locked (peerSpki : SpkiHash) (peerAddr : SocketAddr) (n i : ℕ)
    (h : List LockEvent) :
    (addressLoop peerSpki peerAddr n i).Safe (LockedOp extractSpkiHash) h fun _ _ => True := by
  induction n generalizing i h with
  | zero => trivial
  | succ n ih =>
      refine ⟨trivial, fun w => ?_⟩
      change (addressBody peerSpki peerAddr w i _).Safe _ _ _
      unfold addressBody
      split
      · trivial
      · split
        · exact ⟨trivial, fun _ => trivial⟩
        · exact ih _ _

/-- A block under the write lock ends with its release. -/
theorem block_locked (u : Update) (h : List LockEvent) :
    u.block.Safe (LockedOp extractSpkiHash) h fun h' _ => view h' = none := by
  cases u with
  | lastKnownAddress peerSpki peerAddr =>
      refine ⟨trivial, fun w => ?_⟩
      refine (safe_bind (addressLoop peerSpki peerAddr _ 0) _ _ _).mpr ?_
      refine (addressLoop_locked peerSpki peerAddr _ _ _).mono fun h' changed _ => ?_
      exact ⟨trivial, fun _ => view_release _ _⟩
  | reauthInterval newDays =>
      exact ⟨trivial, fun _ => ⟨trivial, fun _ => ⟨trivial, fun _ => view_release _ _⟩⟩⟩
  | removeRevoked peerSpki =>
      exact ⟨trivial, fun _ => ⟨trivial, fun _ => ⟨trivial, fun _ => ⟨trivial, fun _ =>
        ⟨trivial, fun _ => view_release _ _⟩⟩⟩⟩⟩

/-- Every operation is carried out from outside of the lock to outside of the lock. -/
theorem carryOut_locked (o : Op) (h : List LockEvent) (hview : view h = none) :
    (carryOut o).Safe (LockedOp extractSpkiHash) h fun h' _ => view h' = none := by
  cases o with
  | snapshot =>
      exact ⟨trivial, fun _ => ⟨trivial, fun _ => ⟨trivial, fun _ =>
        ⟨trivial, fun _ => view_release _ _⟩⟩⟩⟩
  | write u => exact ⟨trivial, fun _ => ⟨trivial, fun _ => block_locked u _⟩⟩
  | _ => exact ⟨.inl hview, fun r => (view_op h _ r).trans hview⟩

theorem interpret_locked {α : Type} (p : Task α) {h : List LockEvent} (hview : view h = none) :
    (interpret carryOut p).Safe (LockedOp extractSpkiHash) h fun h' _ => view h' = none :=
  Prog.safe_interpret carryOut_locked p hview

/-- A refused peer is answered under the lock. -/
theorem sendErrorAndClose_locked (code : Protocol.ProtocolError) {h : List LockEvent}
    (hrefused : Refused extractSpkiHash h) :
    (interpret goPast (sendErrorAndClose 0 code)).Safe (LockedOp extractSpkiHash) h
      fun _ _ => True := by
  have hlater : ∀ (o : Op) (r : GuardAns Ans KeystoreContents (.op o)),
      Refused extractSpkiHash (h ++ [⟨.op o, r⟩]) := by
    intro o r
    obtain ⟨certs, peerSpki, c, hcerts, hleaf, hview, hnone⟩ := hrefused
    exact ⟨certs, peerSpki, c, List.mem_append_left _ hcerts, hleaf, (view_op h o r).trans hview,
      hnone⟩
  unfold sendErrorAndClose
  split
  · trivial
  · split
    · trivial
    · exact ⟨.inr hrefused, fun r => ⟨.inr (hlater _ r), fun _ => trivial⟩⟩

/-- A peer that is known is refused only under its own look at the contents. -/
theorem servePeer_locked (rounds reads : ℕ) (peerAddr : SocketAddr) {peerSpki : SpkiHash}
    {h : List LockEvent} {certs : Option (List Bytes)}
    (hcerts : ⟨.op .peerCertificates, certs⟩ ∈ h)
    (hleaf : leafSpki extractSpkiHash certs = .ok peerSpki) :
    (Locked.servePeer rounds reads peerAddr peerSpki).Safe (LockedOp extractSpkiHash) h
      fun _ _ => True := by
  refine ⟨trivial, fun u => ⟨trivial, fun u' => ⟨trivial, fun snap => ?_⟩⟩⟩
  have hview : view (h ++ [⟨.request .shared, u⟩] ++ [⟨.acquire .shared, u'⟩] ++
      [⟨.get, snap⟩] : List LockEvent) = some (some snap) := by
    rw [view_concat, view_concat]
    rfl
  change (if _ then _ else _ : LockTask _).Safe _ _ _
  split
  · refine ⟨trivial, fun _ => ?_⟩
    refine (safe_bind (interpret carryOut (recordAddress peerSpki peerAddr)) _ _ _).mpr ?_
    refine (interpret_locked _ (view_release _ _)).mono fun h' _ hview' => ?_
    exact (interpret_locked _ hview').mono fun _ _ _ => trivial
  · next hnone =>
      have hrefused : Refused extractSpkiHash (h ++ [⟨.request .shared, u⟩] ++
          [⟨.acquire .shared, u'⟩] ++ [⟨.get, snap⟩]) :=
        ⟨certs, peerSpki, snap, by simp [hcerts], hleaf, hview, by simpa using hnone⟩
      refine (safe_bind (interpret goPast (sendErrorAndClose 0 .revoked)) _ _ _).mpr ?_
      refine (sendErrorAndClose_locked .revoked hrefused).mono fun h' result _ => ?_
      exact ⟨trivial, fun _ => trivial⟩

/-- The task after the TLS handshake. -/
theorem run_locked (rounds reads : ℕ) (peerAddr : SocketAddr) {h : List LockEvent}
    (hview : view h = none) :
    (Locked.run extractSpkiHash rounds reads peerAddr).Safe (LockedOp extractSpkiHash) h
      fun _ _ => True := by
  have hleaf : (interpret carryOut (peerSpkiFromTls extractSpkiHash)).Safe
      (LockedOp extractSpkiHash) h fun h' result => ∃ certs,
        h' = h ++ [⟨.op .peerCertificates, certs⟩] ∧ leafSpki extractSpkiHash certs = result :=
    ⟨.inl hview, fun certs => ⟨certs, rfl, rfl⟩⟩
  refine (safe_bind _ _ _ _).mpr (hleaf.mono ?_)
  rintro h' result ⟨certs, rfl, hleaf⟩
  cases result with
  | error e => trivial
  | ok peerSpki => exact servePeer_locked rounds reads peerAddr (by simp) hleaf

/-- A connection does nothing else under the lock, unless it refuses its peer. -/
theorem acceptConnection_locked (rounds reads : ℕ) (peerAddr : SocketAddr) :
    (Locked.acceptConnection extractSpkiHash rounds reads peerAddr).Safe
      (LockedOp extractSpkiHash) [] fun _ _ => True := by
  refine (safe_bind _ _ _ _).mpr ((interpret_locked buildAcceptor rfl).mono ?_)
  intro h pins hview
  refine ⟨.inl hview, fun handshake => ?_⟩
  cases handshake with
  | error e => trivial
  | ok _ => exact run_locked rounds reads peerAddr ((view_op h _ _).trans hview)

/-- The operations of a subcommand go past the lock. -/
theorem command_locked (command : Command) :
    ((Kind.command command).lockProgram extractSpkiHash).Safe
      (fun _ o => ∃ o', o = .op o') [] fun _ _ => True := by
  refine (command_safe extractSpkiHash command).interpreted (fun h o hop h' => ?_) []
  cases o with
  | snapshot => exact hop.elim
  | write u => exact hop.elim
  | _ => exact ⟨⟨_, rfl⟩, fun _ => trivial⟩

/-! ## Corresponding states -/

variable (extractSpkiHash)

/-- What a thread with the lock keeps to. -/
def LockThreadKeeps (t : LockThread) : Prop :=
  match t.kind with
  | .connection _ _ _ _ => t.Keeps (LockedOp extractSpkiHash)
  | .command _ => t.Keeps fun _ o => ∃ o', o = .op o'

/-- The processes with the lock are as far as those of the host. -/
structure Refines (h : LockHost) (g : Host) : Prop where
  corresponds : Matches (sharedContents extractSpkiHash) h.lock h.world h.threads g.world g.threads
  viewed : Viewed (sharedContents extractSpkiHash) h.lock h.world h.threads
  keeps : ∀ t ∈ h.threads, LockThreadKeeps extractSpkiHash t
  connections : ∀ {i t}, h.threads[i]? = some t → i ∈ h.lock.owners → t.kind.isConnection = true
  ended : ∀ t ∈ h.threads, t.kind.isConnection = true → h.world.server = none → t.rest = .stall

variable {extractSpkiHash}

theorem refines_initial (file : Option KeystoreContents) :
    Refines extractSpkiHash (LockHost.initial file) (Host.initial file) where
  corresponds :=
    { owners := List.nodup_nil
      present := by simp [LockHost.initial, LockState.owners, LockState.unlocked]
      worlds := .same (by simp [LockHost.initial, LockState.unlocked]) rfl
      length := rfl
      threads := by simp [LockHost.initial] }
  viewed := by simp [Viewed, LockHost.initial]
  keeps := by simp [LockHost.initial]
  connections := by simp [LockHost.initial]
  ended := by simp [LockHost.initial]

/-- A thread keeps to its operations from its start. -/
theorem lockThreadKeeps_start (kind : Kind) :
    LockThreadKeeps extractSpkiHash ⟨kind, [], kind.lockProgram extractSpkiHash⟩ := by
  cases kind with
  | command command => exact command_locked command
  | connection certs peerAddr rounds reads =>
      exact (safe_bind _ _ _ _).mpr
        ((acceptConnection_locked rounds reads peerAddr).mono fun _ _ _ => trivial)

theorem lockThreadKeeps_perform {W : Type} {t t' : LockThread}
    {answer : (o : LockOp) → Option (GuardAns Ans KeystoreContents o × W)} {e : LockEvent} {w : W}
    (ht : LockThreadKeeps extractSpkiHash t) (hperform : t.perform answer = some (e, t', w)) :
    LockThreadKeeps extractSpkiHash t' := by
  obtain ⟨k, -, -, hafter⟩ := Thread.perform_eq_some hperform
  have hkind : t'.kind = t.kind := by rw [hafter]
  unfold LockThreadKeeps at ht ⊢
  rw [hkind]
  split
  · next hconnection =>
      rw [hconnection] at ht
      exact ht.perform hperform
  · next hcommand =>
      rw [hcommand] at ht
      exact ht.perform hperform

theorem lockThreadKeeps_end {t : LockThread} (ht : LockThreadKeeps extractSpkiHash t) :
    LockThreadKeeps extractSpkiHash (endLockConnection t) := by
  unfold endLockConnection
  split
  · next hconnection =>
      unfold LockThreadKeeps
      cases hkind : t.kind with
      | command command => simp [hkind, Kind.isConnection] at hconnection
      | connection certs peerAddr rounds reads =>
          simp only
          trivial
  · exact ht

namespace Refines

variable {h h' : LockHost} {g : Host}

/-- Without contents in memory nobody has to do with the lock. -/
theorem owners_nil (hr : Refines extractSpkiHash h g) (hserver : g.world.server = none) :
    h.lock.owners = [] := by
  refine List.eq_nil_iff_forall_not_mem.mpr fun i hi => ?_
  have hsome := (hr.corresponds.present i hi).2
  rw [show (sharedContents extractSpkiHash).value g.world = none from hserver] at hsome
  cases hsome

/-- The files are the same, and there are contents in memory or not. -/
theorem world (hr : Refines extractSpkiHash h g) :
    h.world.file = g.world.file ∧ h.world.server.isSome = g.world.server.isSome := by
  refine ⟨?_, hr.corresponds.worlds.value_isSome⟩
  cases hr.corresponds.worlds with
  | same _ heq => rw [heq]
  | changing _ _ heq => rw [heq]; rfl

/-- A process starts in both. -/
theorem start (hr : Refines extractSpkiHash h g) (kind : Kind)
    (hserver : kind.isConnection = true → h.world.server.isSome) :
    Refines extractSpkiHash (h.start extractSpkiHash kind)
      { g with threads := g.threads ++ [kind.thread extractSpkiHash] } where
  corresponds :=
    { owners := hr.corresponds.owners
      present := by
        intro i hi
        obtain ⟨hlt, hsome⟩ := hr.corresponds.present i hi
        refine ⟨?_, hsome⟩
        rw [LockHost.start, List.length_append]
        exact Nat.lt_add_right _ hlt
      worlds := hr.corresponds.worlds
      length := by simp [LockHost.start, hr.corresponds.length]
      threads := by
        intro i t u ht hu
        rcases getElem?_concat_cases ht with ht | ⟨hi, rfl⟩
        · rcases getElem?_concat_cases hu with hu | ⟨hi, -⟩
          · exact hr.corresponds.threads ht hu
          · have hlt := (List.getElem?_eq_some_iff.mp ht).1
            rw [hr.corresponds.length] at hlt
            omega
        · rcases getElem?_concat_cases hu with hu | ⟨-, rfl⟩
          · have hlt := (List.getElem?_eq_some_iff.mp hu).1
            rw [← hr.corresponds.length] at hlt
            omega
          · refine ⟨rfl, rfl, .outside (fun howner => ?_) (sim_program kind)⟩
            exact absurd (hr.corresponds.present i howner).1 (by omega) }
  viewed := by
    intro i t ht
    rcases getElem?_concat_cases ht with ht | ⟨hi, rfl⟩
    · exact hr.viewed ht
    · have hnot : ∀ a, (i, a) ∉ h.lock.holders := by
        intro a ha
        have hlt := (hr.corresponds.present i (LockState.mem_owners.mpr (.inl ⟨a, ha⟩))).1
        omega
      exact ⟨fun a ha => absurd ha (hnot a), fun ha => absurd ha (hnot _)⟩
  keeps := by
    intro t ht
    rcases List.mem_append.mp ht with hold | hnew
    · exact hr.keeps t hold
    · obtain rfl := List.mem_singleton.mp hnew
      exact lockThreadKeeps_start kind
  connections := by
    intro i t ht howner
    rcases getElem?_concat_cases ht with ht | ⟨hi, -⟩
    · exact hr.connections ht howner
    · have hlt := (hr.corresponds.present i howner).1
      omega
  ended := by
    intro t ht hconnection hnone
    rcases List.mem_append.mp ht with hold | hnew
    · exact hr.ended t hold hconnection hnone
    · obtain rfl := List.mem_singleton.mp hnew
      have hsome := hserver hconnection
      rw [show h.world.server = none from hnone] at hsome
      cases hsome

/-- The server starts in both. -/
theorem startServer (hr : Refines extractSpkiHash h g) (hserver : h.world.server = none)
    (c : KeystoreContents) :
    Refines extractSpkiHash { h with world := { h.world with server := some c } }
      { g with world := { g.world with server := some c } } := by
  have hnone : g.world.server = none := by
    have hsome := hr.world.2
    rw [hserver] at hsome
    exact Option.not_isSome_iff_eq_none.mp (by simp [← hsome])
  have howners := hr.owners_nil hnone
  have hholders : h.lock.holders = [] := by
    rw [LockState.owners, List.map_eq_nil_iff, List.append_eq_nil_iff] at howners
    exact howners.1
  have hworlds : (⟨h.world.file, some c⟩ : World) = ⟨g.world.file, some c⟩ := by rw [hr.world.1]
  have hnot : ∀ i a, (i, a) ∉ h.lock.holders := by simp [hholders]
  refine ⟨⟨hr.corresponds.owners, by simp [howners], .same (by simp [hholders]) hworlds,
    hr.corresponds.length, ?_⟩, ?_, hr.keeps, hr.connections, ?_⟩
  · intro i t u ht hu
    obtain ⟨hkind, hdone, hc⟩ := hr.corresponds.threads ht hu
    refine ⟨hkind, hdone, hc.unmoved LockState.unmoved_refl fun hholds => ?_⟩
    simp [LockState.holds, hholders] at hholds
  · intro i t ht
    exact ⟨fun a ha => absurd ha (hnot i a), fun ha => absurd ha (hnot i _)⟩
  · intro t ht hconnection hnone
    cases hnone

/-- The server ends in both, and with it its connections and the lock. -/
theorem stop (hr : Refines extractSpkiHash h g) :
    Refines extractSpkiHash
      ⟨{ h.world with server := none }, .unlocked, h.threads.map endLockConnection⟩
      ⟨{ g.world with server := none }, g.threads.map endConnection⟩ := by
  have hworlds : (⟨h.world.file, none⟩ : World) = ⟨g.world.file, none⟩ := by rw [hr.world.1]
  refine ⟨⟨List.nodup_nil, by simp [LockState.owners, LockState.unlocked],
    .same (by simp [LockState.unlocked]) hworlds, by simp [hr.corresponds.length], ?_⟩, ?_, ?_,
    ?_, ?_⟩
  · intro i t u ht hu
    obtain ⟨t₀, ht₀, rfl⟩ := Option.map_eq_some_iff.mp (List.getElem?_map .. ▸ ht)
    obtain ⟨u₀, hu₀, rfl⟩ := Option.map_eq_some_iff.mp (List.getElem?_map .. ▸ hu)
    obtain ⟨hkind, hdone, hc⟩ := hr.corresponds.threads ht₀ hu₀
    have hnot : i ∉ LockState.unlocked.owners := by simp [LockState.owners, LockState.unlocked]
    unfold endLockConnection endConnection
    rw [← hkind]
    split
    · exact ⟨rfl, hdone, .outside hnot .stall⟩
    · next hcommand =>
        have hout : i ∉ h.lock.owners := fun howner => hcommand (hr.connections ht₀ howner)
        refine ⟨hkind, hdone, ?_⟩
        cases hc with
        | outside _ hsim => exact .outside hnot hsim
        | queued hwaits _ => exact absurd (LockState.mem_owners.mpr (.inr ⟨_, hwaits⟩)) hout
        | entered hholds _ => exact absurd (LockState.mem_owners.mpr (.inl ⟨_, hholds⟩)) hout
        | reading hholds _ _ => exact absurd (LockState.mem_owners.mpr (.inl ⟨_, hholds⟩)) hout
        | writing hholds _ _ _ _ _ _ =>
            exact absurd (LockState.mem_owners.mpr (.inl ⟨_, hholds⟩)) hout
  · intro i t ht
    simp [LockState.unlocked]
  · intro t ht
    obtain ⟨t₀, ht₀, rfl⟩ := List.mem_map.mp ht
    exact lockThreadKeeps_end (hr.keeps t₀ ht₀)
  · intro i t ht howner
    simp [LockState.owners, LockState.unlocked] at howner
  · intro t ht hconnection _
    obtain ⟨t₀, -, rfl⟩ := List.mem_map.mp ht
    by_cases hended : t₀.kind.isConnection = true
    · rw [endLockConnection, if_pos hended]
    · rw [endLockConnection, if_neg hended] at hconnection
      exact absurd hconnection hended

/-- What a step of a thread with the lock leaves of the invariants, whatever the host does. -/
theorem after_perform {policy : LockPolicy} (hr : Refines extractSpkiHash h g) {i : ℕ}
    {t t' : LockThread} (ht : h.threads[i]? = some t) {outside : (o : Op) → Ans o} {e : LockEvent}
    {w : World} {l : LockState}
    (hstep : t.perform (lockAnswer (sharedContents extractSpkiHash) policy i t.kind outside
      (h.world, h.lock)) = some (e, t', (w, l))) {g' : Host}
    (hmatches : Matches (sharedContents extractSpkiHash) l w (h.threads.set i t') g'.world
      g'.threads) : Refines extractSpkiHash ⟨w, l, h.threads.set i t'⟩ g' := by
  obtain ⟨k, hrest, hanswer, hafter⟩ := Thread.perform_eq_some hstep
  have hkind : t'.kind = t.kind := by rw [hafter]
  have hkeeps := hr.keeps t (List.mem_of_getElem? ht)
  refine ⟨hmatches, hr.corresponds.viewed hr.viewed ht hstep, ?_, ?_, ?_⟩
  · intro t₁ ht₁
    rcases List.mem_or_eq_of_mem_set ht₁ with hold | rfl
    · exact hr.keeps t₁ hold
    · exact lockThreadKeeps_perform hkeeps hstep
  · intro j t₁ ht₁ howner
    rcases lockAnswer_owners hanswer j howner with hold | ⟨rfl, a, hrequest⟩
    · rcases getElem?_set_cases ht₁ with ⟨rfl, rfl⟩ | ⟨-, ht₁⟩
      · rw [hkind]
        exact hr.connections ht hold
      · exact hr.connections ht₁ hold
    · rcases getElem?_set_cases ht₁ with ⟨-, rfl⟩ | ⟨hne, -⟩
      · rw [hkind]
        unfold LockThreadKeeps at hkeeps
        cases hk : t.kind with
        | connection certs peerAddr rounds reads => rfl
        | command command =>
            -- a subcommand does not ask for the lock
            simp only [hk] at hkeeps
            obtain ⟨o, ho⟩ := hkeeps.next (Thread.next_of_perform hstep)
            rw [hrequest] at ho
            cases ho
      · exact absurd rfl hne
  · intro t₁ ht₁ hconnection hnone
    have hserver : h.world.server = none := by
      refine Option.not_isSome_iff_eq_none.mp fun hsome => ?_
      have hlater := lockAnswer_value hanswer hsome
      rw [show (sharedContents extractSpkiHash).value w = none from hnone] at hlater
      cases hlater
    rcases List.mem_or_eq_of_mem_set ht₁ with hold | rfl
    · exact hr.ended t₁ hold hconnection hserver
    · rw [hkind] at hconnection
      rw [hr.ended t (List.mem_of_getElem? ht) hconnection hserver] at hrest
      cases hrest

/-- A step with the lock is a step of the host, or the host does not see it. -/
theorem step {policy : LockPolicy} (hr : Refines extractSpkiHash h g) {a : Action}
    (hstep : h.step extractSpkiHash policy a = some h') :
    Refines extractSpkiHash h' g ∨
      ∃ g', g.step extractSpkiHash a = some g' ∧ Refines extractSpkiHash h' g' := by
  cases a with
  | start =>
      simp only [LockHost.step] at hstep
      split at hstep
      · next c hserver hfile =>
          obtain rfl := Option.some.inj hstep
          refine .inr ⟨_, ?_, hr.startServer hserver c⟩
          have hnone : g.world.server = none := by
            have hsome := hr.world.2
            rw [hserver] at hsome
            exact Option.not_isSome_iff_eq_none.mp (by simp [← hsome])
          simp only [Host.step, hnone, ← hr.world.1, hfile]
      · cases hstep
  | stop =>
      obtain rfl := Option.some.inj hstep
      exact .inr ⟨_, rfl, hr.stop⟩
  | accept certs peerAddr rounds reads =>
      obtain ⟨hsome, heq⟩ := Option.ite_none_right_eq_some.mp hstep
      obtain rfl := Option.some.inj heq
      refine .inr ⟨_, ?_, hr.start _ fun _ => hsome⟩
      rw [hr.world.2] at hsome
      simp only [Host.step, hsome, if_true]
  | launch command =>
      obtain rfl := Option.some.inj hstep
      exact .inr ⟨_, rfl, hr.start _ fun hconnection => by cases hconnection⟩
  | perform i outside =>
      simp only [LockHost.step, LockHost.perform] at hstep
      split at hstep
      · cases hstep
      · next t ht =>
          obtain ⟨⟨e, t', w, l⟩, hperform, rfl⟩ := Option.map_eq_some_iff.mp hstep
          have hlt : i < g.threads.length := by
            rw [← hr.corresponds.length]
            exact (List.getElem?_eq_some_iff.mp ht).1
          have hu : g.threads[i]? = some g.threads[i] := List.getElem?_eq_getElem hlt
          rcases hr.corresponds.perform ht hu hperform with hsame | ⟨e', u', v', hu', hboth⟩
          · exact .inl (hr.after_perform ht hperform hsame)
          · refine .inr ⟨⟨v', g.threads.set i u'⟩, ?_, hr.after_perform ht hperform hboth⟩
            exact congrArg (Option.map Prod.snd) (Host.perform_of_thread hu hu')

end Refines

/-! ## All runs -/

section All

variable {policy : LockPolicy} {file : Option KeystoreContents} {h : LockHost}
variable {actions : List Action}

/-- A run with the lock is one of the host that takes some of the same actions. -/
theorem refines_of_steps
    (hsteps : takeSteps (LockHost.step extractSpkiHash policy) (LockHost.initial file) actions =
      some h) :
    ∃ actions' g, actions'.Sublist actions ∧
      takeSteps (Host.step extractSpkiHash) (Host.initial file) actions' = some g ∧
      Refines extractSpkiHash h g := by
  have hstep : ∀ (h : LockHost) (g : Host) (a : Action) (h' : LockHost),
      Refines extractSpkiHash h g → h.step extractSpkiHash policy a = some h' →
      Refines extractSpkiHash h' g ∨
        ∃ g', Host.step extractSpkiHash g a = some g' ∧ Refines extractSpkiHash h' g' :=
    fun _ _ _ _ hr hstep => hr.step hstep
  exact takeSteps_simulation (Refines extractSpkiHash) hstep (refines_initial file) hsteps

/-- In whatever order tasks get the lock and work under it, a run of the host, in which every
read and write of the contents is one operation, takes some of the same actions in the same
order and shows the same: the same file, the same contents in memory whenever nobody is
changing them, and for each process the same operations apart from the contents, with the
same answers. -/
theorem locked_refines
    (hsteps : takeSteps (LockHost.step extractSpkiHash policy) (LockHost.initial file) actions =
      some h) :
    ∃ actions' g, actions'.Sublist actions ∧
      takeSteps (Host.step extractSpkiHash) (Host.initial file) actions' = some g ∧
      g.world.file = h.world.file ∧
      ((∀ x ∈ h.lock.holders, x.2 = Access.shared) → g.world = h.world) ∧
      h.threads.length = g.threads.length ∧
      ∀ (i : ℕ) (t : LockThread) (u : DaemonThread),
        h.threads[i]? = some t → g.threads[i]? = some u → t.kind = u.kind ∧
          outsideEvents t.done = otherEvents (sharedContents extractSpkiHash) u.done := by
  obtain ⟨actions', g, hsub, hg, hr⟩ := refines_of_steps hsteps
  refine ⟨actions', g, hsub, hg, hr.world.1.symm, fun hshared => ?_, hr.corresponds.length, ?_⟩
  · cases hr.corresponds.worlds with
    | same _ heq => exact heq.symm
    | @changing i _ _ hholder _ _ => cases hshared (i, Access.exclusive) (by simp [hholder])
  · intro i t u ht hu
    obtain ⟨hkind, hdone, -⟩ := hr.corresponds.threads ht hu
    exact ⟨hkind, hdone⟩

end All

end Runs

/-- A server serves the paired phone under a lock that is granted in turn. -/
def lockedActions : List Action :=
  .start :: .accept [[]] phoneAddress 2 2 :: List.replicate 20 (.perform 0 lockOutside)

/-- What is seen of it a run of the host shows. -/
theorem locked_phone_refines :
    ∃ h actions' g, takeSteps (LockHost.step phoneSpki .queue)
        (LockHost.initial (some pairedContents)) lockedActions = some h ∧
      actions'.Sublist lockedActions ∧
      takeSteps (Host.step phoneSpki) (Host.initial (some pairedContents)) actions' = some g ∧
      g.world.file = h.world.file := by
  have hsome : (takeSteps (LockHost.step phoneSpki .queue)
      (LockHost.initial (some pairedContents)) lockedActions).isSome := rfl
  obtain ⟨h, hsteps⟩ := Option.isSome_iff_exists.mp hsome
  obtain ⟨actions', g, hsub, hg, hfile, -⟩ := locked_refines hsteps
  exact ⟨h, actions', g, hsteps, hsub, hg, hfile⟩

section Runs

variable {extractSpkiHash : Bytes → Except Crypto.Error SpkiHash}

section All

variable {policy : LockPolicy} {file : Option KeystoreContents} {h : LockHost}
variable {actions : List Action}

/-- A connection that refuses its peer would do so although the peer is still active. -/
theorem not_refused {g : Host} (hr : Refines extractSpkiHash h g) {actions' : List Action}
    (hg : takeSteps (Host.step extractSpkiHash) (Host.initial file) actions' = some g) {i : ℕ}
    {t : LockThread} (ht : h.threads[i]? = some t) {o : Op} {k : Ans o → LockTask Unit}
    (hrest : t.rest = .call (.op o) k) (hholds : h.lock.holds i = true) :
    ¬ Refused extractSpkiHash t.done := by
  rintro ⟨presented, peerSpki, c, hpresented, hleaf, hview, hnone⟩
  have hlt : i < g.threads.length := by
    rw [← hr.corresponds.length]
    exact (List.getElem?_eq_some_iff.mp ht).1
  obtain ⟨u, hu⟩ : ∃ u, g.threads[i]? = some u := ⟨_, List.getElem?_eq_getElem hlt⟩
  obtain ⟨hkind, hdone, hc⟩ := hr.corresponds.threads ht hu
  rw [hrest] at hc
  obtain ⟨k', -, hq, -⟩ := hc.op
  -- the contents that the connection has looked at are those of the server
  obtain ⟨⟨j, a⟩, hin, hj⟩ := List.any_eq_true.mp hholds
  obtain rfl : j = i := by simpa using hj
  have hserver : g.world.server = some c := by
    cases hc with
    | outside hout _ => exact absurd (LockState.mem_owners.mpr (.inl ⟨a, hin⟩)) hout
    | queued hwaits _ => exact (hr.corresponds.not_both hin hwaits).elim
    | entered hshared hsim => cases hsim
    | reading hshared _ _ =>
        obtain ⟨heq, -⟩ := hr.corresponds.worlds.of_shared hshared
        exact heq ▸ (hr.viewed ht).2 hshared c hview
    | writing _ _ _ _ _ hsolo _ => cases hsolo
  have hconnection : u.kind.isConnection = true :=
    hkind ▸ hr.connections ht (LockState.mem_owners.mpr (.inl ⟨a, hin⟩))
  -- the host has seen the same certificates, after a handshake with an active phone
  have hmem : ⟨.peerCertificates, presented⟩ ∈ u.done := by
    have hother : (⟨.peerCertificates, presented⟩ : TaskEvent) ∈ outsideEvents t.done :=
      List.mem_filterMap.mpr ⟨_, hpresented, rfl⟩
    rw [hdone] at hother
    exact (List.mem_filter.mp hother).1
  have humem := List.mem_of_getElem? hu
  have hkeeps := threadKeeps_of_steps hg u humem
  have hfollows := (follows_of_steps hg u humem).1
  have hsees := seesPhones_of_steps hg u humem hconnection
  unfold ThreadKeeps at hkeeps
  cases hk : u.kind with
  | command command => simp [hk, Kind.isConnection] at hconnection
  | connection certs peerAddr rounds reads =>
      rw [hk] at hfollows
      simp only [hk] at hkeeps
      obtain ⟨pinned, rest, hhistory⟩ := handshake_of_performs hfollows hmem
      have hcerts : presented = some certs := hkeeps.fromPeer ⟨.peerCertificates, presented⟩ hmem
      obtain ⟨leaf, chain, rfl, hverified⟩ := hkeeps.fromPeer
        ⟨.handshake (.pinned (activePins pinned)), Except.ok ()⟩ (by simp [hhistory]) rfl
      obtain ⟨pin, hpin, hextract⟩ :=
        (Crypto.verifyClientCert_pinned_iff extractSpkiHash _ leaf).mp hverified
      have hspki : peerSpki = pin := by
        simpa [hcerts, leafSpki, hextract] using hleaf.symm
      have hactive : pinned.HasActive peerSpki := hspki ▸ (mem_activePins pinned pin).mp hpin
      obtain ⟨c', hserver', hsame⟩ :=
        hsees.now.resolve_left (by rw [hq]; simp) (c := pinned) (by simp [hhistory])
      obtain rfl := Option.some.inj (hserver.symm.trans hserver')
      have hsome := (c.activePairing_isSome_iff peerSpki).mpr ((hsame peerSpki).mp hactive)
      rw [hnone] at hsome
      cases hsome

/-- In every run, a task that has the lock only looks at the contents, sets them or gives the
lock back: it never waits for its peer, the disk or the system while others wait for it. -/
theorem nothing_else_under_lock
    (hsteps : takeSteps (LockHost.step extractSpkiHash policy) (LockHost.initial file) actions =
      some h) {i : ℕ} {t : LockThread} (ht : h.threads[i]? = some t)
    (hholds : h.lock.holds i = true) :
    t.next = some .get ∨ t.next = some .release ∨ ∃ c, t.next = some (.put c) := by
  obtain ⟨actions', g, -, hg, hr⟩ := refines_of_steps hsteps
  obtain ⟨⟨j, a⟩, hin, hj⟩ := List.any_eq_true.mp hholds
  obtain rfl : j = i := by simpa using hj
  have howner : j ∈ h.lock.owners := LockState.mem_owners.mpr (.inl ⟨a, hin⟩)
  obtain ⟨t', u, ht', hu, hc⟩ :=
    hr.corresponds.exists_of_lt (hr.corresponds.present j howner).1
  obtain rfl := Option.some.inj (ht.symm.trans ht')
  obtain ⟨t', ht', hacts⟩ : ∃ t', h.threads[j]? = some t' ∧ ∀ outside, (t'.perform
      (lockAnswer (sharedContents extractSpkiHash) policy j t'.kind outside
        (h.world, h.lock))).isSome :=
    hr.corresponds.holder_acts hin
  obtain rfl := Option.some.inj (ht.symm.trans ht')
  obtain ⟨⟨e, t', w⟩, hperform⟩ :=
    Option.isSome_iff_exists.mp (hacts (succeeding pairedContents))
  obtain ⟨k, hrest, -, -⟩ := Thread.perform_eq_some hperform
  rw [Thread.next_of_perform hperform]
  obtain ⟨o, r⟩ := e
  cases o with
  | request a =>
      rw [hrest] at hc
      exact absurd howner hc.request.1
  | acquire a =>
      rw [hrest] at hc
      exact (hr.corresponds.not_both hin hc.acquire.1).elim
  | release => exact .inr (.inl rfl)
  | get => exact .inl rfl
  | put c => exact .inr (.inr ⟨c, rfl⟩)
  | op o =>
      -- it would be a connection that refuses its peer
      have hkeeps := hr.keeps t (List.mem_of_getElem? ht)
      have hconnection := hr.connections ht howner
      unfold LockThreadKeeps at hkeeps
      cases hk : t.kind with
      | command command => simp [hk, Kind.isConnection] at hconnection
      | connection certs peerAddr rounds reads =>
          simp only [hk] at hkeeps
          rcases hkeeps.next (Thread.next_of_perform hperform) with hview | hrefused
          · exact absurd hview ((hr.viewed ht).1 a hin)
          · exact absurd hrefused (not_refused hr hg ht hrest hholds)

end All

end Runs

/-- Two connections of the paired phone: one has the lock, and one waits for it. -/
def twoConnections : List Action :=
  [.start, .accept [[]] phoneAddress 2 2, .accept [[]] phoneAddress 2 2,
    .perform 0 lockOutside, .perform 0 lockOutside, .perform 1 lockOutside]

/-- The one that has the lock looks at the contents. -/
theorem locked_phone_looks :
    ∃ h t, takeSteps (LockHost.step phoneSpki .queue) (LockHost.initial (some pairedContents))
        twoConnections = some h ∧ h.threads[0]? = some t ∧ h.lock.holds 0 = true ∧
      (t.next = some .get ∨ t.next = some .release ∨ ∃ c, t.next = some (.put c)) := by
  have hview : ((takeSteps (LockHost.step phoneSpki .queue)
      (LockHost.initial (some pairedContents)) twoConnections).bind fun h =>
        h.threads[0]?.map fun _ => h.lock.holds 0) = some true := rfl
  obtain ⟨h, hsteps, hthread⟩ := Option.bind_eq_some_iff.mp hview
  obtain ⟨t, ht, hholds⟩ := Option.map_eq_some_iff.mp hthread
  exact ⟨h, t, hsteps, ht, hholds, nothing_else_under_lock hsteps ht hholds⟩

section Runs

variable {extractSpkiHash : Bytes → Except Crypto.Error SpkiHash}

section All

variable {policy : LockPolicy} {file : Option KeystoreContents} {h : LockHost}
variable {actions : List Action}

/-- In every run, a task that is not finished can go on, or waits for the lock while another
one that has it or waits for it can go on: the lock leads to no deadlock when it is granted
to somebody whenever it is free. -/
theorem no_deadlock (hpolicy : policy.Progresses)
    (hsteps : takeSteps (LockHost.step extractSpkiHash policy) (LockHost.initial file) actions =
      some h) {i : ℕ} {t : LockThread} {o : LockOp} (ht : h.threads[i]? = some t)
    (hnext : t.next = some o) :
    (∀ outside, (h.step extractSpkiHash policy (.perform i outside)).isSome) ∨
      i ∈ h.lock.owners ∧ ∃ j ∈ h.lock.owners,
        ∀ outside, (h.step extractSpkiHash policy (.perform j outside)).isSome := by
  obtain ⟨actions', g, -, hg, hr⟩ := refines_of_steps hsteps
  have hstep : ∀ {j t}, h.threads[j]? = some t → ∀ outside,
      (t.perform (lockAnswer (sharedContents extractSpkiHash) policy j t.kind outside
        (h.world, h.lock))).isSome →
      (h.step extractSpkiHash policy (.perform j outside)).isSome := by
    intro j t ht outside hperform
    simp only [LockHost.step, LockHost.perform, ht]
    exact (Option.isSome_map ..).trans hperform
  by_cases howner : i ∈ h.lock.owners
  · obtain ⟨j, t', hj, ht', hacts⟩ := hr.corresponds.acts hpolicy (List.ne_nil_of_mem howner)
    exact .inr ⟨howner, j, hj, fun outside => hstep ht' outside (hacts outside)⟩
  · refine .inl fun outside => hstep ht outside ?_
    obtain ⟨t', u, ht', hu, hc⟩ :=
      hr.corresponds.exists_of_lt (List.getElem?_eq_some_iff.mp ht).1
    obtain rfl := Option.some.inj (ht.symm.trans ht')
    have hkeeps := hr.keeps t (List.mem_of_getElem? ht)
    have hended := hr.ended t (List.mem_of_getElem? ht)
    cases hc with
    | outside _ hsim =>
        generalize hrest : t.rest = p at hsim
        generalize u.rest = q at hsim
        cases hsim with
        | ret a => simp [Thread.next, hrest] at hnext
        | stall => simp [Thread.next, hrest] at hnext
        | op hother _ => exact Thread.perform_isSome hrest (lockAnswer_op_isSome hother)
        | request _ =>
            -- only a connection asks for the lock, and it runs only while the server does
            refine Thread.perform_isSome hrest (lockAnswer_request_isSome _ ?_)
            refine Option.isSome_iff_ne_none.mpr fun hnone => ?_
            unfold LockThreadKeeps at hkeeps
            cases hk : t.kind with
            | connection certs peerAddr rounds reads =>
                rw [hended (by rw [hk]; rfl) hnone] at hrest
                cases hrest
            | command command =>
                simp only [hk] at hkeeps
                obtain ⟨o', ho'⟩ := hkeeps.next (by rw [Thread.next, hrest])
                cases ho'
    | queued hwaits _ => exact absurd (LockState.mem_owners.mpr (.inr ⟨_, hwaits⟩)) howner
    | entered hholds _ => exact absurd (LockState.mem_owners.mpr (.inl ⟨_, hholds⟩)) howner
    | reading hholds _ _ => exact absurd (LockState.mem_owners.mpr (.inl ⟨_, hholds⟩)) howner
    | writing hholds _ _ _ _ _ _ =>
        exact absurd (LockState.mem_owners.mpr (.inl ⟨_, hholds⟩)) howner

end All

end Runs

/-- The one that waits for the lock, or one that keeps it from the lock, can go on. -/
theorem waiting_phone_goes_on :
    ∃ h, takeSteps (LockHost.step phoneSpki .queue) (LockHost.initial (some pairedContents))
        twoConnections = some h ∧ h.threads.length = 2 ∧
      ((∀ outside, (h.step phoneSpki .queue (.perform 1 outside)).isSome) ∨
        1 ∈ h.lock.owners ∧ ∃ j ∈ h.lock.owners,
          ∀ outside, (h.step phoneSpki .queue (.perform j outside)).isSome) := by
  have hview : ((takeSteps (LockHost.step phoneSpki .queue)
      (LockHost.initial (some pairedContents)) twoConnections).bind fun h =>
        h.threads[1]?.bind fun t => t.next.map fun _ => h.threads.length) = some 2 := rfl
  obtain ⟨h, hsteps, hthread⟩ := Option.bind_eq_some_iff.mp hview
  obtain ⟨t, ht, hnext⟩ := Option.bind_eq_some_iff.mp hthread
  obtain ⟨o, ho, hlength⟩ := Option.map_eq_some_iff.mp hnext
  exact ⟨h, hsteps, hlength, no_deadlock LockPolicy.queue_progresses hsteps ht ho⟩

end Daemon
end WakeMyPc
