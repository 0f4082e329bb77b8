import WakeMyPc.Daemon.ActivePhones
import WakeMyPc.Foundations.GuardedRuns

/-!
# The lock around the shared contents

The connections of a server share the keystore contents behind a readers-writer lock.
Here each task asks for the lock, works on the contents in several steps and gives the
lock back, and other tasks act in between.

Main results:

- Definition `LockHost.step`: one step of one process, with the lock.
- Theorem `sim_acceptConnection`: a connection with the lock carries out the connection
  whose reads and writes are single operations.
-/

namespace WakeMyPc
namespace Daemon

open Foundations
open Foundations.Prog (interpret)
open Protocol (SpkiHash)

/-- The operations of a task that shares the contents behind the lock. -/
abbrev LockOp := GuardOp Op KeystoreContents

/-- A task that shares the contents behind the lock. -/
abbrev LockTask (α : Type) := GuardProg Ans KeystoreContents α

/-- A thread that shares the contents behind the lock. -/
abbrev LockThread := GuardThread Ans KeystoreContents Kind

/-- What an operation does to the shared contents, if it is about them. -/
def Op.touches : (o : Op) → Option (KeystoreContents → Ans o × KeystoreContents)
  | .snapshot => some fun c => (c, c)
  | .write u => some u.run
  | _ => none

/-! ## Shared state -/

namespace SharedState

/-- Lock the contents for reading. -/
def read : LockTask Unit :=
  lockFor .shared

/-- Lock the contents for a change. -/
def write : LockTask Unit :=
  lockFor .exclusive

/-- Clone the contents. -/
def snapshot : LockTask KeystoreContents := do
  read
  let contents ← guardCall .get
  guardCall .release
  return contents

end SharedState

/-- The body of the loop over the records, for the `i`-th one; `next` goes on with the loop. -/
def addressBody (peerSpki : SpkiHash) (peerAddr : SocketAddr) (w : KeystoreContents) (i : ℕ)
    (next : LockTask Bool) : LockTask Bool :=
  match w.pairings[i]? with
  | none => return false
  | some p =>
      if p.clientSpki = peerSpki ∧ p.lastKnownAddress ≠ some peerAddr then do
        let pairings := w.pairings.set i { p with lastKnownAddress := some peerAddr }
        guardCall (.put { w with pairings })
        return true
      else next

/-- Set the address of the first record of a key that has another one, record by record. -/
def addressLoop (peerSpki : SpkiHash) (peerAddr : SocketAddr) : ℕ → ℕ → LockTask Bool
  | 0, _ => return false
  | n + 1, i => do
      let w : KeystoreContents ← guardCall .get
      addressBody peerSpki peerAddr w i (addressLoop peerSpki peerAddr n (i + 1))

/-- A block under the write lock, up to the release. -/
def Update.block : (u : Update) → LockTask u.Out
  | .lastKnownAddress peerSpki peerAddr => do
      let w : KeystoreContents ← guardCall .get
      let changed : Bool ← addressLoop peerSpki peerAddr w.pairings.length 0
      guardCall .release
      return changed
  | .reauthInterval newDays => do
      let w : KeystoreContents ← guardCall .get
      guardCall (.put { w with reauthIntervalDays := newDays })
      guardCall .release
      return ()
  | .removeRevoked peerSpki => do
      let before : KeystoreContents ← guardCall .get
      let w : KeystoreContents ← guardCall .get
      let pairings := w.pairings.filter fun p => !(p.clientSpki == peerSpki && p.revoked)
      guardCall (.put { w with pairings })
      let after : KeystoreContents ← guardCall .get
      guardCall .release
      return before.pairings.length - after.pairings.length

/-- Carry out an operation with the lock. -/
def carryOut : (o : Op) → LockTask (Ans o)
  | .snapshot => SharedState.snapshot
  | .write u => SharedState.write >>= fun _ => u.block
  | o => guardCall (.op o)

/-- Go past the lock. -/
def goPast (o : Op) : LockTask (Ans o) :=
  guardCall (.op o)

/-! ## Blocks are single operations -/

/-- The loop over the records does what the whole update does. -/
theorem solo_addressLoop {α : Type} {peerSpki : SpkiHash} {peerAddr : SocketAddr}
    (f : Bool → LockTask α) (c : KeystoreContents) (ps before : List PairingRecord)
    (hc : c.pairings = before ++ ps) :
    solo (addressLoop peerSpki peerAddr ps.length before.length >>= f) c =
      solo (f (setLastKnownAddress peerSpki peerAddr ps).1)
        { c with pairings := before ++ (setLastKnownAddress peerSpki peerAddr ps).2 } := by
  induction ps generalizing before with
  | nil =>
      rw [List.append_nil] at hc
      simp only [setLastKnownAddress, List.append_nil, ← hc]
      rfl
  | cons p ps ih =>
      have hget : c.pairings[before.length]? = some p := by simp [hc]
      have hbody : solo (addressLoop peerSpki peerAddr (p :: ps).length before.length >>= f) c =
          solo (addressBody peerSpki peerAddr c before.length
            (addressLoop peerSpki peerAddr ps.length (before.length + 1)) >>= f) c :=
        rfl
      simp only [hbody, addressBody, hget, setLastKnownAddress]
      split
      · have hset : c.pairings.set before.length { p with lastKnownAddress := some peerAddr } =
            before ++ { p with lastKnownAddress := some peerAddr } :: ps := by
          simp [hc]
        rw [hset]
        rfl
      · have hlater := ih (before ++ [p]) (by simp [hc])
        simpa using hlater

/-- A block does what the update does. -/
theorem solo_block (u : Update) (c : KeystoreContents) :
    solo u.block c = some (.ret (u.run c).1, (u.run c).2) := by
  cases u with
  | lastKnownAddress peerSpki peerAddr =>
      exact solo_addressLoop (fun changed => do
        guardCall .release
        return changed) c c.pairings [] rfl
  | reauthInterval newDays => rfl
  | removeRevoked peerSpki => rfl

/-- Every operation is carried out. -/
theorem sim_carryOut (o : Op) : Sim Op.touches .outside (carryOut o) (.call o .ret) := by
  cases o with
  | snapshot =>
      have hbody : ∀ c : KeystoreContents, Sim Op.touches (.reading c)
          (guardCall .release >>= fun _ => .ret c : LockTask KeystoreContents) (.ret c) :=
        fun c => .leave (.ret c)
      have htouches : Op.touches .snapshot = some fun c => (c, c) := rfl
      exact sim_read htouches (fun _ => rfl) hbody
  | write u =>
      have htouches : Op.touches (.write u) = some u.run := rfl
      exact sim_write htouches (solo_block u)
  | _ => exact sim_op rfl

/-! ## A connection with the lock -/

section Programs

-- the hash of the public key of a certificate, by the X.509 parser and SHA-256
variable (extractSpkiHash : Bytes → Except Crypto.Error SpkiHash)

namespace Locked

/-- The task once the key of the peer is known.  A peer without a live pairing is answered
while the contents are still locked for reading. -/
def servePeer (rounds reads : ℕ) (peerAddr : SocketAddr) (peerSpki : SpkiHash) :
    LockTask (Except RunError Unit) := do
  SharedState.read
  let snap : KeystoreContents ← guardCall .get
  if (snap.activePairing peerSpki).isSome then
    guardCall .release
    interpret carryOut (recordAddress peerSpki peerAddr)
    interpret carryOut (protocolLoop rounds reads peerSpki)
  else
    let result ← interpret goPast (sendErrorAndClose 0 .revoked)
    guardCall .release
    return result

/-- The task after the TLS handshake. -/
def run (rounds reads : ℕ) (peerAddr : SocketAddr) : LockTask (Except RunError Unit) := do
  match ← interpret carryOut (peerSpkiFromTls extractSpkiHash) with
  | .error e => return .error e
  | .ok peerSpki => servePeer rounds reads peerAddr peerSpki

/-- What the server does for one accepted connection. -/
def acceptConnection (rounds reads : ℕ) (peerAddr : SocketAddr) :
    LockTask (Except RunError Unit) := do
  let pins ← interpret carryOut buildAcceptor
  let handshake : Except IoError Unit ← goPast (.handshake (.pinned pins))
  match handshake with
  | .error e => return .error (.tlsHandshake e)
  | .ok () => run extractSpkiHash rounds reads peerAddr

end Locked

/-- The program of a thread. -/
def Kind.lockProgram : Kind → LockTask Unit
  | .connection _ peerAddr rounds reads => do
      let _ ← Locked.acceptConnection extractSpkiHash rounds reads peerAddr
      return ()
  | .command subcommand => interpret carryOut ((Kind.command subcommand).program extractSpkiHash)

variable {extractSpkiHash}

theorem sendErrorAndClose_uses (requestNonce : UInt64) (code : Protocol.ProtocolError) :
    (sendErrorAndClose requestNonce code).Uses fun o => o.touches = none := by
  unfold sendErrorAndClose
  split
  · trivial
  · split
    · trivial
    · exact ⟨rfl, fun _ => ⟨rfl, fun _ => trivial⟩⟩

/-- With the lock the task after the handshake is carried out. -/
theorem sim_run (rounds reads : ℕ) (peerAddr : SocketAddr) :
    Sim Op.touches .outside (Locked.run extractSpkiHash rounds reads peerAddr)
      (run extractSpkiHash rounds reads peerAddr) := by
  refine sim_bind (sim_interpret sim_carryOut _) fun result => ?_
  cases result with
  | error e => exact .ret _
  | ok peerSpki =>
      have htouches : Op.touches .snapshot = some fun c => (c, c) := rfl
      refine .request (.enter (.look htouches (fun _ => rfl) fun snap => ?_))
      change Sim Op.touches (.reading snap) (if _ then _ else _ : LockTask _) (if _ then _ else _)
      split
      · have hserve := sim_bind (sim_interpret sim_carryOut (recordAddress peerSpki peerAddr))
          fun _ => sim_interpret sim_carryOut (protocolLoop rounds reads peerSpki)
        exact .leave hserve
      · have hsend := sim_inside (s := snap) (sendErrorAndClose_uses 0 .revoked)
          (f := fun result => guardCall .release >>= fun _ => .ret result) (g := .ret)
          fun result => .leave (.ret result)
        rwa [Prog.bind_ret] at hsend

/-- With the lock a connection is carried out. -/
theorem sim_acceptConnection (rounds reads : ℕ) (peerAddr : SocketAddr) :
    Sim Op.touches .outside (Locked.acceptConnection extractSpkiHash rounds reads peerAddr)
      (acceptConnection extractSpkiHash rounds reads peerAddr) := by
  refine sim_bind (sim_interpret sim_carryOut _) fun pins => ?_
  refine .op rfl fun handshake => ?_
  cases handshake with
  | error e => exact .ret _
  | ok _ => exact sim_run rounds reads peerAddr

/-- The programs of all threads are carried out. -/
theorem sim_program (kind : Kind) :
    Sim Op.touches .outside (kind.lockProgram extractSpkiHash) (kind.program extractSpkiHash) := by
  cases kind with
  | connection certs peerAddr rounds reads =>
      exact sim_bind (sim_acceptConnection rounds reads peerAddr) fun _ => .ret ()
  | command command => exact sim_interpret sim_carryOut _

/-! ## The processes with the lock -/

variable (extractSpkiHash)

theorem answer_setServer (kind : Kind) (outside : (o : Op) → Ans o) (w : World)
    (c : KeystoreContents) {o : Op} (hother : o.touches = none) :
    kind.answer extractSpkiHash outside { w with server := some c } o =
      (kind.answer extractSpkiHash outside w o).map fun x =>
        (x.1, { x.2 with server := some c }) := by
  cases o with
  | snapshot => cases hother
  | write u => cases hother
  | load =>
      simp only [Kind.answer]
      cases outside .load <;> rfl
  | saveFile contents =>
      simp only [Kind.answer]
      cases outside (.saveFile contents) <;> rfl
  | handshake mode => cases kind <;> rfl
  | peerCertificates => cases kind <;> rfl
  | _ => rfl

theorem answer_server {kind : Kind} {outside : (o : Op) → Ans o} {w w' : World} {o : Op} {r : Ans o}
    (hother : o.touches = none) (h : kind.answer extractSpkiHash outside w o = some (r, w')) :
    w'.server = w.server := by
  cases effect_of_answer (e := ⟨o, r⟩) h with
  | write u _ => cases hother
  | _ => rfl

theorem answer_isSome (kind : Kind) (outside : (o : Op) → Ans o) (w : World) {o : Op}
    (hother : o.touches = none) : (kind.answer extractSpkiHash outside w o).isSome := by
  cases o with
  | snapshot => cases hother
  | write u => cases hother
  | load =>
      simp only [Kind.answer]
      cases outside .load <;> rfl
  | saveFile contents =>
      simp only [Kind.answer]
      cases outside (.saveFile contents) <;> rfl
  | handshake mode => cases kind <;> rfl
  | peerCertificates => cases kind <;> rfl
  | _ => rfl

/-- The contents in the memory of the server, and the answers of the processes. -/
def sharedContents : SharedValue Op Ans Kind KeystoreContents World where
  touches := Op.touches
  value w := w.server
  setValue w c := { w with server := some c }
  answer := Kind.answer extractSpkiHash
  value_setValue _ _ := rfl
  setValue_value h := by rw [← h]
  setValue_setValue _ _ _ := rfl
  answer_touches := by
    intro o f kind outside w c htouches hserver
    cases o with
    | snapshot =>
        obtain rfl := Option.some.inj htouches
        have hw : { w with server := some c } = w := by rw [← hserver]
        change (w.server.map fun c => (c, w)) = some (c, { w with server := some c })
        rw [hw, hserver]
        rfl
    | write u =>
        obtain rfl := Option.some.inj htouches
        exact congrArg (Option.map _) hserver
    | _ => cases htouches
  answer_setValue kind outside _ _ c hother _ :=
    answer_setServer extractSpkiHash kind outside _ c hother
  value_answer := answer_server extractSpkiHash
  answer_isSome kind outside w hother := answer_isSome extractSpkiHash kind outside w hother

/-- A connection that ends with the server. -/
def endLockConnection (t : LockThread) : LockThread :=
  if t.kind.isConnection then { t with rest := .stall } else t

/-- The processes of one PC, and the lock around the contents in the memory of the server. -/
structure LockHost where
  world : World
  lock : LockState
  threads : List LockThread

namespace LockHost

variable (policy : LockPolicy)

/-- No process runs, and the file was written from these contents. -/
def initial (file : Option KeystoreContents) : LockHost :=
  ⟨(Host.initial file).world, .unlocked, []⟩

/-- One thread performs its next operation. -/
def perform (h : LockHost) (i : ℕ) (outside : (o : Op) → Ans o) : Option LockHost :=
  match h.threads[i]? with
  | none => none
  | some t =>
      (t.perform (lockAnswer (sharedContents extractSpkiHash) policy i t.kind outside
        (h.world, h.lock))).map fun result =>
          ⟨result.2.2.1, result.2.2.2, h.threads.set i result.2.1⟩

/-- A thread that starts. -/
def start (h : LockHost) (kind : Kind) : LockHost :=
  { h with threads := h.threads ++ [⟨kind, [], kind.lockProgram extractSpkiHash⟩] }

/-- One step of one process, if it can be taken.  The lock is gone when the server ends. -/
def step (h : LockHost) : Action → Option LockHost
  | .start =>
      match h.world.server, h.world.file with
      | none, some c => some { h with world := { h.world with server := some c } }
      | _, _ => none
  | .stop => some ⟨{ h.world with server := none }, .unlocked, h.threads.map endLockConnection⟩
  | .accept certs peerAddr rounds reads =>
      if h.world.server.isSome then
        some (h.start extractSpkiHash (.connection certs peerAddr rounds reads))
      else none
  | .launch command => some (h.start extractSpkiHash (.command command))
  | .perform i outside => h.perform extractSpkiHash policy i outside

end LockHost

end Programs

end Daemon
end WakeMyPc
