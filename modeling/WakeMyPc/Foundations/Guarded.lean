import WakeMyPc.Foundations.Interpretation
import WakeMyPc.Foundations.Runs

/-!
# Values that are guarded by a lock

Threads share a value behind a readers-writer lock.  Under the lock a thread reads and
changes the value in several steps; an operation of a coarser signature does all of them
at once.  A program with locks carries out one with such operations when each of its
critical sections amounts to one operation.

Main results:

- Theorem `sim_bind`: programs that carry out programs can be composed.
- Theorem `sim_interpret`: it is enough to look at each critical section.
-/

namespace Foundations

/-! ## The lock -/

/-- What the holder of a lock may do with the value: read it, or change it as well. -/
inductive Access where
  | shared
  | exclusive
deriving DecidableEq

/-- Who holds a readers-writer lock, and who waits for it, the oldest request first. -/
structure LockState where
  holders : List (ℕ × Access)
  waiting : List (ℕ × Access)
deriving DecidableEq

namespace LockState

/-- Nobody holds the lock, and nobody waits. -/
def unlocked : LockState :=
  ⟨[], []⟩

/-- The threads that hold the lock or wait for it. -/
def owners (l : LockState) : List ℕ :=
  (l.holders ++ l.waiting).map Prod.fst

def request (l : LockState) (i : ℕ) (a : Access) : LockState :=
  { l with waiting := l.waiting ++ [(i, a)] }

def grant (l : LockState) (i : ℕ) (a : Access) : LockState :=
  ⟨l.holders ++ [(i, a)], l.waiting.erase (i, a)⟩

def release (l : LockState) (i : ℕ) : LockState :=
  { l with holders := l.holders.filter fun x => x.1 != i }

/-- The holders admit one more holder: readers admit readers. -/
def Admits (l : LockState) : Access → Prop
  | .shared => ∀ x ∈ l.holders, x.2 = .shared
  | .exclusive => l.holders = []

instance (l : LockState) (a : Access) : Decidable (l.Admits a) :=
  match a with
  | .shared => inferInstanceAs (Decidable (∀ x ∈ l.holders, x.2 = .shared))
  | .exclusive => inferInstanceAs (Decidable (l.holders = []))

end LockState

/-- To whom a lock may be granted: to one that waits for it and is admitted. -/
structure LockPolicy where
  grants : LockState → ℕ → Access → Bool
  waits : ∀ {l i a}, grants l i a = true → (i, a) ∈ l.waiting
  admits : ∀ {l i a}, grants l i a = true → l.Admits a

namespace LockPolicy

/-- A lock that nobody holds is granted to one that waits. -/
def Progresses (policy : LockPolicy) : Prop :=
  ∀ l : LockState, l.holders = [] → l.waiting ≠ [] → ∃ i a, policy.grants l i a = true

/-- First come, first served. -/
def queue : LockPolicy where
  grants l i a := decide (l.waiting.head? = some (i, a) ∧ l.Admits a)
  waits h := List.mem_of_head? (of_decide_eq_true h).1
  admits h := (of_decide_eq_true h).2

theorem queue_progresses : queue.Progresses := by
  rintro ⟨holders, waiting⟩ rfl hwaiting
  obtain ⟨⟨i, a⟩, rest, rfl⟩ := List.exists_cons_of_ne_nil hwaiting
  refine ⟨i, a, decide_eq_true ⟨rfl, ?_⟩⟩
  cases a with
  | shared =>
      intro x hx
      cases hx
  | exclusive => rfl

end LockPolicy

/-! ## Programs with locks -/

/-- The operations of a program that shares a value behind a lock: to ask for the lock, to
wait for it and to give it back, to read and change the value, and all others. -/
inductive GuardOp (Op S : Type) where
  | request (a : Access)
  | acquire (a : Access)
  | release
  | get
  | put (s : S)
  | op (o : Op)

/-- The answers of each operation. -/
def GuardAns {Op : Type} (Ans : Op → Type) (S : Type) : GuardOp Op S → Type
  | .request _ => Unit
  | .acquire _ => Unit
  | .release => Unit
  | .get => S
  | .put _ => Unit
  | .op o => Ans o

/-- A program with locks. -/
abbrev GuardProg {Op : Type} (Ans : Op → Type) (S α : Type) :=
  Prog (GuardOp Op S) (GuardAns Ans S) α

section Programs

variable {Op S α β : Type} {Ans : Op → Type}

/-- Perform one operation of a program with locks. -/
def guardCall (o : GuardOp Op S) : GuardProg Ans S (GuardAns Ans S o) :=
  .call o .ret

/-- Ask for the lock and wait for it. -/
def lockFor (a : Access) : GuardProg Ans S Unit := do
  guardCall (.request a)
  guardCall (.acquire a)

/-- What a program does with the value while it alone holds the lock, up to the release:
what is left of it, and the value. -/
def solo : GuardProg Ans S α → S → Option (GuardProg Ans S α × S)
  | .call .get k, s => solo (k s) s
  | .call (.put s) k, _ => solo (k ()) s
  | .call .release k, s => some (k (), s)
  | .call (.request _) _, _ => none
  | .call (.acquire _) _, _ => none
  | .call (.op _) _, _ => none
  | .ret _, _ => none
  | .stall, _ => none

theorem solo_bind {p : GuardProg Ans S α} {f : α → GuardProg Ans S β} {s s' : S}
    {rest : GuardProg Ans S α} (h : solo p s = some (rest, s')) :
    solo (p >>= f) s = some (rest >>= f, s') := by
  induction p generalizing s with
  | ret a => simp [solo] at h
  | stall => simp [solo] at h
  | call o k ih =>
      cases o with
      | get => exact ih s h
      | put s₁ => exact ih () h
      | release =>
          obtain ⟨rfl, rfl⟩ := Prod.mk.inj (Option.some.inj h)
          rfl
      | request a => simp [solo] at h
      | acquire a => simp [solo] at h
      | op o => simp [solo] at h

/-! ## Critical sections -/

/-- How far a thread is with a critical section: outside of it, waiting for the lock, in
it before its first look at the value, or in it, as a reader, after it has seen `s`. -/
inductive Phase (S : Type) where
  | outside
  | queued (a : Access)
  | entered
  | reading (s : S)

-- what an operation does to the shared value, if it is about that value
variable (touches : (o : Op) → Option (S → Ans o × S))

/-- In a phase, the program with locks carries out the rest of the other program.  A reader
stands for its operation when it first looks at the value, a writer when it gives the lock
back. -/
inductive Sim : Phase S → GuardProg Ans S α → Prog Op Ans α → Prop where
  | ret (a : α) : Sim .outside (.ret a) (.ret a)
  | stall : Sim .outside .stall .stall
  | op {o : Op} {k : Ans o → GuardProg Ans S α} {k' : Ans o → Prog Op Ans α}
      (hother : touches o = none) (hrest : ∀ r, Sim .outside (k r) (k' r)) :
      Sim .outside (.call (.op o) k) (.call o k')
  | request {a : Access} {k : Unit → GuardProg Ans S α} {p : Prog Op Ans α}
      (hrest : Sim (.queued a) (k ()) p) : Sim .outside (.call (.request a) k) p
  | enter {k : Unit → GuardProg Ans S α} {p : Prog Op Ans α} (hrest : Sim .entered (k ()) p) :
      Sim (.queued .shared) (.call (.acquire .shared) k) p
  | look {o : Op} {f : S → Ans o × S} {k : S → GuardProg Ans S α} {k' : Ans o → Prog Op Ans α}
      (htouches : touches o = some f) (hsame : ∀ s, (f s).2 = s)
      (hrest : ∀ s, Sim (.reading s) (k s) (k' (f s).1)) :
      Sim .entered (.call .get k) (.call o k')
  | lookAgain {s : S} {k : S → GuardProg Ans S α} {p : Prog Op Ans α}
      (hrest : Sim (.reading s) (k s) p) : Sim (.reading s) (.call .get k) p
  | opInside {s : S} {o : Op} {k : Ans o → GuardProg Ans S α} {k' : Ans o → Prog Op Ans α}
      (hother : touches o = none) (hrest : ∀ r, Sim (.reading s) (k r) (k' r)) :
      Sim (.reading s) (.call (.op o) k) (.call o k')
  | leave {s : S} {k : Unit → GuardProg Ans S α} {p : Prog Op Ans α}
      (hrest : Sim .outside (k ()) p) : Sim (.reading s) (.call .release k) p
  | write {o : Op} {f : S → Ans o × S} {k : Unit → GuardProg Ans S α}
      {k' : Ans o → Prog Op Ans α} {rest : S → GuardProg Ans S α}
      (htouches : touches o = some f) (hsolo : ∀ s, solo (k ()) s = some (rest s, (f s).2))
      (hrest : ∀ s, Sim .outside (rest s) (k' (f s).1)) :
      Sim (.queued .exclusive) (.call (.acquire .exclusive) k) (.call o k')

variable {touches}

/-- Programs that carry out programs can be composed. -/
theorem sim_bind {phase : Phase S} {p : GuardProg Ans S α} {q : Prog Op Ans α}
    {f : α → GuardProg Ans S β} {g : α → Prog Op Ans β} (hp : Sim touches phase p q)
    (hf : ∀ a, Sim touches .outside (f a) (g a)) : Sim touches phase (p >>= f) (q >>= g) := by
  induction hp with
  | ret a => exact hf a
  | stall => exact .stall
  | op hother _ ih => exact .op hother ih
  | request _ ih => exact .request ih
  | enter _ ih => exact .enter ih
  | look htouches hsame _ ih => exact .look htouches hsame ih
  | lookAgain _ ih => exact .lookAgain ih
  | opInside hother _ ih => exact .opInside hother ih
  | leave _ ih => exact .leave ih
  | write htouches hsolo _ ih => exact .write htouches (fun s => solo_bind (hsolo s)) ih

/-- It is enough to look at each operation by itself. -/
theorem sim_interpret {block : (o : Op) → GuardProg Ans S (Ans o)}
    (hblock : ∀ o, Sim touches .outside (block o) (.call o .ret)) (p : Prog Op Ans α) :
    Sim touches .outside (Prog.interpret block p) p := by
  induction p with
  | ret a => exact .ret a
  | call o k ih => exact sim_bind (hblock o) ih
  | stall => exact .stall

/-- An operation that is not about the value stands for itself. -/
theorem sim_op {o : Op} (hother : touches o = none) :
    Sim touches .outside (guardCall (.op o) : GuardProg Ans S (Ans o)) (.call o .ret) :=
  .op hother fun r => .ret r

/-- A reader can do other things before it gives the lock back. -/
theorem sim_inside {s : S} {p : Prog Op Ans α} {f : α → GuardProg Ans S β} {g : α → Prog Op Ans β}
    (hp : p.Uses fun o => touches o = none) (hf : ∀ a, Sim touches (.reading s) (f a) (g a)) :
    Sim touches (.reading s) (Prog.interpret (fun o => guardCall (.op o)) p >>= f) (p >>= g) := by
  induction p with
  | ret a => exact hf a
  | call o k ih => exact .opInside hp.1 fun r => ih r (hp.2 r)
  | stall => exact hp.elim

/-- A section that looks at the value once and changes nothing. -/
theorem sim_read {o : Op} {f : S → Ans o × S} (htouches : touches o = some f)
    (hsame : ∀ s, (f s).2 = s) {body : S → GuardProg Ans S (Ans o)}
    (hbody : ∀ s, Sim touches (.reading s) (body s) (.ret (f s).1)) :
    Sim touches .outside (lockFor .shared >>= fun _ => guardCall .get >>= body) (.call o .ret) :=
  .request (.enter (.look htouches hsame hbody))

/-- A section that changes the value. -/
theorem sim_write {o : Op} {f : S → Ans o × S} (htouches : touches o = some f)
    {body : GuardProg Ans S (Ans o)}
    (hbody : ∀ s, solo body s = some (.ret (f s).1, (f s).2)) :
    Sim touches .outside (lockFor .exclusive >>= fun _ => body) (.call o .ret) :=
  .request (.write htouches hbody fun s => .ret (f s).1)

end Programs
end Foundations
