import WakeMyPc.Daemon.Authorization

/-!
# The saves of a run

A ledger goes along with a run and keeps for each save that succeeded which copy it was
made from and by which edits.  A subcommand makes its edits on the copy that it loaded.
The copy of the server is what it last loaded or saved, and its edits are the updates
that have changed the shared contents since.

Main results:

- Theorem `Recorded.host_of_steps`: the ledger changes nothing about the run.
- Theorem `balanced_of_steps`: every save of a run is what its edits make of its copy,
  and the file holds what was saved last.
-/

namespace WakeMyPc
namespace Daemon

open Foundations
open Protocol

/-! ## Updates that change something -/

/-- The block has changed the contents, by what it hands out. -/
def Update.changed : (u : Update) → u.Out → Bool
  | .lastKnownAddress _ _, changed => changed
  | .reauthInterval _, _ => true
  | .removeRevoked _, removed =>
      let count : ℕ := removed
      decide (count > 0)

private theorem setLastKnownAddress_unchanged {peerSpki : SpkiHash} {peerAddr : SocketAddr}
    {ps : List PairingRecord} (h : (setLastKnownAddress peerSpki peerAddr ps).1 = false) :
    (setLastKnownAddress peerSpki peerAddr ps).2 = ps := by
  induction ps with
  | nil => rfl
  | cons p ps ih =>
      simp only [setLastKnownAddress] at h ⊢
      split at h
      · simp at h
      · next hcond =>
          rw [if_neg hcond]
          exact congrArg (p :: ·) (ih h)

/-- A block that reports no change leaves the contents as they are. -/
theorem Update.apply_unchanged {u : Update} {c : KeystoreContents}
    (h : u.changed (u.run c).1 = false) : u.apply c = c := by
  cases u with
  | lastKnownAddress peerSpki peerAddr =>
      have hsame := setLastKnownAddress_unchanged h
      simp only [Update.apply, Update.run, hsame]
  | reauthInterval newDays => simp [Update.changed] at h
  | removeRevoked peerSpki =>
      have hlen : ¬ c.pairings.length - (c.pairings.filter fun p =>
          !(p.clientSpki == peerSpki && p.revoked)).length > 0 := of_decide_eq_false h
      have hsame := List.filter_sublist.eq_of_length_le (Nat.sub_eq_zero_iff_le.mp
        (Nat.eq_zero_of_not_pos hlen))
      simp only [Update.apply, Update.run, hsame]

/-! ## The ledger -/

/-- What a copy of the shared contents is made of: what the server had last loaded or
saved, the edits since, and the edits that came after the copy was taken. -/
structure Copy where
  saved : KeystoreContents
  unsaved : List Edit
  later : List Edit

/-- A save that succeeded: what the processes shared before it, and how the saved
contents were made. -/
structure Commit where
  saver : Kind
  world : World
  copy : KeystoreContents
  edits : List Edit
  contents : KeystoreContents

/-- The ledger of a run. -/
structure Ledger where
  /-- The saves, the newest first. -/
  commits : List Commit
  /-- The number of saves before a thread started. -/
  startedAt : ℕ → ℕ
  /-- What the server has last loaded or saved. -/
  saved : KeystoreContents
  /-- The edits of the shared contents since. -/
  unsaved : List Edit
  /-- The last copy of each thread. -/
  copies : ℕ → Copy

namespace Ledger

/-- Nothing has been saved. -/
def empty : Ledger :=
  let nothing : KeystoreContents := .fromIdentity ⟨[], []⟩
  ⟨[], fun _ => 0, nothing, [], fun _ => ⟨nothing, [], []⟩⟩

/-- The save of a thread. -/
def commit (l : Ledger) (i : ℕ) (t : DaemonThread) (w : World) (contents : KeystoreContents) :
    Commit :=
  match t.kind with
  | .connection _ _ _ _ => ⟨t.kind, w, (l.copies i).saved, (l.copies i).unsaved, contents⟩
  | .command command =>
      ⟨t.kind, w, (copyOf t.done).getD contents, command.edits contents, contents⟩

/-- Add the save of a thread.  A save of the server becomes what it has saved last. -/
def addCommit (l : Ledger) (i : ℕ) (t : DaemonThread) (w : World) (contents : KeystoreContents) :
    Ledger :=
  let commits := l.commit i t w contents :: l.commits
  match t.kind with
  | .connection _ _ _ _ => { l with commits, saved := contents, unsaved := (l.copies i).later }
  | .command _ => { l with commits }

/-- Add an edit of the shared contents. -/
def addEdit (l : Ledger) (e : Edit) : Ledger :=
  { l with
    unsaved := l.unsaved ++ [e]
    copies := fun j => { l.copies j with later := (l.copies j).later ++ [e] } }

/-- The ledger after an operation of a thread. -/
def afterEvent (l : Ledger) (i : ℕ) (t : DaemonThread) (w : World) : TaskEvent → Ledger
  | ⟨.snapshot, _⟩ =>
      { l with copies := fun j => if j = i then ⟨l.saved, l.unsaved, []⟩ else l.copies j }
  | ⟨.write u, out⟩ => if u.changed out then l.addEdit (.update u) else l
  | ⟨.saveFile contents, result⟩ =>
      match (result : Except KeystoreError Unit) with
      | .error _ => l
      | .ok () => l.addCommit i t w contents
  | _ => l

@[simp]
theorem commit_world (l : Ledger) (i : ℕ) (t : DaemonThread) (w : World)
    (contents : KeystoreContents) : (l.commit i t w contents).world = w := by
  unfold commit
  split <;> rfl

@[simp]
theorem commit_contents (l : Ledger) (i : ℕ) (t : DaemonThread) (w : World)
    (contents : KeystoreContents) : (l.commit i t w contents).contents = contents := by
  unfold commit
  split <;> rfl

theorem afterEvent_saved (l : Ledger) (i : ℕ) (t : DaemonThread) (w : World)
    (contents : KeystoreContents) :
    (l.afterEvent i t w ⟨.saveFile contents, Except.ok ()⟩).commits =
      l.commit i t w contents :: l.commits := by
  simp only [afterEvent, addCommit]
  split <;> rfl

theorem afterEvent_startedAt (l : Ledger) (i : ℕ) (t : DaemonThread) (w : World) (e : TaskEvent) :
    (l.afterEvent i t w e).startedAt = l.startedAt := by
  unfold afterEvent
  split
  · rfl
  · split <;> rfl
  · split
    · rfl
    · unfold addCommit
      split <;> rfl
  · rfl

theorem commits_afterEvent (l : Ledger) (i : ℕ) (t : DaemonThread) (w : World) (e : TaskEvent) :
    l.commits ⊆ (l.afterEvent i t w e).commits := by
  unfold afterEvent
  split
  · exact List.Subset.refl _
  · split <;> exact List.Subset.refl _
  · split
    · exact List.Subset.refl _
    · unfold addCommit
      split <;> exact List.subset_cons_self _ _
  · exact List.Subset.refl _

/-- The ledger when a thread starts. -/
def afterStart (l : Ledger) (i : ℕ) : Ledger :=
  { l with startedAt := fun j => if j = i then l.commits.length else l.startedAt j }

section After

variable (extractSpkiHash : Bytes → Except Crypto.Error SpkiHash)

/-- The ledger after an action. -/
def after (l : Ledger) (h : Host) : Action → Ledger
  | .start =>
      match h.world.file with
      | some c => { l with saved := c, unsaved := [] }
      | none => l
  | .stop => l
  | .accept _ _ _ _ => l.afterStart h.threads.length
  | .launch _ => l.afterStart h.threads.length
  | .perform i outside =>
      match h.threads[i]?, h.perform extractSpkiHash i outside with
      | some t, some (e, _) => l.afterEvent i t h.world e
      | _, _ => l

end After
end Ledger

/-- A run with its ledger. -/
structure Recorded where
  host : Host
  ledger : Ledger

namespace Recorded

section Step

variable (extractSpkiHash : Bytes → Except Crypto.Error SpkiHash)

/-- No process runs, and nothing has been saved. -/
def initial (file : Option KeystoreContents) : Recorded :=
  ⟨Host.initial file, Ledger.empty⟩

/-- One step, recorded. -/
def step (r : Recorded) (a : Action) : Option Recorded :=
  (r.host.step extractSpkiHash a).map fun host => ⟨host, r.ledger.after extractSpkiHash r.host a⟩

/-- The ledger changes nothing about the run. -/
theorem host_of_steps (r : Recorded) (actions : List Action) :
    (takeSteps (step extractSpkiHash) r actions).map host =
      takeSteps (Host.step extractSpkiHash) r.host actions :=
  takeSteps_map host (fun r a => by simp [step, Function.comp_def]) r actions

/-- The cases of a recorded step. -/
inductive Stepped (r : Recorded) : Recorded → Prop where
  | start {c : KeystoreContents} (hserver : r.host.world.server = none)
      (hfile : r.host.world.file = some c) :
      Stepped r ⟨{ r.host with world := { r.host.world with server := some c } },
        { r.ledger with saved := c, unsaved := [] }⟩
  | stop :
      Stepped r ⟨⟨{ r.host.world with server := none }, r.host.threads.map endConnection⟩, r.ledger⟩
  | thread (kind : Kind)
      (halive : kind.isConnection = true → r.host.world.server.isSome = true) :
      Stepped r ⟨{ r.host with threads := r.host.threads ++ [kind.thread extractSpkiHash] },
        r.ledger.afterStart r.host.threads.length⟩
  | perform {i : ℕ} {t t' : DaemonThread} {answer : (o : Op) → Option (Ans o × World)}
      {e : TaskEvent} {w : World} (ht : r.host.threads[i]? = some t)
      (hthread : t.perform answer = some (e, t', w))
      (heffect : Effect extractSpkiHash t.kind r.host.world e w) :
      Stepped r ⟨⟨w, r.host.threads.set i t'⟩, r.ledger.afterEvent i t r.host.world e⟩

variable {extractSpkiHash}

/-- A recorded step is one of these cases. -/
theorem stepped_of_step {r r' : Recorded} {a : Action}
    (hstep : r.step extractSpkiHash a = some r') : Stepped extractSpkiHash r r' := by
  obtain ⟨host, hhost, rfl⟩ := Option.map_eq_some_iff.mp hstep
  cases Host.stepped_of_step hhost with
  | @start c hserver hfile =>
      have hledger : r.ledger.after extractSpkiHash r.host .start =
          { r.ledger with saved := c, unsaved := [] } := by
        simp only [Ledger.after, hfile]
      rw [hledger]
      exact .start hserver hfile
  | stop => exact .stop
  | accept hserver certs peerAddr rounds reads =>
      exact .thread (.connection certs peerAddr rounds reads) fun _ => by rw [hserver]; rfl
  | launch command => exact .thread (.command command) fun h => by cases h
  | @perform i outside t t' e w ht hthread heffect =>
      have hperform := Host.perform_of_thread ht hthread
      simp only [Ledger.after, ht, hperform]
      exact .perform ht hthread heffect

/-- A ledger loses no save. -/
theorem commits_subset {r r' : Recorded} {a : Action}
    (hstep : r.step extractSpkiHash a = some r') : r.ledger.commits ⊆ r'.ledger.commits := by
  cases stepped_of_step hstep with
  | perform ht hthread heffect => exact Ledger.commits_afterEvent _ _ _ _ _
  | _ => exact List.Subset.refl _

end Step
end Recorded

/-! ## The file -/

/-- What the file holds after some saves. -/
def fileAfter (file : Option KeystoreContents) : List Commit → Option KeystoreContents
  | [] => file.map KeystoreContents.reloaded
  | x :: _ => some x.contents.reloaded

/-- What the file holds has nothing to lose. -/
theorem reloaded_of_fileAfter {file : Option KeystoreContents} {xs : List Commit}
    {c : KeystoreContents} (hc : fileAfter file xs = some c) : c.reloaded = c := by
  cases xs with
  | nil =>
      obtain ⟨c₀, -, rfl⟩ := Option.map_eq_some_iff.mp hc
      exact c₀.reloaded_reloaded
  | cons x xs =>
      obtain rfl := Option.some.inj hc
      exact x.contents.reloaded_reloaded

/-- Each save finds in the file what was saved before it. -/
def Linked (file : Option KeystoreContents) : List Commit → Prop
  | [] => True
  | x :: xs => x.world.file = fileAfter file xs ∧ Linked file xs

/-! ## What every step keeps -/

section Balanced

variable (extractSpkiHash : Bytes → Except Crypto.Error SpkiHash)

/-- The copy accounts for the contents that were read, and its later edits for what the
server holds now. -/
def CopyKeeps (w : World) (copy : Copy) (c : KeystoreContents) : Prop :=
  c = applyEdits copy.saved copy.unsaved ∧
    ∀ held, w.server = some held → held = applyEdits c copy.later

/-- The save is what its edits make of its copy, and the edits of a subcommand are its
own. -/
structure Commit.Made (x : Commit) : Prop where
  contents_eq : x.contents = applyEdits x.copy x.edits
  edits_eq : ∀ command, x.saver = .command command → x.edits = command.edits x.contents

/-- The ledger accounts for the run. -/
structure Balanced (file : Option KeystoreContents) (r : Recorded) : Prop where
  threads : ∀ t ∈ r.host.threads, ThreadKeeps extractSpkiHash t
  /-- Connections go on only while the server runs. -/
  alive : ∀ t ∈ r.host.threads, t.kind.isConnection = true → t.next.isSome = true →
    r.host.world.server.isSome = true
  server : ∀ held, r.host.world.server = some held →
    held = applyEdits r.ledger.saved r.ledger.unsaved
  copies : ∀ i t, r.host.threads[i]? = some t → t.kind.isConnection = true →
    t.next.isSome = true → ∀ c : KeystoreContents, t.done.getLast? = some ⟨.snapshot, c⟩ →
      CopyKeeps r.host.world (r.ledger.copies i) c
  commits : ∀ x ∈ r.ledger.commits, x.Made
  linked : Linked file r.ledger.commits
  file_eq : r.host.world.file = fileAfter file r.ledger.commits

variable {extractSpkiHash} {file : Option KeystoreContents} {r : Recorded}

theorem balanced_initial : Balanced extractSpkiHash file (Recorded.initial file) where
  threads := by simp [Recorded.initial, Host.initial]
  alive := by simp [Recorded.initial, Host.initial]
  server := by simp [Recorded.initial, Host.initial]
  copies := by simp [Recorded.initial, Host.initial]
  commits := by simp [Recorded.initial, Ledger.empty]
  linked := trivial
  file_eq := rfl

theorem applyEdits_concat (c : KeystoreContents) (edits : List Edit) (e : Edit) :
    applyEdits c (edits ++ [e]) = e.apply (applyEdits c edits) := by
  rw [applyEdits, List.foldl_append]
  rfl

/-- The server starts from the file, when no connection goes on. -/
private theorem balanced_start (hr : Balanced extractSpkiHash file r) {c : KeystoreContents}
    (hserver : r.host.world.server = none) :
    Balanced extractSpkiHash file
      ⟨{ r.host with world := { r.host.world with server := some c } },
        { r.ledger with saved := c, unsaved := [] }⟩ where
  threads := hr.threads
  alive _ _ _ _ := rfl
  server held hheld := (Option.some.inj hheld).symm
  copies i t ht hconnection hnext := by
    have halive := hr.alive t (List.mem_of_getElem? ht) hconnection hnext
    simp [hserver] at halive
  commits := hr.commits
  linked := hr.linked
  file_eq := hr.file_eq

/-- The server stops, and no connection goes on. -/
private theorem balanced_stop (hr : Balanced extractSpkiHash file r) :
    Balanced extractSpkiHash file
      ⟨⟨{ r.host.world with server := none }, r.host.threads.map endConnection⟩, r.ledger⟩ := by
  have hended : ∀ t ∈ r.host.threads.map endConnection,
      t.kind.isConnection = true → t.next.isSome = true → False := by
    intro t ht hconnection hnext
    obtain ⟨t₀, -, rfl⟩ := List.mem_map.mp ht
    unfold endConnection at hconnection hnext
    split at hnext
    · simp [Thread.next] at hnext
    · next hcommand =>
        rw [if_neg hcommand] at hconnection
        exact hcommand hconnection
  refine ⟨?_, ?_, by simp, ?_, hr.commits, hr.linked, hr.file_eq⟩
  · intro t ht
    obtain ⟨t₀, ht₀, rfl⟩ := List.mem_map.mp ht
    exact threadKeeps_end (hr.threads t₀ ht₀)
  · intro t ht hconnection hnext
    exact (hended t ht hconnection hnext).elim
  · intro i t ht hconnection hnext
    exact (hended t (List.mem_of_getElem? ht) hconnection hnext).elim

/-- A thread starts. -/
private theorem balanced_thread (hr : Balanced extractSpkiHash file r) (kind : Kind)
    (halive : kind.isConnection = true → r.host.world.server.isSome = true) :
    Balanced extractSpkiHash file
      ⟨{ r.host with threads := r.host.threads ++ [kind.thread extractSpkiHash] },
        r.ledger.afterStart r.host.threads.length⟩ where
  threads t ht := by
    rcases List.mem_append.mp ht with hold | hnew
    · exact hr.threads t hold
    · obtain rfl := List.mem_singleton.mp hnew
      exact threadKeeps_start kind
  alive t ht hconnection hnext := by
    rcases List.mem_append.mp ht with hold | hnew
    · exact hr.alive t hold hconnection hnext
    · obtain rfl := List.mem_singleton.mp hnew
      exact halive hconnection
  server := hr.server
  copies i t ht hconnection hnext c hlast := by
    rcases getElem?_concat_cases ht with hold | ⟨-, rfl⟩
    · exact hr.copies i t hold hconnection hnext c hlast
    · simp [Kind.thread] at hlast
  commits := hr.commits
  linked := hr.linked
  file_eq := hr.file_eq

/-- A thread performs an operation: what is left to show is about the server, its copies
and the saves. -/
private theorem balanced_perform (hr : Balanced extractSpkiHash file r) {i : ℕ}
    {t t' : DaemonThread} {answer : (o : Op) → Option (Ans o × World)} {e : TaskEvent} {w : World}
    (ht : r.host.threads[i]? = some t) (hthread : t.perform answer = some (e, t', w))
    (heffect : Effect extractSpkiHash t.kind r.host.world e w) {l : Ledger}
    (hserver : ∀ held, w.server = some held → held = applyEdits l.saved l.unsaved)
    (hnew : ∀ c : KeystoreContents, e = ⟨.snapshot, c⟩ → CopyKeeps w (l.copies i) c)
    (hold : ∀ (j : ℕ) (c : KeystoreContents), j ≠ i →
      CopyKeeps r.host.world (r.ledger.copies j) c → CopyKeeps w (l.copies j) c)
    (hcommits : ∀ x ∈ l.commits, x.Made)
    (hlinked : Linked file l.commits) (hfile : w.file = fileAfter file l.commits) :
    Balanced extractSpkiHash file ⟨⟨w, r.host.threads.set i t'⟩, l⟩ := by
  obtain ⟨k, hrest, -, hafter⟩ := Thread.perform_eq_some hthread
  have hnext : t.next.isSome = true := by rw [Thread.next, hrest]; rfl
  have hmem := List.mem_of_getElem? ht
  have hrunning : r.host.world.server.isSome = true → w.server.isSome = true := by
    intro hsome
    cases heffect <;> first | exact hsome | rfl
  refine ⟨?_, ?_, hserver, ?_, hcommits, hlinked, hfile⟩
  · intro t₁ ht₁
    rcases List.mem_or_eq_of_mem_set ht₁ with hother | rfl
    · exact hr.threads t₁ hother
    · exact threadKeeps_perform (hr.threads t hmem) hthread heffect
  · intro t₁ ht₁ hconnection hnext₁
    rcases List.mem_or_eq_of_mem_set ht₁ with hother | rfl
    · exact hrunning (hr.alive t₁ hother hconnection hnext₁)
    · exact hrunning (hr.alive t hmem (by rw [hafter] at hconnection; exact hconnection) hnext)
  · intro j t₁ ht₁ hconnection hnext₁ c hlast
    rcases getElem?_set_cases ht₁ with ⟨rfl, rfl⟩ | ⟨hne, hother⟩
    · rw [hafter, List.getLast?_concat] at hlast
      exact hnew c (Option.some.inj hlast)
    · exact hold j c hne (hr.copies j t₁ hother hconnection hnext₁ c hlast)

/-- A copy is taken. -/
private theorem balanced_snapshot (hr : Balanced extractSpkiHash file r) {i : ℕ}
    {t t' : DaemonThread} {answer : (o : Op) → Option (Ans o × World)} {c : KeystoreContents}
    (ht : r.host.threads[i]? = some t) (hserver : r.host.world.server = some c)
    (hthread : t.perform answer = some (⟨.snapshot, c⟩, t', r.host.world)) :
    Balanced extractSpkiHash file
      ⟨⟨r.host.world, r.host.threads.set i t'⟩,
        r.ledger.afterEvent i t r.host.world ⟨.snapshot, c⟩⟩ := by
  refine balanced_perform hr ht hthread (.snapshot hserver) hr.server ?_ ?_ hr.commits hr.linked
    hr.file_eq
  · intro c' heq
    cases heq
    simp only [Ledger.afterEvent, if_pos]
    refine ⟨hr.server c hserver, fun held hheld => ?_⟩
    exact (Option.some.inj (hserver.symm.trans hheld)).symm
  · intro j c' hne hkeeps
    simp only [Ledger.afterEvent, if_neg hne]
    exact hkeeps

/-- The shared contents are changed. -/
private theorem balanced_write (hr : Balanced extractSpkiHash file r) {i : ℕ}
    {t t' : DaemonThread} {answer : (o : Op) → Option (Ans o × World)} {c : KeystoreContents}
    {u : Update} (ht : r.host.threads[i]? = some t) (hserver : r.host.world.server = some c)
    (hthread : t.perform answer =
      some (⟨.write u, (u.run c).1⟩, t', { r.host.world with server := some (u.apply c) })) :
    Balanced extractSpkiHash file
      ⟨⟨{ r.host.world with server := some (u.apply c) }, r.host.threads.set i t'⟩,
        r.ledger.afterEvent i t r.host.world ⟨.write u, (u.run c).1⟩⟩ := by
  have hnew : ∀ (l : Ledger) (c' : KeystoreContents),
      (⟨.write u, (u.run c).1⟩ : TaskEvent) = ⟨.snapshot, c'⟩ →
      CopyKeeps { r.host.world with server := some (u.apply c) } (l.copies i) c' := by
    intro l c' heq
    cases heq
  simp only [Ledger.afterEvent]
  split
  · refine balanced_perform hr ht hthread (.write u hserver) ?_ (hnew _) ?_ hr.commits hr.linked
      hr.file_eq
    · intro held hheld
      rw [← Option.some.inj hheld, Ledger.addEdit, applyEdits_concat, ← hr.server c hserver]
      rfl
    · rintro j c' - ⟨hcopy, hlater⟩
      refine ⟨hcopy, fun held hheld => ?_⟩
      rw [← Option.some.inj hheld, Ledger.addEdit, applyEdits_concat, ← hlater c hserver]
      rfl
  · next hsame =>
      have happly : u.apply c = c := Update.apply_unchanged (by simpa using hsame)
      refine balanced_perform hr ht hthread (.write u hserver) ?_ (hnew _) ?_ hr.commits hr.linked
        hr.file_eq
      · intro held hheld
        rw [← Option.some.inj hheld, happly]
        exact hr.server c hserver
      · rintro j c' - ⟨hcopy, hlater⟩
        refine ⟨hcopy, fun held hheld => ?_⟩
        rw [← Option.some.inj hheld, happly]
        exact hlater c hserver

/-- The contents are saved. -/
private theorem balanced_save (hr : Balanced extractSpkiHash file r) {i : ℕ}
    {t t' : DaemonThread} {answer : (o : Op) → Option (Ans o × World)} {c : KeystoreContents}
    (ht : r.host.threads[i]? = some t)
    (hthread : t.perform answer =
      some (⟨.saveFile c, Except.ok ()⟩, t', { r.host.world with file := some c.reloaded })) :
    Balanced extractSpkiHash file
      ⟨⟨{ r.host.world with file := some c.reloaded }, r.host.threads.set i t'⟩,
        r.ledger.afterEvent i t r.host.world ⟨.saveFile c, Except.ok ()⟩⟩ := by
  have hnext := Thread.next_of_perform hthread
  have hmem := List.mem_of_getElem? ht
  have hkeeps := hr.threads t hmem
  have hnew : ∀ (l : Ledger) (c' : KeystoreContents),
      (⟨.saveFile c, Except.ok ()⟩ : TaskEvent) = ⟨.snapshot, c'⟩ →
      CopyKeeps { r.host.world with file := some c.reloaded } (l.copies i) c' := by
    intro l c' heq
    cases heq
  simp only [Ledger.afterEvent, Ledger.addCommit, Ledger.commit]
  unfold ThreadKeeps at hkeeps
  cases hkind : t.kind with
  | connection certs peerAddr rounds reads =>
      simp only [hkind] at hkeeps
      obtain ⟨-, front, hdone⟩ := hkeeps.keeps.next hnext
      obtain ⟨hcopy, hlater⟩ := hr.copies i t ht (by rw [hkind]; rfl) (by rw [hnext]; rfl) c
        (by rw [hdone, List.getLast?_concat])
      refine balanced_perform hr ht hthread (.saved c) hlater (hnew _) (fun _ _ _ hold => hold) ?_
        ⟨hr.file_eq, hr.linked⟩ rfl
      intro x hx
      rcases List.mem_cons.mp hx with rfl | hx
      · exact ⟨hcopy, fun command heq => by simp at heq⟩
      · exact hr.commits x hx
  | command command =>
      simp only [hkind] at hkeeps
      obtain ⟨copy, hcopy, hedits⟩ := hkeeps.next hnext
      refine balanced_perform hr ht hthread (.saved c) hr.server (hnew _)
        (fun _ _ _ hold => hold) ?_ ⟨hr.file_eq, hr.linked⟩ rfl
      intro x hx
      rcases List.mem_cons.mp hx with rfl | hx
      · refine ⟨by simp only [hcopy, Option.getD_some, hedits], fun command' heq => ?_⟩
        obtain rfl := Kind.command.inj heq
        rfl
      · exact hr.commits x hx

/-- An operation that changes nothing shared. -/
private theorem balanced_same (hr : Balanced extractSpkiHash file r) {i : ℕ}
    {t t' : DaemonThread} {answer : (o : Op) → Option (Ans o × World)} {e : TaskEvent}
    (ht : r.host.threads[i]? = some t)
    (hthread : t.perform answer = some (e, t', r.host.world))
    (heffect : Effect extractSpkiHash t.kind r.host.world e r.host.world)
    (hother : ∀ c : KeystoreContents, e ≠ ⟨.snapshot, c⟩)
    (hsame : r.ledger.afterEvent i t r.host.world e = r.ledger) :
    Balanced extractSpkiHash file
      ⟨⟨r.host.world, r.host.threads.set i t'⟩, r.ledger.afterEvent i t r.host.world e⟩ := by
  rw [hsame]
  exact balanced_perform hr ht hthread heffect hr.server (fun c heq => absurd heq (hother c))
    (fun _ _ _ hold => hold) hr.commits hr.linked hr.file_eq

/-- The ledger accounts for the run after every step. -/
theorem balanced_step {r' : Recorded} {a : Action} (hr : Balanced extractSpkiHash file r)
    (hstep : r.step extractSpkiHash a = some r') : Balanced extractSpkiHash file r' := by
  cases Recorded.stepped_of_step hstep with
  | start hserver hfile => exact balanced_start hr hserver
  | stop => exact balanced_stop hr
  | thread kind halive => exact balanced_thread hr kind halive
  | @perform i t t' answer e w ht hthread heffect =>
      have heffect' := heffect
      cases heffect with
      | snapshot hserver => exact balanced_snapshot hr ht hserver hthread
      | write u hserver => exact balanced_write hr ht hserver hthread
      | saved c => exact balanced_save hr ht hthread
      | loaded => exact balanced_same hr ht hthread heffect' (fun c heq => by cases heq) rfl
      | loadFailed e => exact balanced_same hr ht hthread heffect' (fun c heq => by cases heq) rfl
      | saveFailed c e => exact balanced_same hr ht hthread heffect' (fun c heq => by cases heq) rfl
      | other hother hpeer =>
          refine balanced_same hr ht hthread heffect' (fun c heq => ?_) ?_
          · rw [heq] at hother
            simp [Op.isShared] at hother
          · obtain ⟨o, ans⟩ := e
            cases o <;> first | rfl | simp [Op.isShared] at hother

/-- The ledger accounts for every run. -/
theorem balanced_of_steps {actions : List Action}
    (hsteps : takeSteps (Recorded.step extractSpkiHash) (Recorded.initial file) actions = some r) :
    Balanced extractSpkiHash file r :=
  takeSteps_invariant (Balanced extractSpkiHash file) (fun _ _ _ hr hstep => balanced_step hr hstep)
    balanced_initial hsteps

end Balanced

end Daemon
end WakeMyPc
