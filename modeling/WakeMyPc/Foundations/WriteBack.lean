import WakeMyPc.Foundations.Runs

/-!
# Writing shared data back to disk

Some tasks share data in memory and keep a copy of it on disk, in the form in which the disk
stores it.  A task that has changed the data takes a copy of it and later writes this copy to
disk, and other tasks may do the same in between.

Main results:

- Theorem `WriteBack.settled_step_iff`: the disk has the data or some task will write it,
  exactly as long as a task that writes an old copy leaves the data to another task.
- Theorem `WriteBack.not_settled_step`: without another change, an old copy on disk stays
  old.
-/

namespace Foundations

/-- How far a task is with a change of the data. -/
inductive Stage (α : Type) where
  | clean
  /-- The task has changed the data, and has no copy of it yet. -/
  | changed
  /-- The task has a copy, and has yet to write it. -/
  | copied (copy : α)
deriving DecidableEq

/-- The task will write the data as it is now, in the form that is stored. -/
def Stage.Renews {α β : Type} (store : α → β) (memory : α) : Stage α → Prop
  | .clean => False
  | .changed => True
  | .copied copy => store copy = store memory

instance {α β : Type} [DecidableEq β] (store : α → β) (memory : α) (stage : Stage α) :
    Decidable (stage.Renews store memory) :=
  match stage with
  | .clean => isFalse id
  | .changed => isTrue trivial
  | .copied _ => inferInstanceAs (Decidable (_ = _))

/-- The task has a copy that it has yet to write. -/
def Stage.isCopied {α : Type} : Stage α → Bool
  | .copied _ => true
  | _ => false

/-- Data in memory and on disk, and the tasks that share it. -/
structure WriteBack (α β : Type) where
  memory : α
  disk : β
  stages : List (Stage α)

/-- What can happen next. -/
inductive Move (α : Type) where
  /-- Nothing happens to the data. -/
  | wait
  /-- There is one more task. -/
  | join
  | change (task : ℕ) (data : α)
  | copy (task : ℕ)
  | publish (task : ℕ)

/-- The task changes the data. -/
def Move.isChange {α : Type} : Move α → Bool
  | .change _ _ => true
  | _ => false

namespace WriteBack

variable {α β : Type}

-- the form in which the disk stores the data
variable (store : α → β)

/-- Take one move. -/
def step (s : WriteBack α β) : Move α → Option (WriteBack α β)
  | .wait => some s
  | .join => some { s with stages := s.stages ++ [.clean] }
  | .change i data =>
      match s.stages[i]? with
      | some .clean => some { s with memory := data, stages := s.stages.set i .changed }
      | _ => none
  | .copy i =>
      match s.stages[i]? with
      | some .changed => some { s with stages := s.stages.set i (.copied s.memory) }
      | _ => none
  | .publish i =>
      match s.stages[i]? with
      | some (.copied copy) => some { s with disk := store copy, stages := s.stages.set i .clean }
      | _ => none

/-- No task is between a change and the end of its write. -/
def Quiet (s : WriteBack α β) : Prop :=
  ∀ stage ∈ s.stages, stage = .clean

instance [DecidableEq α] (s : WriteBack α β) : Decidable s.Quiet :=
  inferInstanceAs (Decidable (∀ stage ∈ s.stages, stage = .clean))

/-- The disk has the data, or some task will write it. -/
def Settled (s : WriteBack α β) : Prop :=
  s.disk = store s.memory ∨ ∃ stage ∈ s.stages, stage.Renews store s.memory

/-- A task that writes an old copy leaves it to another task to write the data. -/
def Fresh (s : WriteBack α β) : Move α → Prop
  | .publish i => ∀ stage ∈ s.stages[i]?, stage.isCopied = true →
      stage.Renews store s.memory ∨ ∃ other ∈ s.stages.eraseIdx i, other.Renews store s.memory
  | _ => True

instance [DecidableEq β] (s : WriteBack α β) (m : Move α) : Decidable (s.Fresh store m) :=
  match m with
  | .publish i => inferInstanceAs (Decidable (∀ stage ∈ s.stages[i]?, _ → _))
  | .wait => isTrue trivial
  | .join => isTrue trivial
  | .change _ _ => isTrue trivial
  | .copy _ => isTrue trivial

variable {store}

/-- When all is quiet, the disk has the data. -/
theorem Settled.disk_eq {s : WriteBack α β} (h : s.Settled store) (hquiet : s.Quiet) :
    s.disk = store s.memory := by
  rcases h with hsame | ⟨stage, hmem, hrenews⟩
  · exact hsame
  · rw [hquiet stage hmem] at hrenews
    exact hrenews.elim

variable (store) in
/-- The cases of a move. -/
inductive Stepped (s : WriteBack α β) : Move α → WriteBack α β → Prop where
  | wait : Stepped s .wait s
  | join : Stepped s .join { s with stages := s.stages ++ [.clean] }
  | change {i : ℕ} (data : α) (hstage : s.stages[i]? = some .clean) :
      Stepped s (.change i data) { s with memory := data, stages := s.stages.set i .changed }
  | copy {i : ℕ} (hstage : s.stages[i]? = some .changed) :
      Stepped s (.copy i) { s with stages := s.stages.set i (.copied s.memory) }
  | publish {i : ℕ} {copy : α} (hstage : s.stages[i]? = some (.copied copy)) :
      Stepped s (.publish i) { s with disk := store copy, stages := s.stages.set i .clean }

theorem stepped_of_step {s s' : WriteBack α β} {m : Move α} (hstep : s.step store m = some s') :
    Stepped store s m s' := by
  cases m with
  | wait =>
      obtain rfl := Option.some.inj hstep
      exact .wait
  | join =>
      obtain rfl := Option.some.inj hstep
      exact .join
  | change i data =>
      simp only [step] at hstep
      split at hstep
      · next hstage =>
          obtain rfl := Option.some.inj hstep
          exact .change data hstage
      · simp at hstep
  | copy i =>
      simp only [step] at hstep
      split at hstep
      · next hstage =>
          obtain rfl := Option.some.inj hstep
          exact .copy hstage
      · simp at hstep
  | publish i =>
      simp only [step] at hstep
      split at hstep
      · next hstage =>
          obtain rfl := Option.some.inj hstep
          exact .publish hstage
      · simp at hstep

/-- After a task has moved on, its stage is the new one, and the others are as before. -/
theorem exists_mem_set {stages : List (Stage α)} {i : ℕ} {old : Stage α}
    (hold : stages[i]? = some old) (new : Stage α) (P : Stage α → Prop) :
    (∃ stage ∈ stages.set i new, P stage) ↔ P new ∨ ∃ stage ∈ stages.eraseIdx i, P stage := by
  have hlt := (List.getElem?_eq_some_iff.mp hold).1
  constructor
  · rintro ⟨stage, hmem, hstage⟩
    obtain ⟨j, hj⟩ := List.mem_iff_getElem?.mp hmem
    rcases getElem?_set_cases hj with ⟨-, rfl⟩ | ⟨hji, hj⟩
    · exact .inl hstage
    · exact .inr ⟨stage, List.mem_eraseIdx_iff_getElem?.mpr ⟨j, hji, hj⟩, hstage⟩
  · rintro (hnew | ⟨stage, hmem, hstage⟩)
    · exact ⟨new, List.mem_set hlt new, hnew⟩
    · obtain ⟨j, hji, hj⟩ := List.mem_eraseIdx_iff_getElem?.mp hmem
      rw [← List.getElem?_set_ne (Ne.symm hji)] at hj
      exact ⟨stage, List.mem_of_getElem? hj, hstage⟩

/-- A task that has a stage has it, and the others have theirs. -/
theorem exists_mem_stages {stages : List (Stage α)} {i : ℕ} {old : Stage α}
    (hold : stages[i]? = some old) (P : Stage α → Prop) :
    (∃ stage ∈ stages, P stage) ↔ P old ∨ ∃ stage ∈ stages.eraseIdx i, P stage := by
  rw [← exists_mem_set hold old P, set_of_getElem? hold]

/-- Exactly the fresh moves keep the disk up to date, or some task to bring it up to date. -/
theorem settled_step_iff {s s' : WriteBack α β} {m : Move α} (h : s.Settled store)
    (hstep : s.step store m = some s') : s'.Settled store ↔ s.Fresh store m := by
  cases stepped_of_step hstep with
  | wait => exact iff_of_true h trivial
  | join =>
      refine iff_of_true ?_ trivial
      rcases h with hsame | ⟨stage, hmem, hrenews⟩
      · exact .inl hsame
      · exact .inr ⟨stage, List.mem_append_left _ hmem, hrenews⟩
  | change data hstage =>
      exact iff_of_true (.inr ((exists_mem_set hstage _ _).mpr (.inl trivial))) trivial
  | copy hstage => exact iff_of_true (.inr ((exists_mem_set hstage _ _).mpr (.inl rfl))) trivial
  | @publish i copy hstage =>
      have hclean : Stage.clean.Renews store s.memory ↔ False := Iff.rfl
      unfold Settled
      rw [exists_mem_set hstage, hclean, false_or]
      constructor
      · intro hsettled stage hmem _
        obtain rfl := Option.some.inj (hstage.symm.trans hmem)
        exact hsettled
      · exact fun hfresh => hfresh _ hstage rfl

/-- When no task will write the data, this is so until some task changes them again. -/
theorem not_settled_step {s s' : WriteBack α β} {m : Move α} (h : ¬ s.Settled store)
    (hchange : m.isChange = false) (hstep : s.step store m = some s') : ¬ s'.Settled store := by
  cases stepped_of_step hstep with
  | wait => exact h
  | join =>
      rintro (hsame | ⟨stage, hmem, hrenews⟩)
      · exact h (.inl hsame)
      · rcases List.mem_append.mp hmem with hold | hnew
        · exact h (.inr ⟨stage, hold, hrenews⟩)
        · obtain rfl := List.mem_singleton.mp hnew
          exact hrenews
  | change data hstage => simp [Move.isChange] at hchange
  | copy hstage => exact absurd (.inr ⟨_, List.mem_of_getElem? hstage, trivial⟩) h
  | @publish i copy hstage =>
      have hothers : ¬ ∃ stage ∈ s.stages.eraseIdx i, stage.Renews store s.memory := fun hothers =>
        h (.inr ((exists_mem_stages hstage _).mpr (.inr hothers)))
      rintro (hsame | hrenews)
      · exact h (.inr ⟨_, List.mem_of_getElem? hstage, hsame⟩)
      · rcases (exists_mem_set hstage _ _).mp hrenews with hclean | hother
        · exact hclean
        · exact hothers hother

end WriteBack
end Foundations
