import Mathlib.Data.List.Basic
import Mathlib.Tactic.Common

/-!
# The tasks of the runtime

The runtime serves every connection in a task of its own.  Its workers poll the tasks, and a task
can have a blocking function run on yet another thread.  Dropping the runtime waits until every
task is gone and every such function has returned.

Main results:

- Definition `Runtime.step`: one step of one task.
- Theorem `Runtime.goes_on`: what the drop of the runtime waits for can go on.
-/

namespace WakeMyPc
namespace Daemon

/-! ## Tasks -/

/-- A task of a connection: it waits to be polled, it is polled, or it is gone.  It may have, or
have asked for, the lock of the contents for writing, and a blocking function that it had started
may still run. -/
inductive ConnectionTask where
  | waiting (writing blocking : Bool)
  | polled (writing blocking : Bool)
  | gone (blocking : Bool)
deriving DecidableEq

/-- What can happen to a task. -/
inductive TaskStep where
  /-- A worker polls it. -/
  | poll
  /-- The poll ends, and the task has to wait for something. -/
  | yield
  /-- The poll ends, and the connection with it. -/
  | finish
  | askWriting
  | releaseWriting
  | startBlocking
  | blockingReturns
  /-- The runtime drops it. -/
  | drop

namespace ConnectionTask

/-- A task that was just spawned. -/
def new : ConnectionTask :=
  .waiting false false

/-- One step of a task, if it can be taken; tasks are dropped only when the runtime is. -/
def step (up : Bool) : ConnectionTask → TaskStep → Option ConnectionTask
  | .waiting w b, .poll => some (.polled w b)
  | .polled w b, .yield => some (.waiting w b)
  | .polled _ b, .finish => some (.gone b)
  | .polled _ b, .askWriting => some (.polled true b)
  | .polled true b, .releaseWriting => some (.polled false b)
  | .polled w false, .startBlocking => some (.polled w true)
  | .waiting w true, .blockingReturns => some (.waiting w false)
  | .polled w true, .blockingReturns => some (.polled w false)
  | .gone true, .blockingReturns => some (.gone false)
  | .waiting _ b, .drop => if up then none else some (.gone b)
  | _, _ => none

/-- The task has, or has asked for, the lock of the contents for writing. -/
def writing : ConnectionTask → Bool
  | .waiting w _ => w
  | .polled w _ => w
  | .gone _ => false

/-- Neither the task nor a function of it goes on any more. -/
def finished : ConnectionTask → Bool
  | .gone false => true
  | _ => false

/-- A task that is finished stays as it is. -/
theorem step_of_finished {t : ConnectionTask} (h : t.finished = true) (up : Bool) (s : TaskStep) :
    t.step up s = none := by
  match t, h with
  | .gone false, _ => cases s <;> rfl

/-- A task that is not finished can go on. -/
theorem step_of_not_finished {t : ConnectionTask} (h : t.finished = false) (up : Bool) :
    ∃ s, (t.step up s).isSome := by
  match t, h with
  | .waiting _ _, _ => exact ⟨.poll, rfl⟩
  | .polled _ _, _ => exact ⟨.yield, rfl⟩
  | .gone true, _ => exact ⟨.blockingReturns, rfl⟩

theorem not_finished_of_writing {t : ConnectionTask} (h : t.writing = true) :
    t.finished = false := by
  cases t with
  | waiting w b => rfl
  | polled w b => rfl
  | gone b => cases h

end ConnectionTask

/-! ## The runtime -/

/-- The runtime: whether it is up, and the tasks that were spawned on it. -/
structure Runtime where
  up : Bool
  tasks : List ConnectionTask
deriving DecidableEq

namespace Runtime

/-- Before the runtime is built. -/
def absent : Runtime :=
  ⟨false, []⟩

/-- Spawn a task. -/
def spawn (r : Runtime) : Runtime :=
  { r with tasks := r.tasks ++ [.new] }

/-- Some task has, or has asked for, the lock of the contents for writing. -/
def writing (r : Runtime) : Bool :=
  r.tasks.any (·.writing)

/-- Nothing goes on any more. -/
def finished (r : Runtime) : Bool :=
  r.tasks.all (·.finished)

/-- One step of one task, if it can be taken. -/
def step (r : Runtime) (i : ℕ) (s : TaskStep) : Option Runtime :=
  r.tasks[i]?.bind fun t => (t.step r.up s).map fun t' => { r with tasks := r.tasks.set i t' }

@[simp]
theorem spawn_tasks (r : Runtime) : r.spawn.tasks = r.tasks ++ [.new] := rfl

/-- What a step of a task is. -/
theorem step_cases {r r' : Runtime} {i : ℕ} {s : TaskStep} (h : r.step i s = some r') :
    ∃ t t', t ∈ r.tasks ∧ t.step r.up s = some t' ∧ r' = { r with tasks := r.tasks.set i t' } := by
  obtain ⟨t, ht, hstep⟩ := Option.bind_eq_some_iff.mp h
  obtain ⟨t', ht', rfl⟩ := Option.map_eq_some_iff.mp hstep
  exact ⟨t, t', List.mem_of_getElem? ht, ht', rfl⟩

/-- No step adds a task. -/
theorem length_of_step {r r' : Runtime} {i : ℕ} {s : TaskStep} (h : r.step i s = some r') :
    r'.tasks.length = r.tasks.length := by
  obtain ⟨t, t', -, -, rfl⟩ := step_cases h
  exact List.length_set

/-- When everything is finished, nothing happens. -/
theorem step_of_finished {r : Runtime} (h : r.finished = true) (i : ℕ) (s : TaskStep) :
    r.step i s = none := by
  cases hstep : r.step i s with
  | none => rfl
  | some r' =>
      obtain ⟨t, t', ht, ht', -⟩ := step_cases hstep
      rw [ConnectionTask.step_of_finished (List.all_eq_true.mp h t ht)] at ht'
      cases ht'

/-- As long as not everything is finished, some task can go on. -/
theorem goes_on {r : Runtime} (h : r.finished = false) : ∃ i s, (r.step i s).isSome := by
  obtain ⟨t, ht, hfinished⟩ := List.all_eq_false.mp h
  obtain ⟨i, hi⟩ := List.getElem?_of_mem ht
  obtain ⟨s, hs⟩ := ConnectionTask.step_of_not_finished (eq_false_of_ne_true hfinished) r.up
  refine ⟨i, s, ?_⟩
  rw [step, hi]
  exact (Option.isSome_map ..).trans hs

theorem not_finished_of_writing {r : Runtime} (h : r.writing = true) : r.finished = false := by
  obtain ⟨t, ht, hwriting⟩ := List.any_eq_true.mp h
  refine List.all_eq_false.mpr ⟨t, ht, ?_⟩
  rw [ConnectionTask.not_finished_of_writing hwriting]
  exact Bool.false_ne_true

end Runtime
end Daemon
end WakeMyPc
