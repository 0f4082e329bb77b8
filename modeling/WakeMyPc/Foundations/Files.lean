import Mathlib.Data.List.Basic
import Mathlib.Logic.Function.Basic
import Mathlib.Tactic.Basic

/-!
# Files and their names

A name leads to one file or to none.  A handle stays with its file when the name is
given to another file or the file gets another name.

Main results:

- Definitions `Files.create`, `Files.write` and `Files.rename`: the operations.
- Theorems `Files.read_create`, `Files.read_write` and `Files.read_rename`: what each of
  them changes of what can be read.
- Theorem `Files.read_rename_of_ne`: other names are read as before.
-/

namespace Foundations

/-- Files and the names that lead to them.  No two names lead to the same file. -/
structure Files (Name : Type) where
  /-- The file that a name leads to. -/
  entry : Name → Option ℕ
  bytes : ℕ → List UInt8
  /-- The number of files that were made so far. -/
  made : ℕ
  entry_lt : ∀ {n : Name} {f : ℕ}, entry n = some f → f < made
  entry_injective : ∀ {m n : Name} {f : ℕ}, entry m = some f → entry n = some f → m = n

namespace Files

variable {Name : Type}

/-- There is no file. -/
def empty : Files Name where
  entry _ := none
  bytes _ := []
  made := 0
  entry_lt h := by cases h
  entry_injective h _ := by cases h

/-- What is read through a name. -/
def read (files : Files Name) (n : Name) : Option (List UInt8) :=
  (files.entry n).map files.bytes

theorem read_of_entry {files : Files Name} {n : Name} {f : ℕ} (h : files.entry n = some f) :
    files.read n = some (files.bytes f) := by
  rw [read, h]
  rfl

/-! ## Writing through a handle -/

/-- Put other bytes in a file. -/
def setBytes (files : Files Name) (f : ℕ) (bytes : List UInt8) : Files Name :=
  { files with bytes := Function.update files.bytes f bytes }

/-- Write some bytes at the start of a file; what follows them stays. -/
def write (files : Files Name) (f : ℕ) (bytes : List UInt8) : Files Name :=
  files.setBytes f (bytes ++ (files.bytes f).drop bytes.length)

@[simp]
theorem setBytes_entry (files : Files Name) (f : ℕ) (bytes : List UInt8) :
    (files.setBytes f bytes).entry = files.entry :=
  rfl

@[simp]
theorem setBytes_bytes (files : Files Name) (f : ℕ) (bytes : List UInt8) :
    (files.setBytes f bytes).bytes f = bytes := by
  simp only [setBytes, Function.update_self]

/-- A file with another name is read as before. -/
theorem read_setBytes {files : Files Name} {m n : Name} {f : ℕ} (hn : files.entry n = some f)
    (hne : m ≠ n) (bytes : List UInt8) : (files.setBytes f bytes).read m = files.read m := by
  unfold read
  rw [setBytes_entry]
  cases hm : files.entry m with
  | none => rfl
  | some g =>
      have hgf : g ≠ f := by
        rintro rfl
        exact hne (files.entry_injective hm hn)
      simp only [setBytes, Option.map_some, Function.update_of_ne hgf]

@[simp]
theorem write_entry (files : Files Name) (f : ℕ) (bytes : List UInt8) :
    (files.write f bytes).entry = files.entry :=
  rfl

/-- An empty file holds what is written. -/
theorem write_bytes {files : Files Name} {f : ℕ} (h : files.bytes f = []) (bytes : List UInt8) :
    (files.write f bytes).bytes f = bytes := by
  simp [write, h]

theorem read_write {files : Files Name} {m n : Name} {f : ℕ} (hn : files.entry n = some f)
    (hne : m ≠ n) (bytes : List UInt8) : (files.write f bytes).read m = files.read m :=
  read_setBytes hn hne _

/-- The name of an empty file leads to what is written. -/
theorem read_write_self {files : Files Name} {n : Name} {f : ℕ} (hn : files.entry n = some f)
    (hempty : files.read n = some []) (bytes : List UInt8) :
    (files.write f bytes).read n = some bytes := by
  have hbytes : files.bytes f = [] := Option.some.inj ((read_of_entry hn).symm.trans hempty)
  have hentry : (files.write f bytes).entry n = some f := hn
  rw [read_of_entry hentry, write_bytes hbytes]

variable [DecidableEq Name]

/-! ## Creating a file -/

/-- Make a new empty file under a name that leads to none. -/
def make (files : Files Name) (n : Name) : Files Name where
  entry := Function.update files.entry n (some files.made)
  bytes := Function.update files.bytes files.made []
  made := files.made + 1
  entry_lt := by
    intro m f h
    by_cases hm : m = n
    · subst hm
      rw [Function.update_self] at h
      exact Option.some.inj h ▸ Nat.lt_succ_self _
    · rw [Function.update_of_ne hm] at h
      exact Nat.lt_succ_of_lt (files.entry_lt h)
  entry_injective := by
    intro m k f hm hk
    by_cases hmn : m = n <;> by_cases hkn : k = n
    · rw [hmn, hkn]
    · subst hmn
      rw [Function.update_self] at hm
      rw [Function.update_of_ne hkn, ← hm] at hk
      exact absurd (files.entry_lt hk) (Nat.lt_irrefl _)
    · subst hkn
      rw [Function.update_self] at hk
      rw [Function.update_of_ne hmn, ← hk] at hm
      exact absurd (files.entry_lt hm) (Nat.lt_irrefl _)
    · rw [Function.update_of_ne hmn] at hm
      rw [Function.update_of_ne hkn] at hk
      exact files.entry_injective hm hk

/-- Open the file of a name for writing: truncate it, or make it when there is none. -/
def create (files : Files Name) (n : Name) : ℕ × Files Name :=
  match files.entry n with
  | some f => (f, files.setBytes f [])
  | none => (files.made, files.make n)

/-- The name leads to the file that was opened. -/
theorem create_entry (files : Files Name) (n : Name) :
    (files.create n).2.entry n = some (files.create n).1 := by
  unfold create
  split
  · assumption
  · exact Function.update_self n _ files.entry

/-- The file is empty. -/
theorem create_bytes (files : Files Name) (n : Name) :
    (files.create n).2.bytes (files.create n).1 = [] := by
  unfold create
  split
  · exact setBytes_bytes _ _ _
  · exact Function.update_self _ _ files.bytes

theorem read_create_self (files : Files Name) (n : Name) : (files.create n).2.read n = some [] := by
  rw [read_of_entry (files.create_entry n), files.create_bytes]

/-- Other names are read as before. -/
theorem read_create (files : Files Name) {m n : Name} (hne : m ≠ n) :
    (files.create n).2.read m = files.read m := by
  unfold create
  split
  · next f hn => exact read_setBytes hn hne []
  · have hentry : (files.make n).entry m = files.entry m :=
      Function.update_of_ne hne _ files.entry
    unfold read
    rw [hentry]
    cases hm : files.entry m with
    | none => rfl
    | some g =>
        have hg : g ≠ files.made := Nat.ne_of_lt (files.entry_lt hm)
        simp only [make, Option.map_some, Function.update_of_ne hg]

/-- Other names lead to the same files. -/
theorem entry_create_of_ne (files : Files Name) {m n : Name} (hne : m ≠ n) :
    (files.create n).2.entry m = files.entry m := by
  unfold create
  split
  · rfl
  · exact Function.update_of_ne hne _ files.entry

/-! ## Renaming a file -/

/-- Give a file another name, which leads no longer to the file it led to. -/
def moveTo (files : Files Name) {source : Name} {f : ℕ} (hf : files.entry source = some f)
    (target : Name) : Files Name where
  entry := Function.update (Function.update files.entry source none) target (some f)
  bytes := files.bytes
  made := files.made
  entry_lt := by
    intro m g h
    by_cases hm : m = target
    · subst hm
      rw [Function.update_self] at h
      exact Option.some.inj h ▸ files.entry_lt hf
    · rw [Function.update_of_ne hm] at h
      by_cases hms : m = source
      · subst hms
        simp at h
      · rw [Function.update_of_ne hms] at h
        exact files.entry_lt h
  entry_injective := by
    have hother : ∀ {m g}, m ≠ target →
        Function.update (Function.update files.entry source none) target (some f) m = some g →
          m ≠ source ∧ files.entry m = some g := by
      intro m g hm h
      rw [Function.update_of_ne hm] at h
      by_cases hms : m = source
      · subst hms
        simp at h
      · rw [Function.update_of_ne hms] at h
        exact ⟨hms, h⟩
    intro m k g hm hk
    by_cases hmt : m = target <;> by_cases hkt : k = target
    · rw [hmt, hkt]
    · subst hmt
      rw [Function.update_self] at hm
      obtain ⟨hks, hk⟩ := hother hkt hk
      exact absurd (files.entry_injective hk (hf.trans hm)) hks
    · subst hkt
      rw [Function.update_self] at hk
      obtain ⟨hms, hm⟩ := hother hmt hm
      exact absurd (files.entry_injective hm (hf.trans hk)) hms
    · exact files.entry_injective (hother hmt hm).2 (hother hkt hk).2

/-- Rename a file, if there is one. -/
def rename (files : Files Name) (source target : Name) : Option (Files Name) :=
  match hf : files.entry source with
  | some _ => some (files.moveTo hf target)
  | none => none

/-- A file that is there is renamed, and read through its new name. -/
theorem read_rename {files : Files Name} {source : Name} {f : ℕ}
    (hf : files.entry source = some f) (target : Name) :
    ∃ files', files.rename source target = some files' ∧
      files'.read target = some (files.bytes f) := by
  unfold rename
  split
  · next g hg =>
      obtain rfl : g = f := Option.some.inj (hg.symm.trans hf)
      exact ⟨_, rfl, read_of_entry (Function.update_self target _ _)⟩
  · next hnone => simp [hf] at hnone

/-- The old name of a renamed file leads to none. -/
theorem rename_entry {files files' : Files Name} {source target : Name} (hne : source ≠ target)
    (h : files.rename source target = some files') : files'.entry source = none := by
  unfold rename at h
  split at h
  · obtain rfl := Option.some.inj h
    simp only [moveTo, Function.update_of_ne hne, Function.update_self]
  · simp at h

/-- Names that are neither the old nor the new one lead to the same files. -/
theorem rename_entry_of_ne {files files' : Files Name} {source target m : Name}
    (hsource : m ≠ source) (htarget : m ≠ target)
    (h : files.rename source target = some files') : files'.entry m = files.entry m := by
  unfold rename at h
  split at h
  · obtain rfl := Option.some.inj h
    simp only [moveTo, Function.update_of_ne htarget, Function.update_of_ne hsource]
  · simp at h

/-- They are read as before. -/
theorem read_rename_of_ne {files files' : Files Name} {source target m : Name}
    (hsource : m ≠ source) (htarget : m ≠ target)
    (h : files.rename source target = some files') : files'.read m = files.read m := by
  have hentry := rename_entry_of_ne hsource htarget h
  unfold rename at h
  split at h
  · obtain rfl := Option.some.inj h
    exact congrArg (Option.map files.bytes) hentry
  · simp at h

theorem entry_isSome_of_rename {files files' : Files Name} {source target : Name}
    (h : files.rename source target = some files') : (files.entry source).isSome = true := by
  unfold rename at h
  split at h
  · next f hf => rw [hf]; rfl
  · simp at h

end Files
end Foundations
