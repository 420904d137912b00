/-
A lock file: a path and the advisory locks on the files it has named.

An exclusive lock (`flock`) is on an open file, not on the path. Unlinking takes the name away from
the file, which lives on, with its lock, for those that have it open. Files are numbered in the
order they are made. The structure carries the proof that a file that has not been made yet is
neither named nor locked.
-/
import Mathlib.Logic.Function.Basic
import Mathlib.Tactic.Common

namespace HybridCache.Lib

/-- The file a path names, the party that has each file locked, and the next file to be made. -/
structure LockFile (ω : Type) where
  named : Option ℕ
  holder : ℕ → Option ω
  next : ℕ
  named_lt : ∀ file ∈ named, file < next
  holder_lt : ∀ file, next ≤ file → holder file = none

namespace LockFile

variable {ω : Type}

def empty : LockFile ω where
  named := none
  holder := fun _ => none
  next := 0
  named_lt := by simp
  holder_lt := fun _ _ => rfl

def make (f : LockFile ω) : LockFile ω where
  named := some f.next
  holder := f.holder
  next := f.next + 1
  named_lt := by
    intro file hfile
    rw [← Option.some.inj hfile]
    exact Nat.lt_succ_self _
  holder_lt := fun file hfile => f.holder_lt file (Nat.le_of_succ_le hfile)

def open_create (f : LockFile ω) : ℕ × LockFile ω :=
  match f.named with
  | some file => (file, f)
  | none => (f.next, f.make)

/-- Take the lock of a file that nobody has; there is no lock on a file that was never made. -/
def try_lock (f : LockFile ω) (file : ℕ) (party : ω) : Option (LockFile ω) :=
  if h : file < f.next ∧ f.holder file = none then
    some
      { f with
        holder := Function.update f.holder file (some party)
        holder_lt := by
          intro file' hfile'
          rw [Function.update_of_ne (by omega)]
          exact f.holder_lt file' hfile' }
  else none

def unlock (f : LockFile ω) (file : ℕ) : LockFile ω where
  named := f.named
  holder := Function.update f.holder file none
  next := f.next
  named_lt := f.named_lt
  holder_lt := by
    intro file' hfile'
    by_cases heq : file' = file
    · rw [heq, Function.update_self]
    · rw [Function.update_of_ne heq]
      exact f.holder_lt file' hfile'

def unlink (f : LockFile ω) : LockFile ω where
  named := none
  holder := f.holder
  next := f.next
  named_lt := by simp
  holder_lt := f.holder_lt

/-! ## What each operation does -/

section Operations

variable {f f' : LockFile ω} {file : ℕ} {party : ω}

theorem named_open_create : f.open_create.2.named = some f.open_create.1 := by
  unfold open_create
  split
  · assumption
  · rfl

theorem holder_open_create : f.open_create.2.holder = f.holder := by
  unfold open_create
  split <;> rfl

theorem open_create_of_named (h : f.named = some file) : f.open_create = (file, f) := by
  unfold open_create
  rw [h]

theorem try_lock_eq_some (h : f.try_lock file party = some f') :
    f.holder file = none ∧ f'.named = f.named ∧
      f'.holder = Function.update f.holder file (some party) := by
  unfold try_lock at h
  split at h <;> cases h
  rename_i hfree
  exact ⟨hfree.2, rfl, rfl⟩

end Operations

end LockFile

end HybridCache.Lib
