/-
Files behind names: a rename over a name or an unlink makes it lead to another file or to none, and
who has opened the file before still writes into that one. Files are numbered in the order they are
made. The structure carries the proof that two names never lead to one file.

`ν` are the names and `β` what a file can contain.
-/
import Mathlib.Logic.Function.Basic
import Mathlib.Tactic.Common

namespace HybridCache.Lib

/-- The file each name leads to, the content of each file, and the next file to be made. -/
structure Inodes (ν β : Type) where
  names : ν → Option ℕ
  contents : ℕ → β
  next : ℕ
  names_lt : ∀ name file, names name = some file → file < next
  names_inj : ∀ name name' file, names name = some file → names name' = some file → name = name'

open Function

namespace Inodes

variable {ν β : Type}

/-- No files; `blank` is what a file holds before anything is written to it. -/
def empty (blank : β) : Inodes ν β where
  names := fun _ => none
  contents := fun _ => blank
  next := 0
  names_lt := by simp
  names_inj := by simp

def content (d : Inodes ν β) (name : ν) : Option β :=
  (d.names name).map d.contents

def write (d : Inodes ν β) (file : ℕ) (b : β) : Inodes ν β :=
  { d with contents := update d.contents file b }

theorem content_of_names {d : Inodes ν β} {name : ν} {file : ℕ} (h : d.names name = some file) :
    d.content name = some (d.contents file) := by
  rw [content, h, Option.map_some]

variable [DecidableEq ν]

def replace (d : Inodes ν β) (name : ν) (b : β) : Inodes ν β where
  names := update d.names name (some d.next)
  contents := update d.contents d.next b
  next := d.next + 1
  names_lt := by
    intro name' file hname
    by_cases heq : name' = name
    · rw [heq, update_self] at hname
      rw [← Option.some.inj hname]
      exact Nat.lt_succ_self _
    · rw [update_of_ne heq] at hname
      exact Nat.lt_succ_of_lt (d.names_lt name' file hname)
  names_inj := by
    -- A name that already leads to a file leads to one before the new one.
    have hold : ∀ name' file, name' ≠ name →
        update d.names name (some d.next) name' = some file →
        d.names name' = some file ∧ file ≠ d.next := by
      intro name' file hne hname
      rw [update_of_ne hne] at hname
      exact ⟨hname, Nat.ne_of_lt (d.names_lt name' file hname)⟩
    intro name₁ name₂ file h₁ h₂
    by_cases heq₁ : name₁ = name <;> by_cases heq₂ : name₂ = name
    · rw [heq₁, heq₂]
    · rw [heq₁, update_self] at h₁
      exact absurd (Option.some.inj h₁).symm (hold name₂ file heq₂ h₂).2
    · rw [heq₂, update_self] at h₂
      exact absurd (Option.some.inj h₂).symm (hold name₁ file heq₁ h₁).2
    · exact d.names_inj name₁ name₂ file (hold name₁ file heq₁ h₁).1 (hold name₂ file heq₂ h₂).1

def remove (d : Inodes ν β) (name : ν) : Inodes ν β where
  names := update d.names name none
  contents := d.contents
  next := d.next
  names_lt := by
    intro name' file hname
    by_cases heq : name' = name
    · rw [heq, update_self] at hname
      cases hname
    · rw [update_of_ne heq] at hname
      exact d.names_lt name' file hname
  names_inj := by
    intro name₁ name₂ file h₁ h₂
    rw [update_apply] at h₁ h₂
    split_ifs at h₁
    split_ifs at h₂
    exact d.names_inj name₁ name₂ file h₁ h₂

/-- Open a name, making a file if it leads to none: the file that was opened. -/
def open_create (d : Inodes ν β) (name : ν) (blank : β) : ℕ × Inodes ν β :=
  match d.names name with
  | some file => (file, d)
  | none => (d.next, d.replace name blank)

/-! ## What is under the names afterwards -/

section Content

variable (d : Inodes ν β) (name : ν)

/-- By name, a file system is a map; each operation changes it at one name. -/
theorem content_replace (b : β) : (d.replace name b).content = update d.content name (some b) := by
  funext name'
  by_cases heq : name' = name
  · simp [content, replace, heq]
  · rw [update_of_ne heq]
    show ((update d.names name _) name').map _ = (d.names name').map _
    rw [update_of_ne heq]
    refine Option.map_congr fun file hfile => ?_
    exact update_of_ne (Nat.ne_of_lt (d.names_lt name' file hfile)) _ _

theorem content_remove : (d.remove name).content = update d.content name none := by
  funext name'
  by_cases heq : name' = name
  · simp [content, remove, heq]
  · rw [update_of_ne heq]
    show ((update d.names name _) name').map _ = (d.names name').map _
    rw [update_of_ne heq]
    rfl

theorem names_open_create (blank : β) :
    (d.open_create name blank).2.names name = some (d.open_create name blank).1 := by
  unfold open_create
  split
  · assumption
  · exact update_self _ _ _

theorem content_open_create (blank : β) :
    (d.open_create name blank).2.content =
      update d.content name (some ((d.content name).getD blank)) := by
  unfold open_create
  split
  · rename_i file hfile
    rw [content_of_names hfile, Option.getD_some, ← content_of_names hfile, update_eq_self]
  · rename_i hnone
    have hname : d.content name = none := by
      unfold content
      rw [hnone]
      rfl
    rw [content_replace, hname]
    rfl

variable {d name}

/-- A write to the file of a name changes that name only. -/
theorem content_write {file : ℕ} (h : d.names name = some file) (b : β) :
    (d.write file b).content = update d.content name (some b) := by
  funext name'
  by_cases heq : name' = name
  · simp [content, write, heq, h]
  · rw [update_of_ne heq]
    refine Option.map_congr fun file' hfile' => ?_
    refine update_of_ne (fun hsame => heq ?_) _ _
    exact d.names_inj name' name file (hsame ▸ hfile') h

end Content

end Inodes

end HybridCache.Lib
