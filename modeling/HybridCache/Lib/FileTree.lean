/-
A tree of directories and files, without links.

A path is walked name by name: an empty name and a dot stay, two dots go up, any other name goes
down, and each step starts from a directory. Removing a file changes nothing else, so a path leads
to the same location before and after.
-/
import HybridCache.Lib.Outcome
import HybridCache.Lib.Path

namespace HybridCache.Lib

open List

abbrev Location := List (List Char)

inductive IoError where
  | NotFound
  | Other
deriving DecidableEq, Repr

/-- The directories and files at their locations, which files the system lets be removed, and the
directory that relative paths start from. -/
structure FileTree where
  is_dir : Location → Bool
  is_file : Location → Bool
  removable : Location → Bool
  cwd : Location
  not_both : ∀ location, is_dir location = true → is_file location = false

namespace FileTree

/-- Follow names from a location. -/
def walk (t : FileTree) : Location → List (List Char) → Except IoError Location
  | location, [] => .ok location
  | location, name :: names =>
    if t.is_dir location then
      if name = [] ∨ name = ['.'] then t.walk location names
      else if name = ['.', '.'] then t.walk location.dropLast names
      else t.walk (location ++ [name]) names
    else if t.is_file location then .error .Other
    else .error .NotFound

def locate (t : FileTree) (path : List Char) : Except IoError Location :=
  t.walk (if path.head? = some '/' then [] else t.cwd) (path.splitOn '/')

def file_at (t : FileTree) (path : List Char) : Option Location :=
  match t.locate path with
  | .ok location => if t.is_file location then some location else none
  | .error _ => none

def path_exists (t : FileTree) (path : List Char) : Bool :=
  match t.locate path with
  | .ok location => t.is_dir location || t.is_file location
  | .error _ => false

def without (t : FileTree) (location : Location) : FileTree where
  is_dir := t.is_dir
  is_file := fun l => t.is_file l && l ≠ location
  removable := t.removable
  cwd := t.cwd
  not_both := by
    intro l hdir
    rw [t.not_both l hdir, Bool.false_and]

def remove_file (t : FileTree) (path : List Char) : Except IoError FileTree :=
  (t.locate path).bind fun location =>
    if t.is_file location then
      if t.removable location then .ok (t.without location) else .error .Other
    else if t.is_dir location then .error .Other
    else .error .NotFound

def attempt (t : FileTree) (path : List Char) : FileTree :=
  match t.remove_file path with
  | .ok t' => t'
  | .error _ => t

/-- A location strictly inside the directory that a path leads to. -/
def Inside (t : FileTree) (directory : List Char) (location : Location) : Prop :=
  ∃ d, t.locate directory = .ok d ∧ d <+: location ∧ d ≠ location

/-- A file that was there and is gone. -/
def Gone (t t' : FileTree) (location : Location) : Prop :=
  t.is_file location = true ∧ t'.is_file location = false

variable {t t' : FileTree} {path base : List Char} {location start : Location}

/-! ## Walking -/

variable {names paths : List (List Char)} {path' : List Char}

theorem walk_append (t : FileTree) (start : Location) (names names' : List (List Char)) :
    t.walk start (names ++ names') = (t.walk start names).bind fun l => t.walk l names' := by
  induction names generalizing start with
  | nil => rfl
  | cons name names ih =>
    rw [cons_append, walk, walk]
    split
    · split
      · exact ih start
      · split
        all_goals exact ih _
    · split <;> rfl

theorem is_dir_of_walk_cons {name : List Char} (h : t.walk start (name :: names) = .ok location) :
    t.is_dir start = true := by
  rw [walk] at h
  by_cases hdir : t.is_dir start = true
  · exact hdir
  · rw [if_neg hdir] at h
    split at h <;> cases h

theorem walk_down (hdots : ['.', '.'] ∉ names) (h : t.walk start names = .ok location) :
    start <+: location := by
  induction names generalizing start with
  | nil =>
    rw [← Except.ok.inj h]
  | cons name names ih =>
    have hdir := is_dir_of_walk_cons h
    have hrest : ['.', '.'] ∉ names := fun hmem => hdots (mem_cons_of_mem name hmem)
    have hname : name ≠ ['.', '.'] := fun heq => hdots (heq ▸ mem_cons_self)
    rw [walk, if_pos hdir] at h
    by_cases hstay : name = [] ∨ name = ['.']
    · rw [if_pos hstay] at h
      exact ih hrest h
    · rw [if_neg hstay, if_neg hname] at h
      exact (prefix_append start [name]).trans (ih hrest h)

/-- **A path without two dots, joined to a directory, leads inside it.** -/
theorem inside_of_join (hbase : Joinable base) {relative : List Char}
    (hrelative : relative.head? ≠ some '/') (hdots : ['.', '.'] ∉ relative.splitOn '/')
    (h : t.file_at (join_path base relative) = some location) : t.Inside base location := by
  have hhead : (base ++ '/' :: relative).head? = base.head? := by
    obtain ⟨c, cs, rfl⟩ := exists_cons_of_ne_nil hbase.nonempty
    rfl
  have hlocate : t.locate (join_path base relative) =
      (t.locate base).bind fun d => t.walk d (relative.splitOn '/') := by
    rw [locate, locate, join_path_eq hbase hrelative, hhead, splitOn_append_cons_self, walk_append]
  unfold file_at at h
  cases hfound : t.locate (join_path base relative) with
  | error e =>
    rw [hfound] at h
    cases h
  | ok l =>
    simp only [hfound] at h
    split at h <;> cases h
    rename_i hfile
    rw [hlocate] at hfound
    obtain ⟨d, hd, hwalk⟩ := except_bind_eq_ok.mp hfound
    refine ⟨d, hd, walk_down hdots hwalk, ?_⟩
    -- a file is not the directory that the walk to it began in
    rintro rfl
    obtain ⟨name, names, hnames⟩ := exists_cons_of_ne_nil (splitOn_ne_nil '/' relative)
    rw [hnames] at hwalk
    rw [t.not_both d (is_dir_of_walk_cons hwalk)] at hfile
    cases hfile

/-! ## Removing files -/

theorem walk_without (t : FileTree) (gone start : Location) (names : List (List Char))
    (location : Location) :
    (t.without gone).walk start names = .ok location ↔ t.walk start names = .ok location := by
  induction names generalizing start with
  | nil => exact Iff.rfl
  | cons name names ih =>
    rw [walk, walk]
    by_cases hdir : t.is_dir start = true
    · rw [if_pos hdir, if_pos (show (t.without gone).is_dir start = true from hdir)]
      split
      · exact ih start
      · split
        all_goals exact ih _
    · rw [if_neg hdir, if_neg (show ¬ (t.without gone).is_dir start = true from hdir)]
      constructor
      all_goals
        intro h
        split at h <;> cases h

theorem file_at_eq_some :
    t.file_at path = some location ↔ t.locate path = .ok location ∧ t.is_file location = true := by
  unfold file_at
  cases hlocate : t.locate path with
  | error e => simp
  | ok l =>
    by_cases hfile : t.is_file l = true
    · simp only [hfile, if_true, Option.some.injEq, Except.ok.injEq]
      constructor
      · rintro rfl
        exact ⟨rfl, hfile⟩
      · exact And.left
    · simp only [hfile, Except.ok.injEq]
      constructor
      · intro h
        cases h
      · rintro ⟨rfl, h⟩
        exact absurd h hfile

theorem remove_file_eq_ok : t.remove_file path = .ok t' ↔
    ∃ location, t.file_at path = some location ∧ t.removable location = true ∧
      t' = t.without location := by
  unfold remove_file
  rw [except_bind_eq_ok]
  constructor
  · rintro ⟨l, hlocate, h⟩
    by_cases hfile : t.is_file l = true
    · rw [if_pos hfile] at h
      split_ifs at h with hremovable
      exact ⟨l, file_at_eq_some.mpr ⟨hlocate, hfile⟩, hremovable, (Except.ok.inj h).symm⟩
    · rw [if_neg hfile] at h
      split at h <;> cases h
  · rintro ⟨l, hat, hremovable, rfl⟩
    obtain ⟨hlocate, hfile⟩ := file_at_eq_some.mp hat
    exact ⟨l, hlocate, by rw [if_pos hfile, if_pos hremovable]⟩

theorem attempt_cases :
    (∃ location, t.file_at path = some location ∧ t.removable location = true ∧
      t.attempt path = t.without location) ∨
      t.attempt path = t ∧ ∀ location, t.file_at path = some location →
        t.removable location = false := by
  unfold attempt
  cases hremove : t.remove_file path with
  | ok t' =>
    obtain ⟨l, hat, hremovable, rfl⟩ := remove_file_eq_ok.mp hremove
    exact Or.inl ⟨l, hat, hremovable, rfl⟩
  | error e =>
    refine Or.inr ⟨rfl, ?_⟩
    intro l hat
    by_contra hremovable
    have hok := remove_file_eq_ok.mpr ⟨l, hat, (Bool.not_eq_false _).mp hremovable, rfl⟩
    rw [hremove] at hok
    cases hok

@[simp] theorem attempt_removable : (t.attempt path).removable = t.removable := by
  rcases attempt_cases with ⟨l, -, -, h⟩ | ⟨h, -⟩ <;> rw [h]
  rfl

theorem is_file_attempt :
    (t.attempt path).is_file location = true ↔
      t.is_file location = true ∧
        ¬ (t.file_at path = some location ∧ t.removable location = true) := by
  rcases attempt_cases with ⟨l, hat, hremovable, h⟩ | ⟨h, hkept⟩
  · rw [h, hat]
    by_cases heq : location = l
    · simp [without, heq, hremovable]
    · simp [without, heq, Ne.symm heq]
  · rw [h]
    constructor
    · intro hfile
      refine ⟨hfile, ?_⟩
      rintro ⟨hat, hremovable⟩
      rw [hkept location hat] at hremovable
      cases hremovable
    · exact And.left

theorem locate_attempt :
    (t.attempt path).locate path' = .ok location ↔ t.locate path' = .ok location := by
  rcases attempt_cases with ⟨l, -, -, h⟩ | ⟨h, -⟩
  · rw [h]
    exact walk_without t l _ _ location
  · rw [h]

theorem file_at_attempt :
    (t.attempt path).file_at path' = some location ↔
      t.file_at path' = some location ∧
        ¬ (t.file_at path = some location ∧ t.removable location = true) := by
  rw [file_at_eq_some, file_at_eq_some, locate_attempt, is_file_attempt, and_assoc]

/-- **The files that a row of attempts removes** are the removable ones that some path led to at
the beginning. -/
theorem is_file_foldl_attempt :
    (paths.foldl attempt t).is_file location = true ↔
      t.is_file location = true ∧
        ¬ (t.removable location = true ∧ ∃ path ∈ paths, t.file_at path = some location) := by
  induction paths generalizing t with
  | nil => simp
  | cons path paths ih =>
    rw [foldl_cons, ih, is_file_attempt, attempt_removable]
    simp only [file_at_attempt, exists_mem_cons_iff]
    grind

theorem gone_foldl_attempt_iff :
    t.Gone (paths.foldl attempt t) location ↔
      t.removable location = true ∧ ∃ path ∈ paths, t.file_at path = some location := by
  unfold Gone
  rw [← Bool.not_eq_true, is_file_foldl_attempt]
  constructor
  · rintro ⟨hfile, hgone⟩
    by_contra hkept
    exact hgone ⟨hfile, hkept⟩
  · rintro ⟨hremovable, path, hpath, hat⟩
    exact ⟨(file_at_eq_some.mp hat).2, fun hleft => hleft.2 ⟨hremovable, path, hpath, hat⟩⟩

theorem attempt_of_not_exists (h : t.path_exists path = false) : t.attempt path = t := by
  rcases attempt_cases with ⟨l, hat, -, -⟩ | ⟨heq, -⟩
  · obtain ⟨hlocate, hfile⟩ := file_at_eq_some.mp hat
    rw [path_exists, hlocate] at h
    simp [hfile] at h
  · exact heq

end FileTree

end HybridCache.Lib
