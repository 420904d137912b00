/-
Paths as texts, with the slash as separator.

`join_path` and the functions that change the name of a file are those of the standard
library; an absolute component takes the place of what it is joined to. A path is below
a directory if it is the directory followed by plain names, none of them a dot or two
dots.
-/
import Mathlib.Data.List.Basic
import Mathlib.Data.List.Infix
import Mathlib.Data.List.TakeWhile
import Mathlib.Tactic.Common

namespace HybridCache.Lib

open List

def join_path (path component : List Char) : List Char :=
  if component.head? = some '/' then component
  else if path = [] ∨ path.getLast? = some '/' then path ++ component
  else path ++ '/' :: component

def base_name (path : List Char) : List Char :=
  (path.reverse.takeWhile fun c => c ≠ '/').reverse

def dir_part (path : List Char) : List Char :=
  path.take (path.length - (base_name path).length)

/-- `Path::with_file_name`, of a path that ends in a plain name. -/
def with_file_name (path name : List Char) : List Char :=
  dir_part path ++ name

/-- `Path::file_stem`, of a file name: what stands before the last dot, unless that is the first
character. -/
def file_stem (name : List Char) : List Char :=
  let extension := name.reverse.takeWhile fun c => c ≠ '.'
  if name.length ≤ extension.length + 1 then name
  else name.take (name.length - extension.length - 1)

/-- `Path::with_extension`, of a path that ends in a plain name. -/
def with_extension (path extension : List Char) : List Char :=
  dir_part path ++ (file_stem (base_name path) ++ '.' :: extension)

def relative_to (base path : List Char) : Option (List Char) :=
  if base ++ ['/'] <+: path then some (path.drop (base.length + 1)) else none

/-! ## Names -/

section Names

variable {dir name stem extension : List Char}

theorem takeWhile_reverse_append {sep : Char} (h : sep ∉ name) (before : List Char) :
    ((before ++ sep :: name).reverse.takeWhile fun c => c ≠ sep) = name.reverse := by
  have hne : ∀ c ∈ name.reverse, decide (c ≠ sep) = true := by
    intro c hc
    exact decide_eq_true fun heq => h (heq ▸ mem_reverse.mp hc)
  rw [reverse_append, reverse_cons, append_assoc,
    takeWhile_append_of_pos hne, singleton_append, takeWhile_cons_of_neg (by simp),
    append_nil]

/-- What follows the last separator is determined. -/
theorem append_last_cancel {sep : Char} {before before' name' : List Char} (h : sep ∉ name)
    (h' : sep ∉ name') (heq : before ++ sep :: name = before' ++ sep :: name') :
    before = before' ∧ name = name' := by
  have hname : name = name' := by
    rw [← reverse_inj, ← takeWhile_reverse_append h before, heq,
      takeWhile_reverse_append h' before']
  rw [hname] at heq
  exact ⟨append_cancel_right heq, hname⟩

theorem base_name_append (h : '/' ∉ name) (dir : List Char) :
    base_name (dir ++ '/' :: name) = name := by
  rw [base_name, takeWhile_reverse_append h, reverse_reverse]

theorem base_name_eq_self (h : '/' ∉ name) : base_name name = name := by
  have hne : ∀ c ∈ name.reverse, decide (c ≠ '/') = true := by
    intro c hc
    exact decide_eq_true fun heq => h (heq ▸ mem_reverse.mp hc)
  rw [base_name, takeWhile_eq_self_iff.mpr hne, reverse_reverse]

theorem dir_part_append (h : '/' ∉ name) (dir : List Char) :
    dir_part (dir ++ '/' :: name) = dir ++ ['/'] := by
  have hsplit : dir ++ '/' :: name = (dir ++ ['/']) ++ name := by
    rw [append_assoc, singleton_append]
  have hlength : (dir ++ '/' :: name).length - name.length = (dir ++ ['/']).length := by
    rw [hsplit, length_append, Nat.add_sub_cancel]
  rw [dir_part, base_name_append h, hlength, hsplit, take_left]

theorem with_file_name_append (h : '/' ∉ name) (dir name' : List Char) :
    with_file_name (dir ++ '/' :: name) name' = dir ++ '/' :: name' := by
  rw [with_file_name, dir_part_append h, append_assoc, singleton_append]

theorem file_stem_append (hne : stem ≠ []) (h : '.' ∉ extension) :
    file_stem (stem ++ '.' :: extension) = stem := by
  have hpos := length_pos_iff.mpr hne
  unfold file_stem
  rw [takeWhile_reverse_append h]
  simp only [length_append, length_cons, length_reverse]
  rw [if_neg (by omega), show stem.length + (extension.length + 1) - extension.length - 1 =
    stem.length by omega, take_left]

/-- The last extension is replaced. -/
theorem with_extension_append (hname : '/' ∉ stem ++ '.' :: extension) (hne : stem ≠ [])
    (hextension : '.' ∉ extension) (dir extension' : List Char) :
    with_extension (dir ++ '/' :: (stem ++ '.' :: extension)) extension' =
      dir ++ '/' :: (stem ++ '.' :: extension') := by
  rw [with_extension, dir_part_append hname, base_name_append hname,
    file_stem_append hne hextension, append_assoc, singleton_append]

end Names

/-! ## Paths below a directory -/

structure Segment (name : List Char) : Prop where
  nonempty : name ≠ []
  no_separator : '/' ∉ name
  not_dot : name ≠ ['.']
  not_dot_dot : name ≠ ['.', '.']

structure Joinable (path : List Char) : Prop where
  nonempty : path ≠ []
  last : path.getLast? ≠ some '/'

/-- A directory and names below it. -/
def under (base : List Char) (segments : List (List Char)) : List Char :=
  base ++ segments.flatMap ('/' :: ·)

/-- A path is strictly below a directory. -/
def Below (base path : List Char) : Prop :=
  ∃ segments, segments ≠ [] ∧ (∀ name ∈ segments, Segment name) ∧ path = under base segments

section Below

variable {base path name : List Char}

theorem Segment.head_ne (h : Segment name) : name.head? ≠ some '/' := by
  intro hhead
  exact h.no_separator (mem_of_mem_head? hhead)

theorem Segment.last_ne (h : Segment name) : name.getLast? ≠ some '/' := by
  intro hlast
  exact h.no_separator (mem_of_getLast? hlast)

theorem join_path_eq (hpath : Joinable path) (hname : name.head? ≠ some '/') :
    join_path path name = path ++ '/' :: name := by
  rw [join_path, if_neg hname, if_neg (not_or.mpr ⟨hpath.nonempty, hpath.last⟩)]

theorem joinable_join_path (hname : Segment name) : Joinable (join_path path name) := by
  have hlast : ∀ p : List Char, (p ++ name).getLast? ≠ some '/' := by
    intro p
    rw [List.getLast?_append_of_ne_nil p hname.nonempty]
    exact hname.last_ne
  unfold join_path
  rw [if_neg hname.head_ne]
  split
  · refine ⟨?_, hlast path⟩
    intro h
    exact hname.nonempty (append_eq_nil_iff.mp h).2
  · refine ⟨by simp, ?_⟩
    rw [← singleton_append, ← append_assoc]
    exact hlast _

variable {segments : List (List Char)}

theorem under_append : under base (segments ++ [name]) = under base segments ++ '/' :: name := by
  simp [under]

/-- Joining names one by one is writing them with separators. -/
theorem foldl_join_path (hbase : Joinable base) (hsegments : ∀ name ∈ segments, Segment name) :
    segments.foldl join_path base = under base segments := by
  induction segments generalizing base with
  | nil => rw [foldl_nil, under, flatMap_nil, append_nil]
  | cons name rest ih =>
    have hname := hsegments name mem_cons_self
    rw [foldl_cons, ih (joinable_join_path hname)
      fun s hs => hsegments s (mem_cons_of_mem name hs), join_path_eq hbase hname.head_ne]
    simp [under]

theorem intercalate_eq_append_flatMap (rest : List (List Char)) :
    ['/'].intercalate (name :: rest) = name ++ rest.flatMap ('/' :: ·) := by
  induction rest generalizing name with
  | nil => simp
  | cons next rest ih =>
    rw [intercalate_cons_cons, ih]
    simp

/-- Stripping the base gives back the names. -/
theorem relative_to_under (h : segments ≠ []) :
    relative_to base (under base segments) = some (['/'].intercalate segments) := by
  obtain ⟨name, rest, rfl⟩ := exists_cons_of_ne_nil h
  have hsplit : under base (name :: rest) =
      (base ++ ['/']) ++ ['/'].intercalate (name :: rest) := by
    rw [intercalate_eq_append_flatMap]
    simp [under]
  rw [relative_to, hsplit, if_pos (prefix_append _ _), drop_left' (by simp)]

theorem mem_intercalate {c : Char} (h : c ∈ ['/'].intercalate segments) :
    c = '/' ∨ ∃ name ∈ segments, c ∈ name := by
  cases segments with
  | nil => cases h
  | cons name rest =>
    rw [intercalate_eq_append_flatMap, mem_append, mem_flatMap] at h
    rcases h with hc | ⟨next, hnext, hc⟩
    · exact Or.inr ⟨name, mem_cons_self, hc⟩
    · rcases mem_cons.mp hc with rfl | hc
      · exact Or.inl rfl
      · exact Or.inr ⟨next, mem_cons_of_mem name hnext, hc⟩

/-- A path below a base determines its names. -/
theorem under_injective {segments' : List (List Char)} (hne : segments ≠ [])
    (hne' : segments' ≠ []) (h : ∀ name ∈ segments, '/' ∉ name)
    (h' : ∀ name ∈ segments', '/' ∉ name) (heq : under base segments = under base segments') :
    segments = segments' := by
  have hrelative := congrArg (relative_to base) heq
  rw [relative_to_under hne, relative_to_under hne'] at hrelative
  rw [← splitOn_intercalate '/' h hne, Option.some.inj hrelative, splitOn_intercalate '/' h' hne']

theorem intercalate_append_singleton :
    ['/'].intercalate (segments ++ [name]) = name ∨
      ∃ dir, ['/'].intercalate (segments ++ [name]) = dir ++ '/' :: name := by
  cases segments with
  | nil => exact Or.inl (intercalate_singleton)
  | cons first rest =>
    refine Or.inr ⟨first ++ rest.flatMap ('/' :: ·), ?_⟩
    rw [cons_append, intercalate_eq_append_flatMap, flatMap_append, append_assoc]
    simp

theorem base_name_under (hname : '/' ∉ name) (base : List Char) (segments : List (List Char)) :
    base_name (under base (segments ++ [name])) = name := by
  rw [under_append, base_name_append hname]

end Below

end HybridCache.Lib
