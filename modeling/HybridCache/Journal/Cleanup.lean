/-
Cleaning the journals of what has been consolidated (`cleanup_consolidated_entries` in
`journal_consolidator.rs`), line by line.

A line is dropped if its entry has the identity of a consolidated one. If anything was dropped the
file is written anew from the entries that remain, and nothing is left of a line that is not an
entry. The comment in that branch says that unparseable lines are kept, but there is no code for
it.

`parse` and `serialize` are those of `serde_json` on entries.
-/
import HybridCache.Journal.Consolidate
import HybridCache.Lib.Text

namespace HybridCache.Journal

open Lib CacheTypes List

/-- `JournalEntry` with all that a line has: the id of the instance that wrote it, and the fields
that consolidation does not look at. -/
structure InstanceEntry extends JournalEntry where
  instance_id : String
  range_file_path : String
  metadata_version : ℕ
deriving DecidableEq, Repr

/-- What tells entries apart when journals are cleaned. -/
structure EntryIdentity where
  cache_key : String
  start : ℕ
  end_ : ℕ
  timestamp : ℕ
  instance_id : String
deriving DecidableEq, Repr

def InstanceEntry.identity (entry : InstanceEntry) : EntryIdentity :=
  ⟨entry.cache_key, entry.range_spec.start, entry.range_spec.end_, entry.timestamp,
    entry.instance_id⟩

structure CleanupFaults where
  lock : FilePath → Bool
  read : FilePath → Bool
  /-- The deletion, truncation or rewrite fails, and the file stays as it was. -/
  write : FilePath → Bool

section Cleanup

variable (parse : List Char → Option InstanceEntry) (serialize : InstanceEntry → Option (List Char))
  (consolidated_entries : List InstanceEntry)

def consolidated_set : List EntryIdentity :=
  consolidated_entries.map InstanceEntry.identity

def blank (line : List Char) : Bool :=
  line.all is_whitespace

def entries_of (content : List Char) : List InstanceEntry :=
  ((lines content).filter fun line => !blank line).filterMap parse

def remaining_entries (content : List Char) : List InstanceEntry :=
  (entries_of parse content).filter fun entry =>
    decide (entry.identity ∉ consolidated_set consolidated_entries)

def removed_count (content : List Char) : ℕ :=
  ((entries_of parse content).filter fun entry =>
    decide (entry.identity ∈ consolidated_set consolidated_entries)).length

/-- A journal that was read under its lock; `none` is a deleted file. The name of a fresh journal
has a colon. -/
def clean_journal (write_fails : Bool) (file_name : FilePath) (content : List Char) :
    Option (List Char) :=
  if removed_count parse consolidated_entries content = 0 then some content
  else if write_fails then some content
  else if remaining_entries parse consolidated_entries content = [] then
    if ':' ∈ file_name then none else some []
  else some (unlines ((remaining_entries parse consolidated_entries content).filterMap serialize))

/-- A file the loop passes over; an empty list of counts is that of a call outside a cycle. -/
def passed_over (faults : CleanupFaults) (file_entry_counts : List FilePath) (name : FilePath) :
    Bool :=
  !decide (['.', 'j', 'o', 'u', 'r', 'n', 'a', 'l'] <:+ name) ||
    (!file_entry_counts.isEmpty && !decide (name ∈ file_entry_counts)) ||
    faults.lock name || faults.read name

/-- `cleanup_consolidated_entries`, on the files of the journals directory. -/
def cleanup_consolidated_entries (faults : CleanupFaults) (file_entry_counts : List FilePath)
    (files : FilePath → Option (List Char)) : FilePath → Option (List Char) :=
  if consolidated_entries = [] then files
  else fun name =>
    (files name).bind fun content =>
      if passed_over faults file_entry_counts name then some content
      else clean_journal parse serialize consolidated_entries (faults.write name) name content

end Cleanup

/-! ## The lines that are not consolidated -/

section Frame

variable {parse : List Char → Option InstanceEntry}
  {serialize : InstanceEntry → Option (List Char)} {consolidated_entries : List InstanceEntry}
  {content : List Char}

def consolidated_line (parse : List Char → Option InstanceEntry)
    (consolidated_entries : List InstanceEntry) (line : List Char) : Bool :=
  (parse line).any fun entry => decide (entry ∈ consolidated_entries)

def other_lines (parse : List Char → Option InstanceEntry)
    (consolidated_entries : List InstanceEntry) (content : List Char) : List (List Char) :=
  (lines content).filter fun line => !consolidated_line parse consolidated_entries line

/-- A line that a rewrite keeps as it is: an entry that is not taken for a consolidated one, and
whose text is the one it is written out with. -/
def Rewritten (parse : List Char → Option InstanceEntry)
    (serialize : InstanceEntry → Option (List Char)) (consolidated_entries : List InstanceEntry)
    (line : List Char) : Prop :=
  blank line = false ∧ ∃ entry, parse line = some entry ∧
    entry.identity ∉ consolidated_set consolidated_entries ∧ serialize entry = some line

/-- What becomes of one line in a rewrite. -/
def rewrite_line (parse : List Char → Option InstanceEntry)
    (serialize : InstanceEntry → Option (List Char)) (consolidated_entries : List InstanceEntry)
    (line : List Char) : Option (List Char) :=
  if blank line then none
  else
    (parse line).bind fun entry =>
      if entry.identity ∈ consolidated_set consolidated_entries then none else serialize entry

theorem rewrite_line_eq_some {line : List Char} :
    rewrite_line parse serialize consolidated_entries line = some line ↔
      Rewritten parse serialize consolidated_entries line := by
  unfold rewrite_line Rewritten
  cases hblank : blank line with
  | true => simp
  | false =>
    simp only [Bool.false_eq_true, if_false, Option.bind_eq_some_iff, true_and]
    refine exists_congr fun entry => and_congr_right fun _ => ?_
    rw [Option.ite_none_left_eq_some]

theorem filterMap_remaining_entries :
    (remaining_entries parse consolidated_entries content).filterMap serialize =
      (lines content).filterMap (rewrite_line parse serialize consolidated_entries) := by
  unfold remaining_entries entries_of
  induction lines content with
  | nil => rfl
  | cons line rest ih =>
    rw [filterMap_cons]
    cases hblank : blank line with
    | true =>
      simpa [rewrite_line, hblank] using ih
    | false =>
      rw [filter_cons_of_pos (by simp [hblank]), filterMap_cons]
      cases hparse : parse line with
      | none => simpa [rewrite_line, hblank, hparse] using ih
      | some entry =>
        by_cases hin : entry.identity ∈ consolidated_set consolidated_entries
        · simpa [rewrite_line, hblank, hparse, hin] using ih
        · rw [filter_cons_of_pos (by simp [hin]), filterMap_cons, ih]
          simp [rewrite_line, hblank, hparse, hin]

theorem rewrite_line_of_consolidated {line : List Char}
    (h : consolidated_line parse consolidated_entries line = true) :
    rewrite_line parse serialize consolidated_entries line = none := by
  obtain ⟨entry, hparse, hmem⟩ := (Option.any_eq_true _ _).mp h
  have hidentity : entry.identity ∈ consolidated_set consolidated_entries :=
    List.mem_map_of_mem (of_decide_eq_true hmem)
  unfold rewrite_line
  rw [hparse, Option.bind_some, if_pos hidentity]
  split <;> rfl

theorem filterMap_other_lines :
    (lines content).filterMap (rewrite_line parse serialize consolidated_entries) =
      (other_lines parse consolidated_entries content).filterMap
        (rewrite_line parse serialize consolidated_entries) := by
  unfold other_lines
  rw [filterMap_filter]
  refine filterMap_congr fun line _ => ?_
  cases hline : consolidated_line parse consolidated_entries line with
  | true => simpa using rewrite_line_of_consolidated hline
  | false => simp

theorem sublist_filterMap_self {α : Type} {f : α → Option α} {l : List α} :
    l.Sublist (l.filterMap f) ↔ ∀ a ∈ l, f a = some a := by
  constructor
  · intro h
    have heq : l = l.filterMap f :=
      h.eq_of_length (le_antisymm h.length_le (length_filterMap_le f l))
    clear h
    induction l with
    | nil => simp
    | cons a rest ih =>
      rw [filterMap_cons] at heq
      cases hfa : f a with
      | none =>
        -- one element is lost and none is made up for it
        rw [hfa] at heq
        have hlen := congrArg List.length heq
        have hle := length_filterMap_le f rest
        rw [length_cons] at hlen
        simp only at hlen
        omega
      | some b =>
        rw [hfa] at heq
        injection heq with hab hrest
        intro x hx
        rcases mem_cons.mp hx with rfl | hx
        · rw [hfa, hab]
        · exact ih hrest x hx
  · intro h
    have heq : l.filterMap f = l := by
      rw [filterMap_congr h]
      exact filterMap_some
    rw [heq]

def lines_of : Option (List Char) → List (List Char)
  | none => []
  | some content => lines content

theorem other_lines_sublist : (other_lines parse consolidated_entries content).Sublist
    (lines content) :=
  filter_sublist

theorem lines_of_clean_journal {file_name : FilePath}
    (hjson : ∀ entry text, serialize entry = some text → OneLine text)
    (hremoved : removed_count parse consolidated_entries content ≠ 0) :
    lines_of (clean_journal parse serialize consolidated_entries false file_name content) =
      (other_lines parse consolidated_entries content).filterMap
        (rewrite_line parse serialize consolidated_entries) := by
  rw [← filterMap_other_lines, ← filterMap_remaining_entries]
  unfold clean_journal
  rw [if_neg hremoved, if_neg Bool.false_ne_true]
  by_cases hnone : remaining_entries parse consolidated_entries content = []
  · rw [if_pos hnone, hnone]
    split <;> rfl
  · rw [if_neg hnone]
    refine lines_unlines fun text htext => ?_
    obtain ⟨entry, -, hentry⟩ := mem_filterMap.mp htext
    exact hjson entry text hentry

/-- No entry of the journal has the identity of a consolidated one. -/
def NothingToRemove (parse : List Char → Option InstanceEntry)
    (consolidated_entries : List InstanceEntry) (content : List Char) : Prop :=
  ∀ line ∈ lines content, blank line = false → ∀ entry, parse line = some entry →
    entry.identity ∉ consolidated_set consolidated_entries

theorem removed_count_eq_zero :
    removed_count parse consolidated_entries content = 0 ↔
      NothingToRemove parse consolidated_entries content := by
  unfold removed_count entries_of NothingToRemove
  rw [length_eq_zero_iff, filter_eq_nil_iff]
  constructor
  · intro h line hline hblank entry hentry
    have hmem : entry ∈ ((lines content).filter fun line => !blank line).filterMap parse :=
      mem_filterMap.mpr ⟨line, mem_filter.mpr ⟨hline, by simp [hblank]⟩, hentry⟩
    simpa using h entry hmem
  · intro h entry hentry
    obtain ⟨line, hline, hparse⟩ := mem_filterMap.mp hentry
    obtain ⟨hmem, hblank⟩ := mem_filter.mp hline
    simpa using h line hmem (by simpa using hblank) entry hparse

/-- **The frame of a cleanup.** Whatever a journal holds, the lines that are not those of
consolidated entries are still there in their order exactly if the file is left alone, or each of
them is an entry, not taken for a consolidated one, whose text is the one it is written out
with. -/
theorem other_lines_kept_iff (parse : List Char → Option InstanceEntry)
    (serialize : InstanceEntry → Option (List Char))
    (hjson : ∀ entry text, serialize entry = some text → OneLine text)
    (consolidated_entries : List InstanceEntry) (faults : CleanupFaults)
    (file_entry_counts : List FilePath) (files : FilePath → Option (List Char)) (name : FilePath)
    (content : List Char) (hfile : files name = some content) :
    (other_lines parse consolidated_entries content).Sublist
        (lines_of (cleanup_consolidated_entries parse serialize consolidated_entries faults
          file_entry_counts files name)) ↔
      NothingToRemove parse consolidated_entries content ∨
        passed_over faults file_entry_counts name = true ∨ faults.write name = true ∨
        ∀ line ∈ other_lines parse consolidated_entries content,
          Rewritten parse serialize consolidated_entries line := by
  unfold cleanup_consolidated_entries
  by_cases hnone : consolidated_entries = []
  · have hnothing : NothingToRemove parse consolidated_entries content := by
      intro line _ _ entry _
      rw [hnone]
      exact not_mem_nil
    rw [if_pos hnone, hfile]
    exact iff_of_true other_lines_sublist (.inl hnothing)
  · -- as long as the file is left alone, its lines are all there
    rw [if_neg hnone]
    simp only [hfile, Option.bind_some]
    split_ifs with hpassed
    · exact iff_of_true other_lines_sublist (.inr (.inl hpassed))
    · by_cases hremoved : removed_count parse consolidated_entries content = 0
      · unfold clean_journal
        rw [if_pos hremoved]
        exact iff_of_true other_lines_sublist (.inl (removed_count_eq_zero.mp hremoved))
      · cases hwrite : faults.write name with
        | true =>
          unfold clean_journal
          rw [if_neg hremoved, if_pos rfl]
          exact iff_of_true other_lines_sublist (.inr (.inr (.inl rfl)))
        | false =>
          -- the file is rewritten, and a line is kept only if it is written out as it was
          rw [lines_of_clean_journal hjson hremoved, sublist_filterMap_self]
          simp only [rewrite_line_eq_some]
          constructor
          · intro h
            exact .inr (.inr (.inr h))
          · rintro (hnothing | hpassed' | hfails | h)
            · exact absurd (removed_count_eq_zero.mpr hnothing) hremoved
            · exact absurd hpassed' hpassed
            · cases hfails
            · exact h

/-! ## A journal with a torn line -/

def entry_at (timestamp : ℕ) : InstanceEntry :=
  { add_of_first_ten timestamp 10 with
    instance_id := "a", range_file_path := "", metadata_version := 0 }

def parse_strokes (line : List Char) : Option InstanceEntry :=
  if line = [] ∨ (line.all (· = '|')) = false then none else some (entry_at line.length)

def write_strokes (entry : InstanceEntry) : Option (List Char) :=
  some (List.replicate entry.timestamp '|')

theorem oneLine_write_strokes (entry : InstanceEntry) (text : List Char)
    (h : write_strokes entry = some text) : OneLine text := by
  cases h
  refine ⟨?_, ?_⟩
  · intro hmem
    exact absurd (eq_of_mem_replicate hmem) (by decide)
  · intro hlast
    have hmem := mem_of_getLast? hlast
    exact absurd (eq_of_mem_replicate hmem) (by decide)

def journal_a : FilePath := ['a', '.', 'j', 'o', 'u', 'r', 'n', 'a', 'l']

def no_cleanup_faults : CleanupFaults :=
  ⟨fun _ => false, fun _ => false, fun _ => false⟩

def torn_journal : List Char := ['|', '\n', '|', '{', '\n', '|', '|', '|', '\n']

/-- Cleaning away entry 1 takes the torn line with it. -/
theorem torn_line_is_lost :
    cleanup_consolidated_entries parse_strokes write_strokes [entry_at 1] no_cleanup_faults []
        (fun name => if name = journal_a then some torn_journal else none) journal_a =
      some ['|', '|', '|', '\n'] ∧
    ¬ (other_lines parse_strokes [entry_at 1] torn_journal).Sublist
        (lines_of (cleanup_consolidated_entries parse_strokes write_strokes [entry_at 1]
          no_cleanup_faults []
          (fun name => if name = journal_a then some torn_journal else none) journal_a)) := by
  decide +kernel

def whole_journal : List Char := ['|', '\n', '|', '|', '\n', '|', '|', '|', '\n']

theorem whole_lines_are_kept :
    (other_lines parse_strokes [entry_at 1] whole_journal).Sublist
      (lines_of (cleanup_consolidated_entries parse_strokes write_strokes [entry_at 1]
        no_cleanup_faults [] (fun _ => some whole_journal) journal_a)) := by
  refine (other_lines_kept_iff parse_strokes write_strokes oneLine_write_strokes [entry_at 1]
    no_cleanup_faults [] (fun _ => some whole_journal) journal_a whole_journal rfl).mpr
    (.inr (.inr (.inr (forall_mem_cons.mpr ⟨?_, forall_mem_singleton.mpr ?_⟩))))
  · exact ⟨by decide +kernel, entry_at 2, by decide +kernel, by decide +kernel, rfl⟩
  · exact ⟨by decide +kernel, entry_at 3, by decide +kernel, by decide +kernel, rfl⟩

end Frame

end HybridCache.Journal
