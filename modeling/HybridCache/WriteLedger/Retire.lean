/-
Retiring entries from the ledger files (`read_file` and `retire_identities` in `write_ledger.rs`),
line by line.

The comment on `retire_identities` promises that everything but the entries named is left
untouched. But a file that could not be read is one without entries, so it is removed; and a line
that does not parse is lost when the file is written anew.

`LedgerJson` is `serde_json` on entries. Of it is assumed that an entry that was parsed can be
written as a line, which is parsed as the same entry.
-/
import HybridCache.Lib.Text
import HybridCache.WriteLedger.Passes

namespace HybridCache.WriteLedger

open Lib LedgerState List

/-! ## The model -/

structure LedgerCompactionStats where
  entries_before : ℕ
  entries_after : ℕ
  files_rewritten : ℕ
  files_removed : ℕ
deriving DecidableEq, Repr

structure RetireFaults where
  directory : Bool
  entry : List Char → Bool
  read : List Char → Bool
  /-- The file cannot be locked, removed or replaced, and stays as it was. -/
  write : List Char → Bool

def RetireFaults.unlisted (faults : RetireFaults) (name : List Char) : Bool :=
  faults.directory || faults.entry name

/-- The file has an extension, and it is `LEDGER_EXT`. -/
def is_ledger_file (name : List Char) : Bool :=
  decide (".ledger".toList <:+ name ∧ name ≠ ".ledger".toList)

def blank_line (line : List Char) : Bool :=
  line.all is_whitespace

/-- `serde_json::from_str` and `serde_json::to_string` on entries. -/
structure LedgerJson where
  parse : List Char → Option WriteLedgerEntry
  serialize : WriteLedgerEntry → Option (List Char)
  parse_serialize : ∀ line entry, parse line = some entry → ∃ text, serialize entry = some text ∧
    OneLine text ∧ blank_line text = false ∧ parse text = some entry

abbrev LedgerDir := Directory (List Char) (List Char)

section Retire

variable (json : LedgerJson) (retire : List Identity) (faults : RetireFaults)

def entries_of (content : List Char) : List WriteLedgerEntry :=
  ((lines content).filter fun line => !blank_line line).filterMap json.parse

/-- `read_file`. A file that is missing cannot be read either. -/
def read_file (fails : Bool) : Option (List Char) → List WriteLedgerEntry
  | none => []
  | some content => if fails then [] else entries_of json content

def kept (entries : List WriteLedgerEntry) : List WriteLedgerEntry :=
  entries.filter fun entry => !retire.contains entry.identity

/-- The text that entries are written out as. One that cannot be serialized is skipped. -/
def body (entries : List WriteLedgerEntry) : List Char :=
  unlines (entries.filterMap json.serialize)

/-- The loop of `retire_identities`, at one file. -/
def retire_file (state : LedgerCompactionStats × LedgerDir) (path : List Char) :
    LedgerCompactionStats × LedgerDir :=
  let entries := read_file json (faults.read path) (state.2.get? path)
  let kept := kept retire entries
  let stats := { state.1 with
    entries_before := state.1.entries_before + entries.length
    entries_after := state.1.entries_after + kept.length }
  if faults.write path then (stats, state.2)
  else if kept = [] then
    ({ stats with files_removed := stats.files_removed + 1 }, state.2.erase path)
  else
    ({ stats with files_rewritten := stats.files_rewritten + 1 },
      state.2.put path (body json kept))

def ledger_files (files : LedgerDir) : List (List Char) :=
  files.keys.filter fun name => is_ledger_file name && !faults.entry name

/-- `retire_identities`, with the ledger directory after it; `none` is its error. -/
def retire_identities (files : LedgerDir) :
    Option LedgerCompactionStats × LedgerDir :=
  if faults.directory then (none, files)
  else
    let state := (ledger_files faults files).foldl (retire_file json retire faults)
      (⟨0, 0, 0, 0⟩, files)
    (some state.1, state.2)

end Retire

/-! ## What becomes of a file -/

open Directory

section Files

variable {json : LedgerJson} {retire : List Identity} {faults : RetireFaults}
  {state : LedgerCompactionStats × LedgerDir} {name path content : List Char}

/-- What a file that is on the list is replaced by. -/
def replacement (json : LedgerJson) (retire : List Identity) (faults : RetireFaults)
    (name content : List Char) : Option (List Char) :=
  let kept := kept retire (read_file json (faults.read name) (some content))
  if faults.write name then some content
  else if kept = [] then none
  else some (body json kept)

theorem kept_eq (entries : List WriteLedgerEntry) :
    kept retire entries = entries.filter fun e => e.identity ∉ retire :=
  filter_congr fun _ _ => by simp

theorem get?_retire_file_self (hfile : state.2.get? name = some content) :
    (retire_file json retire faults state name).2.get? name =
      replacement json retire faults name content := by
  unfold retire_file replacement
  rw [hfile]
  by_cases hwrite : faults.write name = true
  · simp only [hwrite, if_true]
    exact hfile
  · simp only [hwrite, Bool.false_eq_true, if_false]
    by_cases hkept : kept retire (read_file json (faults.read name) (some content)) = []
    · simp only [hkept, if_true]
      exact get?_erase_self
    · simp only [hkept, if_false]
      exact get?_put_self

theorem get?_retire_file_ne (hne : name ≠ path) :
    (retire_file json retire faults state path).2.get? name = state.2.get? name := by
  unfold retire_file
  dsimp only
  split_ifs
  · rfl
  · exact get?_erase_ne _ hne
  · exact get?_put_ne _ hne

variable {names : List (List Char)}

theorem get?_foldl_retire_file_of_not_mem (hname : name ∉ names)
    (state : LedgerCompactionStats × LedgerDir) :
    (names.foldl (retire_file json retire faults) state).2.get? name = state.2.get? name := by
  induction names generalizing state with
  | nil => rfl
  | cons path rest ih =>
    rw [mem_cons, not_or] at hname
    rw [foldl_cons, ih hname.2, get?_retire_file_ne hname.1]

theorem get?_foldl_retire_file (hnodup : names.Nodup) (hname : name ∈ names)
    (hfile : state.2.get? name = some content) :
    (names.foldl (retire_file json retire faults) state).2.get? name =
      replacement json retire faults name content := by
  induction names generalizing state with
  | nil => cases hname
  | cons path rest ih =>
    obtain ⟨hpath, hrest⟩ := nodup_cons.mp hnodup
    rw [foldl_cons]
    by_cases heq : name = path
    · subst heq
      rw [get?_foldl_retire_file_of_not_mem hpath, get?_retire_file_self hfile]
    · have hmem : name ∈ rest := (mem_cons.mp hname).resolve_left heq
      exact ih hrest hmem ((get?_retire_file_ne heq).trans hfile)

theorem get?_retire_identities {files : LedgerDir} (hledger : is_ledger_file name = true)
    (hfile : files.get? name = some content) :
    (retire_identities json retire faults files).2.get? name =
      if faults.unlisted name then some content
      else replacement json retire faults name content := by
  unfold retire_identities RetireFaults.unlisted
  have hkey : name ∈ files.keys := mem_keys_iff.mpr (by rw [hfile]; rfl)
  cases hdirectory : faults.directory with
  | true => exact hfile
  | false =>
    cases hentry : faults.entry name with
    | true =>
      have hnot : name ∉ ledger_files faults files := by
        intro hmem
        have hlisted := of_mem_filter hmem
        simp [hentry] at hlisted
      exact (get?_foldl_retire_file_of_not_mem hnot _).trans hfile
    | false =>
      have hmem : name ∈ ledger_files faults files :=
        mem_filter.mpr ⟨hkey, by simp [hledger, hentry]⟩
      exact get?_foldl_retire_file (files.nodup.filter _) hmem hfile

section Parsed

variable {entries : List WriteLedgerEntry}
  (hparsed : ∀ entry ∈ entries, ∃ line, json.parse line = some entry)

include hparsed

theorem written_of_parsed :
    (∀ text ∈ entries.filterMap json.serialize,
      OneLine text ∧ blank_line text = false ∧ (json.parse text).isSome = true) ∧
    (entries.filterMap json.serialize).filterMap json.parse = entries := by
  induction entries with
  | nil => exact ⟨nofun, rfl⟩
  | cons entry rest ih =>
    obtain ⟨line, hline⟩ := hparsed entry mem_cons_self
    obtain ⟨text, hserialize, hone, hblank, hparse⟩ := json.parse_serialize line entry hline
    obtain ⟨htexts, hentries⟩ := ih fun e he => hparsed e (mem_cons_of_mem _ he)
    rw [filterMap_cons_some hserialize]
    refine ⟨fun text' htext' => ?_, by rw [filterMap_cons_some hparse, hentries]⟩
    rcases mem_cons.mp htext' with rfl | htext'
    · exact ⟨hone, hblank, by rw [hparse]; rfl⟩
    · exact htexts text' htext'

theorem lines_body : lines (body json entries) = entries.filterMap json.serialize :=
  lines_unlines fun text htext => ((written_of_parsed hparsed).1 text htext).1

theorem entries_of_body : entries_of json (body json entries) = entries := by
  obtain ⟨htexts, hentries⟩ := written_of_parsed hparsed
  rw [entries_of, lines_body hparsed, filter_eq_self.mpr, hentries]
  intro text htext
  rw [(htexts text htext).2.1]
  rfl

end Parsed

def entries_in (json : LedgerJson) : Option (List Char) → List WriteLedgerEntry
  | none => []
  | some content => entries_of json content

theorem parsed_of_mem_kept {fails : Bool} {entry : WriteLedgerEntry}
    (h : entry ∈ kept retire (read_file json fails (some content))) :
    ∃ line, json.parse line = some entry := by
  have hread := mem_of_mem_filter h
  rw [read_file] at hread
  split at hread
  case isTrue => cases hread
  case isFalse =>
    obtain ⟨line, -, hline⟩ := mem_filterMap.mp hread
    exact ⟨line, hline⟩

theorem entries_in_replacement (hwrite : faults.write name = false) :
    entries_in json (replacement json retire faults name content) =
      kept retire (read_file json (faults.read name) (some content)) := by
  unfold replacement
  simp only [hwrite, Bool.false_eq_true, if_false]
  split
  case isTrue hkept => exact hkept.symm
  case isFalse => exact entries_of_body fun entry hentry => parsed_of_mem_kept hentry

/-! ## Exactly the entries named -/

/-- The lines that are neither blank nor entries. -/
def other_lines (json : LedgerJson) (content : List Char) : List (List Char) :=
  (lines content).filter fun line => !blank_line line && (json.parse line).isNone

def lines_in : Option (List Char) → List (List Char)
  | none => []
  | some content => lines content

/-- What is to become of a file: one that was not read is left as it was; of one that was read, the
entries named are gone and the other entries are there in their order, and the lines that are no
entries stay too. -/
structure RetiredExactly (json : LedgerJson) (retire : List Identity) (unread : Bool)
    (content : List Char) (after : Option (List Char)) : Prop where
  unread_kept : unread = true → after = some content
  entries : unread = false →
    entries_in json after = (entries_of json content).filter fun e => e.identity ∉ retire
  lines_kept : (other_lines json content).Sublist (lines_in after)

/-- If the file is replaced, it was read and has no line that is neither blank nor an entry; if it
could not be replaced, it was not read or there was nothing to retire. -/
def SafeToReplace (json : LedgerJson) (retire : List Identity) (faults : RetireFaults)
    (name content : List Char) : Prop :=
  if faults.write name then
    faults.read name = true ∨ ∀ entry ∈ entries_of json content, entry.identity ∉ retire
  else faults.read name = false ∧ other_lines json content = []

theorem other_lines_sublist :
    (other_lines json content).Sublist (lines_in (some content)) :=
  filter_sublist

theorem retiredExactly_self_iff {unread : Bool} :
    RetiredExactly json retire unread content (some content) ↔
      unread = true ∨ ∀ entry ∈ entries_of json content, entry.identity ∉ retire := by
  cases unread with
  | true => exact iff_of_true ⟨fun _ => rfl, nofun, other_lines_sublist⟩ (.inl rfl)
  | false =>
    have hself : entries_in json (some content) =
        ((entries_of json content).filter fun e => e.identity ∉ retire) ↔
          ∀ entry ∈ entries_of json content, entry.identity ∉ retire := by
      rw [eq_comm, entries_in, filter_eq_self]
      simp only [decide_eq_true_eq]
    constructor
    · intro h
      exact .inr (hself.mp (h.entries rfl))
    · rintro (hunread | hnone)
      · cases hunread
      · exact ⟨nofun, fun _ => hself.mpr hnone, other_lines_sublist⟩

theorem parse_of_mem_lines_in_replacement {line : List Char} (hwrite : faults.write name = false)
    (hline : line ∈ lines_in (replacement json retire faults name content)) :
    (json.parse line).isSome = true := by
  unfold replacement at hline
  simp only [hwrite, Bool.false_eq_true, if_false] at hline
  split at hline
  case isTrue => cases hline
  case isFalse =>
    rw [lines_in, lines_body fun entry hentry => parsed_of_mem_kept hentry] at hline
    exact ((written_of_parsed fun entry hentry => parsed_of_mem_kept hentry).1 line hline).2.2

theorem other_lines_sublist_replacement_iff (hwrite : faults.write name = false) :
    (other_lines json content).Sublist (lines_in (replacement json retire faults name content)) ↔
      other_lines json content = [] := by
  constructor
  · intro hsub
    refine eq_nil_iff_forall_not_mem.mpr fun line hline => ?_
    have hsome := parse_of_mem_lines_in_replacement hwrite (hsub.subset hline)
    have hother := of_mem_filter hline
    rw [Bool.and_eq_true, Option.isNone_iff_eq_none] at hother
    rw [hother.2] at hsome
    cases hsome
  · intro hnil
    rw [hnil]
    exact nil_sublist _

theorem replacement_of_unread (hread : faults.read name = true)
    (hwrite : faults.write name = false) :
    replacement json retire faults name content = none := by
  unfold replacement
  simp only [hwrite, Bool.false_eq_true, if_false, hread, read_file, if_true]
  rfl

/-- **Retiring exactly what is named.** Whatever a ledger file holds and whatever fails, the call
removes the entries it was asked to retire and nothing else, and leaves a file that it could not
read as it was, exactly if the file is not on the list or is safe to replace. -/
theorem retired_exactly_iff (json : LedgerJson) (retire : List Identity) (faults : RetireFaults)
    (files : LedgerDir) (name content : List Char) (hledger : is_ledger_file name = true)
    (hfile : files.get? name = some content) :
    RetiredExactly json retire (faults.unlisted name || faults.read name) content
        ((retire_identities json retire faults files).2.get? name) ↔
      faults.unlisted name = true ∨ SafeToReplace json retire faults name content := by
  rw [get?_retire_identities hledger hfile]
  cases hlisted : faults.unlisted name with
  | true => exact iff_of_true (retiredExactly_self_iff.mpr (.inl rfl)) (.inl rfl)
  | false =>
    simp only [Bool.false_eq_true, if_false, false_or, Bool.false_or, SafeToReplace]
    cases hwrite : faults.write name with
    | true =>
      have hsame : replacement json retire faults name content = some content := by
        unfold replacement
        rw [hwrite, if_pos rfl]
      rw [hsame, if_pos rfl]
      exact retiredExactly_self_iff
    | false =>
      cases hread : faults.read name with
      | true =>
        -- nothing was read, so nothing is kept and the file is gone
        refine iff_of_false (fun h => ?_) (fun h => by cases h.1)
        have hkept := h.unread_kept rfl
        rw [replacement_of_unread hread hwrite] at hkept
        cases hkept
      | false =>
        have hentries : entries_in json (replacement json retire faults name content) =
            kept retire (read_file json (faults.read name) (some content)) :=
          entries_in_replacement hwrite
        rw [hread, kept_eq] at hentries
        rw [← other_lines_sublist_replacement_iff hwrite]
        constructor
        · intro h
          exact ⟨rfl, h.lines_kept⟩
        · rintro ⟨-, hkept⟩
          exact ⟨nofun, fun _ => hentries, hkept⟩

/-! ## A file with two entries -/

def json_line (timestamp : String) : List Char :=
  "\x7b\"timestamp\":".toList ++ timestamp.toList ++
    (",\"cache_key\":\"k\",\"range_start\":0,\"range_end\":9,\"compressed_size\":10," ++
      "\"instance_id\":\"a\"\x7d").toList

def two_entries : LedgerJson where
  parse line :=
    if line = json_line "1" then some (staged 1)
    else if line = json_line "2" then some (staged 2)
    else none
  serialize entry :=
    if entry = staged 1 then some (json_line "1")
    else if entry = staged 2 then some (json_line "2")
    else none
  parse_serialize := by
    intro line entry h
    split at h
    case isTrue =>
      cases h
      exact ⟨json_line "1", rfl, ⟨by decide +kernel, by decide +kernel⟩, by decide +kernel,
        by decide +kernel⟩
    case isFalse =>
      split at h
      case isTrue =>
        cases h
        exact ⟨json_line "2", by decide +kernel, ⟨by decide +kernel, by decide +kernel⟩,
          by decide +kernel, by decide +kernel⟩
      case isFalse => cases h

def ledger_a : List Char := "a.ledger".toList

def no_retire_faults : RetireFaults :=
  ⟨false, fun _ => false, fun _ => false, fun _ => false⟩

/-- Entry 1, what was left of an interrupted append, and entry 2. -/
def torn_ledger : List Char :=
  unlines [json_line "1", "\x7b\"timest".toList, json_line "2"]

/-- The one ledger after a retirement. -/
def ledger_after (retire : List Identity) (faults : RetireFaults) (content : List Char) :
    Option (List Char) :=
  (retire_identities two_entries retire faults (empty.put ledger_a content)).2.get? ledger_a

/-- A call that retires nothing loses the torn line, and one that cannot read the file removes
it. -/
theorem torn_and_unread_ledgers_lost :
    ledger_after [] no_retire_faults torn_ledger = some (unlines [json_line "1", json_line "2"]) ∧
    ¬ RetiredExactly two_entries [] false torn_ledger
        (ledger_after [] no_retire_faults torn_ledger) ∧
    ledger_after [] { no_retire_faults with read := fun _ => true } torn_ledger = none := by
  refine ⟨by decide +kernel, fun h => ?_, by decide +kernel⟩
  have hlost : ¬ (other_lines two_entries torn_ledger).Sublist
      (lines_in (ledger_after [] no_retire_faults torn_ledger)) := by
    decide +kernel
  exact hlost h.lines_kept

/-- Entry 1 is retired from a file with entries 1 and 2. -/
theorem first_entry_retired :
    ledger_after [(staged 1).identity] no_retire_faults (unlines [json_line "1", json_line "2"]) =
      some (unlines [json_line "2"]) ∧
    RetiredExactly two_entries [(staged 1).identity] false (unlines [json_line "1", json_line "2"])
      (ledger_after [(staged 1).identity] no_retire_faults
        (unlines [json_line "1", json_line "2"])) := by
  refine ⟨by decide +kernel, ?_⟩
  have hsafe : SafeToReplace two_entries [(staged 1).identity] no_retire_faults ledger_a
      (unlines [json_line "1", json_line "2"]) :=
    ⟨rfl, by decide +kernel⟩
  exact (retired_exactly_iff two_entries [(staged 1).identity] no_retire_faults
    (empty.put ledger_a (unlines [json_line "1", json_line "2"])) ledger_a
    (unlines [json_line "1", json_line "2"]) (by decide +kernel) (by decide +kernel)).mpr
    (.inr hsafe)

end Files

end HybridCache.WriteLedger
