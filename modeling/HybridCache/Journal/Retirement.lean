/-
The files a consolidation deletes (`consolidate_object_with_files` in `journal_consolidator.rs`),
against the files the record it writes still names.

The first loop takes the files of rejected publications and spares what the record or a matching
entry names. The second retires the ranges that are not named for the record's version, and has no
such check. It can take a file that a matching entry publishes only if a range names the file of
another extent, or if two spellings lead to one file.

`resolve` is `get_range_file_path`: it has no value for an unsafe path, and may take two spellings
to one place.
-/
import HybridCache.Journal.LastWriter

namespace HybridCache.Journal

open Lib CacheTypes List

variable {φ : Type} [DecidableEq φ]

/-! ## The two loops -/

structure Sweep (φ : Type) where
  on_disk : Finset φ
  deleted : Finset φ
  failures : ℕ

inductive UnlinkResult where
  | removed
  | not_found
  | failed
deriving DecidableEq, Repr

def Sweep.remove_file (fails : Bool) (place : φ) (s : Sweep φ) : UnlinkResult × Sweep φ :=
  if place ∉ s.on_disk then (.not_found, s)
  else if fails then (.failed, { s with failures := s.failures + 1 })
  else
    (.removed,
      { s with on_disk := s.on_disk.erase place, deleted := insert place s.deleted })

section Loops

variable (resolve : FilePath → Option φ)

/-- The loop over rejected publications, with the paths it has tried; `none` is the error of an
unsafe path, which ends the consolidation. It returns the paths whose unlink failed. -/
def clean_rejected (matching : JournalEntry → Bool) (retained_files : List FilePath)
    (fails : ℕ → Bool) :
    List JournalEntry → List FilePath → Sweep φ → Option (List FilePath × Sweep φ)
  | [], _, s => some ([], s)
  | entry :: rest, attempted_cleanup, s =>
    let file_path := entry.range_spec.file_path
    if entry.publishes = false ∨ matching entry = true ∨ file_path ∈ retained_files ∨
        file_path ∈ attempted_cleanup then
      clean_rejected matching retained_files (fun i => fails (i + 1)) rest attempted_cleanup s
    else
      match resolve file_path with
      | none => none
      | some place =>
        let (result, s) := s.remove_file (fails 0) place
        (clean_rejected matching retained_files (fun i => fails (i + 1)) rest
          (file_path :: attempted_cleanup) s).map fun (failed_cleanup, s) =>
          (if result = .failed then file_path :: failed_cleanup else failed_cleanup, s)

def retire_files (version_id : FilePath) (fails : ℕ → Bool) :
    List RangeSpec → Sweep φ → List FilePath × Sweep φ
  | [], s => ([], s)
  | range :: rest, s =>
    if range_file_belongs_to range version_id then
      retire_files version_id (fun i => fails (i + 1)) rest s
    else
      match resolve range.file_path with
      -- an unsafe path never resolves to a file of this cache
      | none =>
        let (retired_files, s) := retire_files version_id (fun i => fails (i + 1)) rest s
        (range.file_path :: retired_files, s)
      | some place =>
        let (result, s) := s.remove_file (fails 0) place
        let (retired_files, s) := retire_files version_id (fun i => fails (i + 1)) rest s
        (if result = .failed then retired_files else range.file_path :: retired_files, s)

end Loops

/-- What a consolidation leaves behind. -/
structure Consolidation (φ : Type) where
  written : NewCacheMetadata
  entries_to_remove : List JournalEntry
  sweep : Sweep φ

/-- The unlinks that fail, by loop and position. -/
structure FailedUnlinks where
  rejected : ℕ → Bool
  foreign : ℕ → Bool

open JournalEntry

/-- `consolidate_object_with_files` with its deletions, for a record that is then written. The
record is that of `consolidate_object`, with the ranges retired here. -/
def consolidate_object_with_files (resolve : FilePath → Option φ)
    (object_version_id : String → FilePath) (loaded_at applied_at : ℕ) (fails : FailedUnlinks)
    (on_disk : Finset φ) (file : Option NewCacheMetadata)
    (valid_entries stale_entries : List JournalEntry) : Option (Consolidation φ) :=
  let metadata := load_or_create_metadata loaded_at file valid_entries
  let etag := metadata.object_metadata.etag
  let matching := matches_object_version object_version_id etag
  let retained_files :=
    (metadata.ranges ++ (valid_entries.filter matching).map range_spec).map
      fun range => range.file_path
  (clean_rejected resolve matching retained_files fails.rejected valid_entries []
    ⟨on_disk, ∅, 0⟩).map fun (failed_cleanup, s) =>
    let (retired_files, s) :=
      retire_files resolve (object_version_id etag) fails.foreign metadata.ranges s
    { written := consolidate_object object_version_id loaded_at applied_at
        (fun range => range.file_path ∈ retired_files) file valid_entries
      entries_to_remove := valid_entries.filter (fun entry =>
        matching entry || decide (entry.range_spec.file_path ∉ failed_cleanup)) ++ stale_entries
      sweep := s }

/-! ## What is deleted -/

section Deleted

variable {resolve : FilePath → Option φ} {s : Sweep φ} {fails : Bool} {p place : φ}

theorem deleted_remove_file (h : p ∈ (s.remove_file fails place).2.deleted) :
    p ∈ s.deleted ∨ p = place ∧ (s.remove_file fails place).1 = .removed := by
  unfold Sweep.remove_file at h ⊢
  split at h
  · exact .inl h
  · rename_i hthere
    split at h
    · exact .inl h
    · rename_i hworks
      rw [if_neg hthere, if_neg hworks]
      rcases Finset.mem_insert.mp h with rfl | h
      · exact .inr ⟨rfl, rfl⟩
      · exact .inl h

theorem failures_remove_file :
    (s.remove_file fails place).2.failures =
      s.failures + if (s.remove_file fails place).1 = .failed then 1 else 0 := by
  unfold Sweep.remove_file
  split
  · rfl
  · split
    · rfl
    · rfl

theorem deleted_clean_rejected {matching : JournalEntry → Bool} {retained_files : List FilePath}
    {fails : ℕ → Bool} {entries : List JournalEntry}
    {attempted_cleanup failed_cleanup : List FilePath} {s' : Sweep φ}
    (h : clean_rejected resolve matching retained_files fails entries attempted_cleanup s =
      some (failed_cleanup, s'))
    (hp : p ∈ s'.deleted) :
    p ∈ s.deleted ∨ ∃ entry ∈ entries, entry.publishes = true ∧ matching entry = false ∧
      entry.range_spec.file_path ∉ retained_files ∧
      resolve entry.range_spec.file_path = some p := by
  induction entries generalizing fails attempted_cleanup failed_cleanup s with
  | nil =>
    injection h with h
    injection h with _ h
    rw [← h] at hp
    exact .inl hp
  | cons entry rest ih =>
    have hlater : ∀ {fails attempted s failed},
        clean_rejected resolve matching retained_files fails rest attempted s = some (failed, s') →
        p ∈ s.deleted ∨ ∃ e ∈ entry :: rest, e.publishes = true ∧ matching e = false ∧
          e.range_spec.file_path ∉ retained_files ∧ resolve e.range_spec.file_path = some p := by
      intro fails attempted s failed hrest
      refine (ih hrest).imp id ?_
      rintro ⟨e, he, hrej⟩
      exact ⟨e, mem_cons_of_mem _ he, hrej⟩
    unfold clean_rejected at h
    dsimp only at h
    split at h
    -- the entry publishes nothing, matches, or has a path that is retained or was tried before
    case isTrue => exact hlater h
    case isFalse hattempt =>
      split at h
      case h_1 => cases h
      case h_2 place hplace =>
        obtain ⟨⟨failed, s₁⟩, hrest, heq⟩ := Option.map_eq_some_iff.mp h
        injection heq with _ heq
        subst heq
        rcases hlater hrest with hdeleted | hentry
        · refine (deleted_remove_file hdeleted).imp id ?_
          rintro ⟨rfl, -⟩
          simp only [not_or, Bool.not_eq_false, Bool.not_eq_true] at hattempt
          exact ⟨entry, mem_cons_self, hattempt.1, hattempt.2.1, hattempt.2.2.1, hplace⟩
        · exact .inr hentry

/-! ## What is retired -/

variable {version_id : FilePath} {fails : ℕ → Bool} {ranges : List RangeSpec}

/-- One range: whether it is retired, and the sweep behind it. A foreign range that is not retired
is a failure. -/
theorem retire_files_cons (range : RangeSpec) (rest : List RangeSpec) :
    ∃ (retired : Bool) (s₁ : Sweep φ),
      retire_files resolve version_id fails (range :: rest) s =
        (let later := retire_files resolve version_id (fun i => fails (i + 1)) rest s₁
        (if retired then range.file_path :: later.1 else later.1, later.2)) ∧
      (retired = true → range_file_belongs_to range version_id = false) ∧
      (∀ p ∈ s₁.deleted, p ∈ s.deleted ∨ retired = true ∧ resolve range.file_path = some p) ∧
      s₁.failures = s.failures +
        if range_file_belongs_to range version_id = false ∧ retired = false then 1 else 0 := by
  rw [retire_files]
  by_cases hbelongs : range_file_belongs_to range version_id = true
  · refine ⟨false, s, if_pos hbelongs, nofun, fun p => .inl, ?_⟩
    simp [hbelongs]
  · rw [if_neg hbelongs]
    cases hplace : resolve range.file_path with
    | none => exact ⟨true, s, rfl, fun _ => by simpa using hbelongs, fun p => .inl, by simp⟩
    | some place =>
      refine ⟨decide ((s.remove_file (fails 0) place).1 ≠ .failed),
        (s.remove_file (fails 0) place).2, ?_, fun _ => by simpa using hbelongs, ?_, ?_⟩
      · simp
      · refine fun p hp => (deleted_remove_file hp).imp id ?_
        rintro ⟨rfl, hremoved⟩
        simp [hremoved]
      · simp [failures_remove_file, hbelongs]

theorem retire_files_spec :
    let swept := retire_files resolve version_id fails ranges s
    (∀ path ∈ swept.1, ∃ range ∈ ranges,
      range_file_belongs_to range version_id = false ∧ range.file_path = path) ∧
    (∀ p ∈ swept.2.deleted, p ∈ s.deleted ∨
      ∃ range ∈ ranges, range_file_belongs_to range version_id = false ∧
        resolve range.file_path = some p ∧ range.file_path ∈ swept.1) ∧
    s.failures ≤ swept.2.failures ∧
    (swept.2.failures ≤ s.failures → ∀ range ∈ ranges,
      range_file_belongs_to range version_id = false → range.file_path ∈ swept.1) := by
  induction ranges generalizing fails s with
  | nil => exact ⟨nofun, fun p => .inl, le_rfl, nofun⟩
  | cons range rest ih =>
    obtain ⟨retired, s₁, hswept, hforeign, hdeleted, hfailures⟩ :=
      @retire_files_cons φ _ resolve s version_id fails range rest
    obtain ⟨hpaths, hgone, hle, hall⟩ := @ih s₁ fun i => fails (i + 1)
    have hkeep : ∀ {path}, path ∈ (retire_files resolve version_id (fun i => fails (i + 1)) rest
        s₁).1 → path ∈ (retire_files resolve version_id fails (range :: rest) s).1 := by
      intro path hpath
      rw [hswept]
      cases retired with
      | false => exact hpath
      | true => exact mem_cons_of_mem _ hpath
    refine ⟨fun path hpath => ?_, fun p hp => ?_, ?_, fun hnone r hr hother => ?_⟩
    · rw [hswept] at hpath
      rw [exists_mem_cons_iff]
      cases retired with
      | false => exact .inr (hpaths path hpath)
      | true => exact (mem_cons.mp hpath).imp (fun h => ⟨hforeign rfl, h.symm⟩) (hpaths path)
    · rw [hswept] at hp
      rcases hgone p hp with hp | ⟨r, hr, hother, hplace, hpath⟩
      · refine (hdeleted p hp).imp id ?_
        rintro ⟨rfl, hplace⟩
        exact ⟨range, mem_cons_self, hforeign rfl, hplace, by rw [hswept]; exact mem_cons_self⟩
      · exact .inr ⟨r, mem_cons_of_mem _ hr, hother, hplace, hkeep hpath⟩
    · rw [hswept]
      exact le_trans (by omega) hle
    · rw [hswept] at hnone
      dsimp only at hnone
      -- the count is at least that of this unlink, so this one did not fail
      rcases mem_cons.mp hr with rfl | hr
      · cases retired with
        | false =>
          rw [if_pos ⟨hother, rfl⟩] at hfailures
          omega
        | true =>
          rw [hswept]
          exact mem_cons_self
      · exact hkeep (hall (by omega) r hr hother)

end Deleted

/-! ## What is written -/

section Written

variable (object_version_id : String → FilePath)

/-- A range has the name and the extent of another. -/
def SameFile (a b : RangeSpec) : Prop :=
  a.file_path = b.file_path ∧ a.extent = b.extent

variable {range : RangeSpec} {now : ℕ} {s : Applied}

theorem mem_ranges_apply_entry {entry : JournalEntry}
    (h : range ∈ (apply_entry object_version_id now s entry).metadata.ranges) :
    (∃ r ∈ s.metadata.ranges, SameFile r range) ∨
      entry.publishes = true ∧ range = entry.range_spec := by
  have hkept : range ∈ s.metadata.ranges → ∃ r ∈ s.metadata.ranges, SameFile r range :=
    fun hmem => ⟨range, hmem, rfl, rfl⟩
  -- an entry that changes the statistics of a range keeps its file
  have hstats : ∀ {f : RangeSpec → RangeSpec},
      range ∈ update_first RangeSpec.extent entry.extent f s.metadata.ranges →
      (∀ r, SameFile r (f r)) → ∃ r ∈ s.metadata.ranges, SameFile r range := by
    intro f hmem hf
    rcases mem_update_first hmem with hmem | ⟨r, hr, -, hnew⟩
    · exact hkept hmem
    · exact ⟨r, hr, hnew ▸ hf r⟩
  unfold apply_entry at h
  cases hop : entry.operation with (rw [hop] at h; dsimp only at h)
  | Add =>
    split at h
    · rcases mem_append.mp h with hmem | hnew
      · exact .inl (hkept hmem)
      · exact .inr ⟨by simp [publishes, hop], mem_singleton.mp hnew⟩
    · exact .inl (hkept h)
  | Update =>
    split at h
    · -- the range of the entry takes the place of the one with its extent
      rcases mem_update_first h with hmem | ⟨_, -, -, hnew⟩
      · exact .inl (hkept hmem)
      · exact .inr ⟨by simp [publishes, hop], hnew⟩
    · exact .inl (hkept h)
  | Remove =>
    split at h
    · exact .inl (hkept (mem_of_mem_filter h))
    · exact .inl (hkept h)
  | TtlRefresh | AccessUpdate =>
    split at h
    · exact .inl (hstats h fun _ => ⟨rfl, rfl⟩)
    · exact .inl (hkept h)
  | Graduation =>
    split at h <;> exact .inl (hkept h)

/-- A range has the name and extent of one of the ranges, or of a publication of the batch. -/
def FromEither (ranges : List RangeSpec) (batch : List JournalEntry) (range : RangeSpec) : Prop :=
  (∃ r ∈ ranges, SameFile r range) ∨
    ∃ entry ∈ batch, entry.publishes = true ∧ SameFile entry.range_spec range

variable {batch : List JournalEntry}

theorem fromEither_foldl_apply_entry
    (h : range ∈ (batch.foldl (apply_entry object_version_id now) s).metadata.ranges) :
    FromEither s.metadata.ranges batch range := by
  induction batch generalizing s with
  | nil => exact .inl ⟨range, h, rfl, rfl⟩
  | cons entry rest ih =>
    rcases ih h with ⟨r, hr, hsame⟩ | ⟨e, he, hpub, hsame⟩
    · rcases mem_ranges_apply_entry object_version_id hr with ⟨r', hr', hsame'⟩ | ⟨hpub, heq⟩
      · exact .inl ⟨r', hr', hsame'.1.trans hsame.1, hsame'.2.trans hsame.2⟩
      · exact .inr ⟨entry, mem_cons_self, hpub, heq ▸ hsame⟩
    · exact .inr ⟨e, mem_cons_of_mem _ he, hpub, hsame⟩

omit object_version_id in
theorem fromEither_resolve_conflicts {metadata : NewCacheMetadata}
    (h : range ∈ (resolve_conflicts metadata batch).ranges) :
    FromEither metadata.ranges batch range := by
  unfold resolve_conflicts at h
  have hall : ∀ (rows : List JournalEntry), (∀ row ∈ rows, row ∈ batch ∧ row.publishes = true) →
      ∀ ranges : List RangeSpec, (∀ r ∈ ranges, FromEither metadata.ranges batch r) →
      ∀ r ∈ rows.foldl resolve_range ranges, FromEither metadata.ranges batch r := by
    intro rows
    induction rows with
    | nil => exact fun _ ranges hranges => hranges
    | cons row rest ih =>
      intro hrows ranges hranges
      obtain ⟨hmem, hpub⟩ := hrows row mem_cons_self
      refine ih (fun row' hrow' => hrows row' (mem_cons_of_mem _ hrow')) _ ?_
      intro r hr
      rcases mem_update_first hr with hold | ⟨r', hr', -, rfl⟩
      · exact hranges r hold
      · split_ifs
        · exact .inr ⟨row, hmem, hpub, rfl, rfl⟩
        · exact hranges r' hr'
  exact hall _ (fun row hrow => mem_journal_ranges hrow) _
    (fun r hr => .inl ⟨r, hr, rfl, rfl⟩) range h

theorem mem_ranges_consolidate_object {loaded_at applied_at : ℕ} {unlinked : RangeSpec → Bool}
    {file : Option NewCacheMetadata}
    (h : range ∈
      (consolidate_object object_version_id loaded_at applied_at unlinked file batch).ranges) :
    FromEither (retire_foreign_ranges object_version_id unlinked
        (load_or_create_metadata loaded_at file batch)).ranges
      (batch.filter (matches_object_version object_version_id
        (load_or_create_metadata loaded_at file batch).object_metadata.etag)) range := by
  unfold consolidate_object apply_journal_entries at h
  rw [infer_content_length_ranges] at h
  rcases fromEither_foldl_apply_entry object_version_id h with ⟨r, hr, hsame⟩ | hentry
  · rcases fromEither_resolve_conflicts hr with ⟨r', hr', hsame'⟩ | ⟨e, he, hpub, hsame'⟩
    · exact .inl ⟨r', hr', hsame'.1.trans hsame.1, hsame'.2.trans hsame.2⟩
    · exact .inr ⟨e, he, hpub, hsame'.1.trans hsame.1, hsame'.2.trans hsame.2⟩
  · exact .inr hentry

end Written

/-! ## Deleted against written -/

section Spared

variable {resolve : FilePath → Option φ} {object_version_id : String → FilePath}
  {loaded_at applied_at : ℕ} {fails : FailedUnlinks} {on_disk : Finset φ}
  {file : Option NewCacheMetadata} {valid_entries stale_entries : List JournalEntry}
  {result : Consolidation φ}

/-- The two paths do not lead to one file. -/
def ApartPaths (resolve : FilePath → Option φ) (a b : FilePath) : Prop :=
  ∀ p, resolve a = some p → resolve b ≠ some p

def Publication (object_version_id : String → FilePath) (metadata : NewCacheMetadata)
    (valid_entries : List JournalEntry) (entry : JournalEntry) : Prop :=
  entry ∈ valid_entries ∧ entry.publishes = true ∧
    entry.matches_object_version object_version_id metadata.object_metadata.etag = true

def Foreign (object_version_id : String → FilePath) (metadata : NewCacheMetadata)
    (range : RangeSpec) : Prop :=
  range ∈ metadata.ranges ∧
    range_file_belongs_to range (object_version_id metadata.object_metadata.etag) = false

/-- No file is both one to delete and one to keep. -/
structure Apart (resolve : FilePath → Option φ) (object_version_id : String → FilePath)
    (metadata : NewCacheMetadata) (valid_entries : List JournalEntry) : Prop where
  /-- No matching publication names the file of a range to retire. -/
  retired_published : ∀ range entry, Foreign object_version_id metadata range →
    Publication object_version_id metadata valid_entries entry →
    ApartPaths resolve range.file_path entry.range_spec.file_path
  /-- No other range of the record leads to such a file under another spelling. -/
  retired_kept : ∀ range kept, Foreign object_version_id metadata range → kept ∈ metadata.ranges →
    kept.file_path ≠ range.file_path → ApartPaths resolve range.file_path kept.file_path
  /-- Nor does anything that is kept lead to the file of a rejected publication under another
  spelling. -/
  rejected : ∀ entry ∈ valid_entries, entry.publishes = true →
    entry.matches_object_version object_version_id metadata.object_metadata.etag = false →
    (∀ kept ∈ metadata.ranges, kept.file_path ≠ entry.range_spec.file_path →
      ApartPaths resolve entry.range_spec.file_path kept.file_path) ∧
    ∀ kept, Publication object_version_id metadata valid_entries kept →
      kept.range_spec.file_path ≠ entry.range_spec.file_path →
      ApartPaths resolve entry.range_spec.file_path kept.range_spec.file_path

theorem belongs_of_matches {entry : JournalEntry} {etag : String} (hpub : entry.publishes = true)
    (hmatch : entry.matches_object_version object_version_id etag = true) :
    range_file_belongs_to entry.range_spec (object_version_id etag) = true := by
  unfold matches_object_version at hmatch
  unfold publishes at hpub
  cases hop : entry.operation with
  | Add | Update =>
    rw [hop] at hmatch
    exact (Bool.and_eq_true_iff.mp hmatch).1
  | _ => simp [hop] at hpub

theorem belongs_of_sameFile {a b : RangeSpec} {version_id : FilePath} (h : SameFile a b) :
    range_file_belongs_to a version_id = range_file_belongs_to b version_id := by
  obtain ⟨hpath, hextent⟩ := h
  injection hextent with hstart hend
  unfold range_file_belongs_to
  rw [hpath, hstart, hend]

/-- What a written range goes back to: a range of the record whose path is not retired, or a
publication that matches. -/
def KeptFrom (object_version_id : String → FilePath) (metadata : NewCacheMetadata)
    (valid_entries : List JournalEntry) (retired_files : List FilePath) (range : RangeSpec) :
    Prop :=
  (∃ r ∈ metadata.ranges, r.file_path ∉ retired_files ∧ SameFile r range) ∨
    ∃ entry, Publication object_version_id metadata valid_entries entry ∧
      SameFile entry.range_spec range

def spared_files (object_version_id : String → FilePath) (metadata : NewCacheMetadata)
    (valid_entries : List JournalEntry) : List FilePath :=
  (metadata.ranges ++ (valid_entries.filter (matches_object_version object_version_id
    metadata.object_metadata.etag)).map range_spec).map fun range => range.file_path

theorem mem_retire_foreign_ranges {metadata : NewCacheMetadata} {retired : List FilePath}
    (hretired : ∀ path ∈ retired, ∃ range, Foreign object_version_id metadata range ∧
      range.file_path = path) {range : RangeSpec}
    (h : range ∈ (retire_foreign_ranges object_version_id
      (fun range => decide (range.file_path ∈ retired)) metadata).ranges) :
    range ∈ metadata.ranges ∧ range.file_path ∉ retired := by
  obtain ⟨hmem, hkept⟩ := mem_filter.mp h
  refine ⟨hmem, ?_⟩
  intro hin
  obtain ⟨foreign, ⟨hforeign, hname⟩, hpath⟩ := hretired _ hin
  have hkept' := of_decide_eq_true hkept
  refine hkept' (List.mem_map.mpr ⟨foreign, mem_filter.mpr ⟨hforeign, ?_⟩, hpath⟩)
  simp [hname, hpath, hin]

theorem consolidate_object_with_files_eq_some
    (h : consolidate_object_with_files resolve object_version_id loaded_at applied_at fails on_disk
      file valid_entries stale_entries = some result) :
    ∃ metadata, metadata = load_or_create_metadata loaded_at file valid_entries ∧
      ∃ failed_cleanup s₁,
        clean_rejected resolve
          (matches_object_version object_version_id metadata.object_metadata.etag)
          (spared_files object_version_id metadata valid_entries) fails.rejected valid_entries []
          ⟨on_disk, ∅, 0⟩ = some (failed_cleanup, s₁) ∧
        result.sweep = (retire_files resolve (object_version_id metadata.object_metadata.etag)
          fails.foreign metadata.ranges s₁).2 ∧
        result.written.object_metadata.etag = metadata.object_metadata.etag ∧
        ∀ range ∈ result.written.ranges, KeptFrom object_version_id metadata valid_entries
          (retire_files resolve (object_version_id metadata.object_metadata.etag) fails.foreign
            metadata.ranges s₁).1 range := by
  obtain ⟨⟨failed_cleanup, s₁⟩, hclean, rfl⟩ := Option.map_eq_some_iff.mp h
  have hetag : ∀ unlinked, (consolidate_object object_version_id loaded_at applied_at unlinked file
      valid_entries).object_metadata.etag =
      (load_or_create_metadata loaded_at file valid_entries).object_metadata.etag := by
    intro unlinked
    obtain ⟨_, _, _, _, hframe⟩ := consolidate_object_metadata object_version_id loaded_at
      applied_at unlinked file valid_entries
    rw [hframe]
  refine ⟨_, rfl, failed_cleanup, s₁, hclean, rfl, hetag _, ?_⟩
  intro range hrange
  rcases mem_ranges_consolidate_object object_version_id hrange with
    ⟨r, hr, hsame⟩ | ⟨entry, hentry, hpub, hsame⟩
  · obtain ⟨hmem, hnot⟩ := mem_retire_foreign_ranges (fun path hpath => by
      obtain ⟨foreign, hforeign, hname, heq⟩ := retire_files_spec.1 path hpath
      exact ⟨foreign, ⟨hforeign, hname⟩, heq⟩) hr
    exact .inl ⟨r, hmem, hnot, hsame⟩
  · obtain ⟨hmem, hmatch⟩ := mem_filter.mp hentry
    exact .inr ⟨entry, ⟨hmem, hpub, hmatch⟩, hsame⟩

section Kept

variable {metadata : NewCacheMetadata} {retired_files : List FilePath} {range : RangeSpec} {p : φ}

omit [DecidableEq φ] in
theorem Apart.not_rejected (hapart : Apart resolve object_version_id metadata valid_entries)
    (hkept : KeptFrom object_version_id metadata valid_entries retired_files range)
    (hp : resolve range.file_path = some p) {entry : JournalEntry} (hentry : entry ∈ valid_entries)
    (hpub : entry.publishes = true)
    (hmatch : entry.matches_object_version object_version_id metadata.object_metadata.etag = false)
    (hnot : entry.range_spec.file_path ∉ spared_files object_version_id metadata valid_entries) :
    resolve entry.range_spec.file_path ≠ some p := by
  intro hplace
  obtain ⟨hranges, hentries⟩ := hapart.rejected entry hentry hpub hmatch
  unfold spared_files at hnot
  rw [map_append, mem_append, not_or] at hnot
  rcases hkept with ⟨r, hr, -, hsame⟩ | ⟨kept, hkeep, hsame⟩
  · refine hranges r hr ?_ p hplace (hsame.1 ▸ hp)
    intro heq
    exact hnot.1 (heq ▸ List.mem_map_of_mem hr)
  · refine hentries kept hkeep ?_ p hplace (hsame.1 ▸ hp)
    intro heq
    refine hnot.2 (heq ▸ List.mem_map_of_mem (List.mem_map_of_mem ?_))
    exact mem_filter.mpr ⟨hkeep.1, hkeep.2.2⟩

omit [DecidableEq φ] in
theorem Apart.not_retired (hapart : Apart resolve object_version_id metadata valid_entries)
    (hkept : KeptFrom object_version_id metadata valid_entries retired_files range)
    (hp : resolve range.file_path = some p) {foreign : RangeSpec}
    (hforeign : Foreign object_version_id metadata foreign)
    (hretired : foreign.file_path ∈ retired_files) : resolve foreign.file_path ≠ some p := by
  intro hplace
  rcases hkept with ⟨r, hr, hnot, hsame⟩ | ⟨kept, hkeep, hsame⟩
  · refine hapart.retired_kept foreign r hforeign hr ?_ p hplace (hsame.1 ▸ hp)
    intro heq
    exact hnot (heq ▸ hretired)
  · exact hapart.retired_published foreign kept hforeign hkeep p hplace (hsame.1 ▸ hp)

theorem KeptFrom.belongs
    (hkept : KeptFrom object_version_id metadata valid_entries retired_files range)
    (hretired : ∀ r, Foreign object_version_id metadata r → r.file_path ∈ retired_files) :
    range_file_belongs_to range (object_version_id metadata.object_metadata.etag) = true := by
  rcases hkept with ⟨r, hr, hnot, hsame⟩ | ⟨entry, hentry, hsame⟩
  · rw [← belongs_of_sameFile hsame]
    by_contra hother
    exact hnot (hretired r ⟨hr, by simpa using hother⟩)
  · rw [← belongs_of_sameFile hsame]
    exact belongs_of_matches hentry.2.1 hentry.2.2

end Kept

/-- **What a consolidation deletes it does not publish.** If no file is both one to delete and one
to keep, no range of the written record names a file that was deleted. And if no unlink failed,
every range of it names a file of the record's version. -/
theorem written_ranges_not_deleted (resolve : FilePath → Option φ)
    (object_version_id : String → FilePath) (loaded_at applied_at : ℕ) (fails : FailedUnlinks)
    (on_disk : Finset φ) (file : Option NewCacheMetadata)
    (valid_entries stale_entries : List JournalEntry) (result : Consolidation φ)
    (h : consolidate_object_with_files resolve object_version_id loaded_at applied_at fails on_disk
      file valid_entries stale_entries = some result) :
    (Apart resolve object_version_id (load_or_create_metadata loaded_at file valid_entries)
        valid_entries →
      ∀ range ∈ result.written.ranges, ∀ p, resolve range.file_path = some p →
        p ∉ result.sweep.deleted) ∧
    (result.sweep.failures = 0 → ∀ range ∈ result.written.ranges,
      range_file_belongs_to range
        (object_version_id result.written.object_metadata.etag) = true) := by
  obtain ⟨metadata, rfl, failed_cleanup, s₁, hclean, hsweep, hetag, hkept⟩ :=
    consolidate_object_with_files_eq_some h
  refine ⟨?_, ?_⟩
  · -- the loop that deletes the file is the second or the first, and neither can
    intro hapart range hrange p hp hdeleted
    rw [hsweep] at hdeleted
    rcases retire_files_spec.2.1 p hdeleted with hfirst | ⟨foreign, hmem, hname, hplace, hgone⟩
    · rcases deleted_clean_rejected hclean hfirst with
        hnone | ⟨entry, hentry, hpub, hmatch, hnot, hplace⟩
      · exact absurd hnone (Finset.notMem_empty p)
      · exact hapart.not_rejected (hkept range hrange) hp hentry hpub hmatch hnot hplace
    · exact hapart.not_retired (hkept range hrange) hp ⟨hmem, hname⟩ hgone hplace
  · intro hnone range hrange
    rw [hetag]
    apply (hkept range hrange).belongs
    rintro r ⟨hr, hforeign⟩
    -- the second loop has added no failure to those of the first
    rw [hsweep] at hnone
    exact retire_files_spec.2.2.2 (by omega) r hr hforeign

/-- A record that names, for the first five bytes, the file of the first ten. -/
def misnamed_record : NewCacheMetadata :=
  record_of [RangeSpec.new_staged 1 0 4 (versioned_range_file_path ['o'] 0 9 ['v']) 5 5 false]

/-- The file is deleted with the range that does not fit its name, and the `Add` of the first ten
bytes then publishes it. -/
theorem retired_file_is_published :
    ∃ result, consolidate_object_with_files some (fun etag => etag.toList) 5 6
        ⟨fun _ => false, fun _ => false⟩ {versioned_range_file_path ['o'] 0 9 ['v']}
        (some misnamed_record) [add_of_first_ten 4 10] [] = some result ∧
      ∃ range ∈ result.written.ranges,
        range.file_path = versioned_range_file_path ['o'] 0 9 ['v'] ∧
        range.file_path ∈ result.sweep.deleted := by
  refine ⟨_, rfl, (add_of_first_ten 4 10).range_spec, ?_, rfl, ?_⟩
  all_goals decide +kernel

def overwritten_record : NewCacheMetadata :=
  record_of [RangeSpec.new_staged 1 0 9 (versioned_range_file_path ['o'] 0 9 ['u']) 10 10 false]

def mixed_batch : List JournalEntry :=
  [add_of_first_ten 4 10,
    { add_of_first_ten 5 10 with
      range_spec := RangeSpec.new_staged 2 20 29
        (versioned_range_file_path ['o'] 20 29 ['u']) 10 10 false }]

theorem apartPaths_some {a b : FilePath} (h : a ≠ b) : ApartPaths some a b := by
  intro p hp hb
  exact h (Option.some.inj (hp.trans hb.symm))

/-- Both files of the older version go, the new one stays. -/
theorem mixed_batch_spares_its_files :
    ∃ result, consolidate_object_with_files some (fun etag => etag.toList) 5 6
        ⟨fun _ => false, fun _ => false⟩
        {versioned_range_file_path ['o'] 0 9 ['v'], versioned_range_file_path ['o'] 0 9 ['u'],
          versioned_range_file_path ['o'] 20 29 ['u']}
        (some overwritten_record) mixed_batch [] = some result ∧
      result.sweep.deleted.card = 2 ∧ result.written.ranges.length = 1 ∧
      (∀ range ∈ result.written.ranges, range.file_path ∉ result.sweep.deleted) ∧
      ∀ range ∈ result.written.ranges,
        range_file_belongs_to range result.written.object_metadata.etag.toList = true := by
  have hapart : Apart some (fun etag => etag.toList) overwritten_record mixed_batch := by
    refine ⟨?_, ?_, ?_⟩
    · rintro range entry ⟨hrange, -⟩ ⟨hentry, -, hmatch⟩
      have hpaths : ∀ r ∈ overwritten_record.ranges, ∀ e ∈ mixed_batch,
          e.matches_object_version (fun etag => etag.toList)
            overwritten_record.object_metadata.etag = true →
          r.file_path ≠ e.range_spec.file_path := by decide +kernel
      exact apartPaths_some (hpaths range hrange entry hentry hmatch)
    · intro range kept _ _ hne
      exact apartPaths_some (Ne.symm hne)
    · intro entry _ _ _
      exact ⟨fun kept _ hne => apartPaths_some (Ne.symm hne),
        fun kept _ hne => apartPaths_some (Ne.symm hne)⟩
  have hspared := written_ranges_not_deleted some (fun etag => etag.toList) 5 6
    ⟨fun _ => false, fun _ => false⟩ {versioned_range_file_path ['o'] 0 9 ['v'],
      versioned_range_file_path ['o'] 0 9 ['u'], versioned_range_file_path ['o'] 20 29 ['u']}
    (some overwritten_record) mixed_batch [] _ rfl
  exact ⟨_, rfl, by decide +kernel, by decide +kernel,
    fun range hrange => hspared.1 hapart range hrange range.file_path rfl,
    hspared.2 (by decide +kernel)⟩

end Spared

end HybridCache.Journal
