/-
Consolidation of the journal entries of one object into its record
(`consolidate_object_with_files`, `resolve_conflicts`, `apply_journal_entries` and
`load_or_create_metadata_with_journal_entries` in `journal_consolidator.rs`; `JournalEntry` in
`journal_manager.rs`).

Entries of other versions are dropped, and so are ranges whose files are not named for the record's
version. Then two passes run over the batch. The first takes for each extent the newest publication
and puts it over the range on record if that is older; the second walks all entries in order. The
clock is read when a record is built, and again when a refresh is applied.
-/
import HybridCache.CacheTypes.Record
import HybridCache.Lib.SortByKey

namespace HybridCache.Journal

open Lib CacheTypes List

/-! ## Entries -/

inductive JournalOperation where
  | Add
  | Update
  | Remove
  | TtlRefresh
  | AccessUpdate
  | Graduation
deriving DecidableEq, Repr

structure JournalEntry where
  timestamp : ℕ
  cache_key : String
  range_spec : RangeSpec
  operation : JournalOperation
  new_ttl_secs : Option ℕ
  object_ttl_secs : Option ℕ
  access_increment : Option ℕ
  object_metadata : Option ObjectMetadata
deriving DecidableEq, Repr

namespace JournalEntry

def extent (entry : JournalEntry) : ℕ × ℕ :=
  entry.range_spec.extent

def publishes (entry : JournalEntry) : Bool :=
  entry.operation = .Add ∨ entry.operation = .Update

def matches_object_version (object_version_id : String → FilePath) (etag : String)
    (entry : JournalEntry) : Bool :=
  match entry.operation with
  | .Remove =>
    match range_file_version entry.range_spec.file_path with
    | some version => version = object_version_id etag
    | none => true
  | .Add | .Update =>
    range_file_belongs_to entry.range_spec (object_version_id etag) &&
      match entry.object_metadata with
      | some object => object.etag = etag
      | none => true
  | _ => true

end JournalEntry

def get_all_entries_for_cache_key (journals : List JournalEntry) (cache_key : String) :
    List JournalEntry :=
  sort_by_key JournalEntry.timestamp (journals.filter fun entry => entry.cache_key = cache_key)

variable {entry : JournalEntry} {entries : List JournalEntry}

theorem mem_get_all_entries {journals : List JournalEntry} {cache_key : String} :
    entry ∈ get_all_entries_for_cache_key journals cache_key ↔
      entry ∈ journals ∧ entry.cache_key = cache_key := by
  simp [get_all_entries_for_cache_key]

/-! ## Resolving conflicts -/

/-- One entry of the first loop: the map keeps, for each extent, the newest entry seen. -/
def insert_newest (journal_ranges : List JournalEntry) (entry : JournalEntry) :
    List JournalEntry :=
  match lookup JournalEntry.extent journal_ranges entry.extent with
  | some existing =>
    if entry.timestamp > existing.timestamp then
      update_first JournalEntry.extent entry.extent (fun _ => entry) journal_ranges
    else journal_ranges
  | none => journal_ranges ++ [entry]

/-- `journal_ranges`: the newest publication of each extent. -/
def journal_ranges (entries : List JournalEntry) : List JournalEntry :=
  (entries.filter JournalEntry.publishes).foldl insert_newest []

open RangeSpec

/-- One entry of the second loop. -/
def resolve_range (ranges : List RangeSpec) (journal_entry : JournalEntry) : List RangeSpec :=
  update_first extent journal_entry.extent
    (fun existing_range =>
      if journal_entry.timestamp > existing_range.created_at then journal_entry.range_spec
      else existing_range) ranges

def resolve_conflicts (metadata : NewCacheMetadata) (entries : List JournalEntry) :
    NewCacheMetadata :=
  { metadata with ranges := (journal_ranges entries).foldl resolve_range metadata.ranges }

/-! ## Applying entries -/

structure Applied where
  metadata : NewCacheMetadata
  entries_applied : ℕ
  size_affecting_entries : List JournalEntry
  graduated_bytes : ℕ

def retained_by (entry : JournalEntry) (range : RangeSpec) : Bool :=
  if range.extent ≠ entry.extent ∨
      file_name range.file_path ≠ file_name entry.range_spec.file_path then true
  -- published again after the removal was recorded
  else range.created_at > entry.timestamp

/-- `apply_journal_entries` on one entry. -/
def apply_entry (object_version_id : String → FilePath) (now : ℕ) (s : Applied)
    (entry : JournalEntry) : Applied :=
  let metadata := s.metadata
  match entry.operation with
  | .Add =>
    match lookup extent metadata.ranges entry.extent with
    | none =>
      { s with
        metadata := { metadata with ranges := metadata.ranges ++ [entry.range_spec] }
        entries_applied := s.entries_applied + 1
        size_affecting_entries := s.size_affecting_entries ++ [entry] }
    | some _ => s
  | .Update =>
    match lookup extent metadata.ranges entry.extent with
    | some _ =>
      { s with
        metadata := { metadata with
          ranges := update_first extent entry.extent (fun _ => entry.range_spec)
            metadata.ranges }
        entries_applied := s.entries_applied + 1 }
    | none => s
  | .Remove =>
    if entry.matches_object_version object_version_id metadata.object_metadata.etag then
      { s with
        metadata := { metadata with ranges := metadata.ranges.filter (retained_by entry) }
        entries_applied := s.entries_applied + 1
        size_affecting_entries := s.size_affecting_entries ++ [entry] }
    else s
  | .TtlRefresh =>
    match entry.new_ttl_secs with
    | some new_ttl =>
      { s with
        metadata := { metadata.refresh_object_ttl now new_ttl with
          ranges := update_first extent entry.extent
            (fun range => { range with last_accessed := entry.timestamp }) metadata.ranges }
        entries_applied := s.entries_applied + 1 }
    | none => s
  | .Graduation =>
    if metadata.object_metadata.graduation_accounted then s
    else
      { s with
        metadata := { metadata with
          object_metadata := { metadata.object_metadata with graduation_accounted := true } }
        graduated_bytes := min (s.graduated_bytes + entry.range_spec.compressed_size) (2 ^ 64 - 1)
        entries_applied := s.entries_applied + 1 }
  | .AccessUpdate =>
    match entry.access_increment, lookup extent metadata.ranges entry.extent with
    | some access_increment, some _ =>
      { s with
        metadata := { metadata with
          ranges := update_first extent entry.extent
            (fun range => { range with
              access_count := range.access_count + access_increment
              last_accessed := entry.timestamp }) metadata.ranges }
        entries_applied := s.entries_applied + 1 }
    | _, _ => s

def infer_content_length (metadata : NewCacheMetadata) : NewCacheMetadata :=
  match metadata.ranges with
  | [range] =>
    if range.start = 0 ∧ metadata.object_metadata.content_length = 0 then
      { metadata with
        object_metadata := { metadata.object_metadata with content_length := range.end_ + 1 } }
    else metadata
  | _ => metadata

def apply_journal_entries (object_version_id : String → FilePath) (now : ℕ)
    (metadata : NewCacheMetadata) (entries : List JournalEntry) : Applied :=
  let s := entries.foldl (apply_entry object_version_id now) ⟨metadata, 0, [], 0⟩
  { s with metadata := infer_content_length s.metadata }

/-! ## The whole of a consolidation -/

/-- `Iterator::max_by_key` on timestamps: the last of the newest. -/
def max_by_timestamp (entries : List JournalEntry) : Option JournalEntry :=
  entries.foldl (fun best entry =>
    match best with
    | some b => if b.timestamp ≤ entry.timestamp then some entry else best
    | none => some entry) none

def object_entry (entries : List JournalEntry) : Option JournalEntry :=
  (max_by_timestamp (entries.filter fun entry =>
    entry.publishes && entry.object_metadata.any fun object => object.etag ≠ "")).or
      (entries.find? fun entry => entry.object_metadata.isSome)

/-- `load_or_create_metadata_with_journal_entries`; `file` is the record on disk, if there is
one. -/
def load_or_create_metadata (now : ℕ) (file : Option NewCacheMetadata)
    (entries : List JournalEntry) : NewCacheMetadata :=
  match file with
  | some metadata => metadata
  | none =>
    { object_metadata := ((object_entry entries).bind JournalEntry.object_metadata).getD default
      ranges := []
      created_at := now
      expires_at := now + ((object_entry entries).bind JournalEntry.object_ttl_secs).getD 0
      head_expires_at := none
      head_last_accessed := none
      head_access_count := 0
      head_cached_at := none }

/-- The ranges of a record that are not named for its version go with their files; an unlink
that fails keeps the range. -/
def retire_foreign_ranges (object_version_id : String → FilePath) (unlinked : RangeSpec → Bool)
    (metadata : NewCacheMetadata) : NewCacheMetadata :=
  let retired := metadata.ranges.filter fun range =>
    !range_file_belongs_to range (object_version_id metadata.object_metadata.etag) &&
      unlinked range
  { metadata with
    ranges := metadata.ranges.filter fun range =>
      range.file_path ∉ retired.map fun r => r.file_path }

/-- `consolidate_object_with_files`, from the valid entries of the object to the record it
writes. -/
def consolidate_object (object_version_id : String → FilePath) (loaded_at applied_at : ℕ)
    (unlinked : RangeSpec → Bool) (file : Option NewCacheMetadata)
    (valid_entries : List JournalEntry) : NewCacheMetadata :=
  let metadata := load_or_create_metadata loaded_at file valid_entries
  let matching_entries := valid_entries.filter
    (JournalEntry.matches_object_version object_version_id metadata.object_metadata.etag)
  let metadata := retire_foreign_ranges object_version_id unlinked metadata
  (apply_journal_entries object_version_id applied_at
    (resolve_conflicts metadata matching_entries) matching_entries).metadata

/-! ## What no entry changes

Everything an entry does to a record is one of these: it rewrites the list of
ranges, it moves `expires_at` to the refresh it carries, it sets the graduation
token. -/

section Frame

variable (object_version_id : String → FilePath) (now : ℕ)

/-- What entries can make of a record. -/
def Touched (m m' : NewCacheMetadata) : Prop :=
  ∃ ranges expires_at accounted, m' = { m with
    ranges := ranges
    expires_at := expires_at
    object_metadata := { m.object_metadata with graduation_accounted := accounted } }

/-- An entry touches the ranges, the expiry and the token of a record, and nothing else. -/
theorem apply_entry_metadata (s : Applied) (entry : JournalEntry) :
    Touched s.metadata (apply_entry object_version_id now s entry).metadata := by
  unfold apply_entry
  dsimp only
  split
  all_goals first
    | exact ⟨s.metadata.ranges, s.metadata.expires_at, _, rfl⟩
    | split
      all_goals exact ⟨_, _, _, rfl⟩

/-- The TTL an entry sets, if it is a refresh that carries one. -/
def JournalEntry.refresh_ttl? (entry : JournalEntry) : Option ℕ :=
  if entry.operation = .TtlRefresh then entry.new_ttl_secs else none

/-- Only a refresh moves the expiry, to its own TTL from now. -/
theorem apply_entry_expires_at (s : Applied) :
    (apply_entry object_version_id now s entry).metadata.expires_at =
      entry.refresh_ttl?.elim s.metadata.expires_at fun ttl => Metadata.safe_expiry now ttl := by
  unfold apply_entry
  cases hop : entry.operation with
  | TtlRefresh =>
    have httl : entry.refresh_ttl? = entry.new_ttl_secs := by
      rw [JournalEntry.refresh_ttl?, if_pos hop]
    rw [httl]
    cases entry.new_ttl_secs <;> rfl
  | _ =>
    have hnone : entry.refresh_ttl? = none := by
      rw [JournalEntry.refresh_ttl?, if_neg (by rw [hop]; decide)]
    rw [hnone]
    dsimp only
    split <;> rfl

theorem infer_content_length_metadata (metadata : NewCacheMetadata) :
    ∃ content_length, infer_content_length metadata =
      { metadata with
        object_metadata :=
          { metadata.object_metadata with content_length := content_length } } := by
  unfold infer_content_length
  split
  · split <;> exact ⟨_, rfl⟩
  · exact ⟨_, rfl⟩

@[simp] theorem infer_content_length_ranges (metadata : NewCacheMetadata) :
    (infer_content_length metadata).ranges = metadata.ranges := by
  obtain ⟨_, h⟩ := infer_content_length_metadata metadata
  rw [h]

theorem foldl_apply_entry_metadata (s : Applied) (batch : List JournalEntry) :
    Touched s.metadata (batch.foldl (apply_entry object_version_id now) s).metadata := by
  induction batch generalizing s with
  | nil => exact ⟨_, _, _, rfl⟩
  | cons entry rest ih =>
    obtain ⟨_, _, _, hentry⟩ := apply_entry_metadata object_version_id now s entry
    obtain ⟨ranges, expires_at, accounted, hrest⟩ := ih (apply_entry object_version_id now s entry)
    refine ⟨ranges, expires_at, accounted, ?_⟩
    rw [foldl_cons, hrest, hentry]

/-- What a consolidation can change of a record. -/
theorem consolidate_object_metadata (loaded_at applied_at : ℕ) (unlinked : RangeSpec → Bool)
    (file : Option NewCacheMetadata) (batch : List JournalEntry) :
    ∃ ranges expires_at accounted content_length,
      consolidate_object object_version_id loaded_at applied_at unlinked file batch =
        { load_or_create_metadata loaded_at file batch with
          ranges := ranges
          expires_at := expires_at
          object_metadata :=
            { (load_or_create_metadata loaded_at file batch).object_metadata with
              graduation_accounted := accounted
              content_length := content_length } } := by
  unfold consolidate_object apply_journal_entries
  dsimp only
  generalize batch.filter _ = matching
  obtain ⟨ranges, expires_at, accounted, happly⟩ := foldl_apply_entry_metadata object_version_id
    applied_at ⟨resolve_conflicts (retire_foreign_ranges object_version_id unlinked
      (load_or_create_metadata loaded_at file batch)) matching, 0, [], 0⟩ matching
  rw [happly]
  obtain ⟨content_length, hinfer⟩ := infer_content_length_metadata _
  rw [hinfer]
  exact ⟨ranges, expires_at, accounted, content_length, rfl⟩

end Frame

/-! ## Where a missing record comes from -/

theorem mem_of_max_by_timestamp (h : max_by_timestamp entries = some entry) : entry ∈ entries := by
  induction entries using List.reverseRecOn with
  | nil => cases h
  | append_singleton rest last ih =>
    unfold max_by_timestamp at h ih
    rw [foldl_append, foldl_cons, foldl_nil] at h
    split at h
    · split_ifs at h
      · cases h
        exact mem_append_right _ mem_cons_self
      · exact mem_append_left _ (ih h)
    · cases h
      exact mem_append_right _ mem_cons_self

theorem mem_of_object_entry (h : object_entry entries = some entry) : entry ∈ entries := by
  rcases Option.or_eq_some_iff.mp h with hnewest | ⟨-, hfirst⟩
  · exact (mem_filter.mp (mem_of_max_by_timestamp hnewest)).1
  · exact List.mem_of_find?_eq_some hfirst

/-! ## Where the extents of a record come from -/

section Extents

variable (object_version_id : String → FilePath) (now : ℕ)

/-- Conflicts are resolved in place. -/
theorem resolve_conflicts_extents (metadata : NewCacheMetadata) :
    (resolve_conflicts metadata entries).ranges.map extent = metadata.ranges.map extent := by
  unfold resolve_conflicts
  generalize journal_ranges entries = newest
  generalize metadata.ranges = ranges
  induction newest generalizing ranges with
  | nil => rfl
  | cons entry rest ih =>
    rw [foldl_cons, ih]
    refine map_key_update_first (fun range hrange => ?_) ranges
    split_ifs
    · rfl
    · exact hrange

variable {s : Applied} {x : ℕ × ℕ} {batch : List JournalEntry}

theorem mem_extents_apply_entry {entry : JournalEntry}
    (h : x ∈ (apply_entry object_version_id now s entry).metadata.ranges.map extent) :
    x ∈ s.metadata.ranges.map extent ∨ entry.publishes = true ∧ x = entry.extent := by
  unfold apply_entry at h
  cases hop : entry.operation with (rw [hop] at h; dsimp only at h)
  | Add =>
    split at h
    · rw [map_append, mem_append] at h
      refine h.imp id fun h => ⟨?_, mem_singleton.mp h⟩
      simp [JournalEntry.publishes, hop]
    · exact .inl h
  | Update =>
    split at h
    · rw [map_key_update_first] at h
      · exact .inl h
      · exact fun _ _ => rfl
    · exact .inl h
  | Remove =>
    split at h
    · exact .inl ((filter_sublist.map _).subset h)
    · exact .inl h
  | TtlRefresh | AccessUpdate =>
    split at h
    · rw [map_key_update_first] at h
      · exact .inl h
      · exact fun _ hrange => hrange
    · exact .inl h
  | Graduation => split at h <;> exact .inl h

/-- An extent comes from the record or from an entry that publishes it. -/
theorem mem_extents_foldl_apply_entry
    (h : x ∈ (batch.foldl (apply_entry object_version_id now) s).metadata.ranges.map extent) :
    x ∈ s.metadata.ranges.map extent ∨
      ∃ entry ∈ batch, entry.publishes = true ∧ x = entry.extent := by
  induction batch generalizing s with
  | nil => exact .inl h
  | cons entry rest ih =>
    rcases ih h with h | ⟨entry', hentry', hpub, hx⟩
    · rcases mem_extents_apply_entry object_version_id now h with h | ⟨hpub, hx⟩
      · exact .inl h
      · exact .inr ⟨entry, mem_cons_self, hpub, hx⟩
    · exact .inr ⟨entry', mem_cons_of_mem _ hentry', hpub, hx⟩

theorem consolidate_object_content_length (loaded_at applied_at : ℕ) (unlinked : RangeSpec → Bool)
    (file : Option NewCacheMetadata) (batch : List JournalEntry)
    (h : (load_or_create_metadata loaded_at file batch).object_metadata.content_length = 0 →
      (∀ range ∈ (load_or_create_metadata loaded_at file batch).ranges, range.start ≠ 0) ∧
      ∀ entry ∈ batch, entry.publishes = true → entry.range_spec.start ≠ 0) :
    (consolidate_object object_version_id loaded_at applied_at unlinked file
        batch).object_metadata.content_length =
      (load_or_create_metadata loaded_at file batch).object_metadata.content_length := by
  unfold consolidate_object apply_journal_entries
  dsimp only
  generalize load_or_create_metadata loaded_at file batch = loaded at h ⊢
  generalize hmatching : batch.filter (JournalEntry.matches_object_version object_version_id
    loaded.object_metadata.etag) = matching
  obtain ⟨ranges, expires_at, accounted, happly⟩ := foldl_apply_entry_metadata object_version_id
    applied_at ⟨resolve_conflicts (retire_foreign_ranges object_version_id unlinked loaded)
      matching, 0, [], 0⟩ matching
  have hextents : ∀ x ∈ ranges.map extent, x ∈ loaded.ranges.map extent ∨
      ∃ entry ∈ batch, entry.publishes = true ∧ x = entry.extent := by
    intro x hx
    have happlied : x ∈ (matching.foldl (apply_entry object_version_id applied_at)
        ⟨resolve_conflicts (retire_foreign_ranges object_version_id unlinked loaded) matching, 0,
          [], 0⟩).metadata.ranges.map extent := by
      rw [happly]
      exact hx
    rcases mem_extents_foldl_apply_entry object_version_id applied_at happlied with
      hold | ⟨entry, hentry, hnew⟩
    · dsimp only at hold
      rw [resolve_conflicts_extents] at hold
      exact .inl ((filter_sublist.map _).subset hold)
    · exact .inr ⟨entry, (mem_filter.mp (hmatching ▸ hentry)).1, hnew⟩
  rw [happly]
  unfold infer_content_length
  dsimp only
  split
  · rename_i range
    split_ifs with hzero
    · -- the one range starts the object, which neither the record nor an entry allows
      obtain ⟨hranges, hentries⟩ := h hzero.2
      rcases hextents range.extent (by simp) with hold | ⟨entry, hentry, hpub, hx⟩
      · obtain ⟨range', hrange', hx⟩ := List.mem_map.mp hold
        exact absurd ((congrArg Prod.fst hx).trans hzero.1) (hranges range' hrange')
      · exact absurd ((congrArg Prod.fst hx).symm.trans hzero.1) (hentries entry hentry hpub)
    · rfl
  · rfl

end Extents

/-! ## A small object -/

def add_of_first_ten (timestamp compressed_size : ℕ) : JournalEntry where
  timestamp := timestamp
  cache_key := "bucket/object"
  range_spec := new_staged timestamp 0 9
    (versioned_range_file_path ['o'] 0 9 ['v']) compressed_size 10 false
  operation := .Add
  new_ttl_secs := none
  object_ttl_secs := some 60
  access_increment := none
  object_metadata := none

def record_of (ranges : List RangeSpec) : NewCacheMetadata :=
  { (default : NewCacheMetadata) with
    object_metadata := { (default : ObjectMetadata) with etag := "v" }
    ranges := ranges }

end HybridCache.Journal
