/-
The freshness a consolidation writes (`apply_journal_entries` on `TtlRefresh`,
`load_or_create_metadata_with_journal_entries` in `journal_consolidator.rs`, `refresh_object_ttl`
in `cache_types.rs`).

Consolidation runs later than what its entries report, and may meet an entry again. It counts every
TTL from its own clock; the entry's timestamp is used for the access time of a range only.
-/
import HybridCache.Journal.Consolidate

namespace HybridCache.Journal

open Lib CacheTypes List

def JournalEntry.carried_ttl (entry : JournalEntry) : Option ℕ :=
  match entry.operation with
  | .TtlRefresh => entry.new_ttl_secs
  | .Add | .Update => entry.object_ttl_secs
  | _ => none

def refreshes (batch : List JournalEntry) : List ℕ :=
  batch.filterMap JournalEntry.refresh_ttl?

/-- The TTL of a record that is built from a batch. -/
def built_ttl (batch : List JournalEntry) : ℕ :=
  ((object_entry batch).bind JournalEntry.object_ttl_secs).getD 0

/-! ## What is written -/

section Written

variable (object_version_id : String → FilePath) (now : ℕ)

theorem foldl_apply_entry_expires_at (s : Applied) (batch : List JournalEntry) :
    (batch.foldl (apply_entry object_version_id now) s).metadata.expires_at =
      (refreshes batch).getLast?.elim s.metadata.expires_at (Metadata.safe_expiry now) := by
  unfold refreshes
  induction batch using List.reverseRecOn with
  | nil => rfl
  | append_singleton rest entry ih =>
    rw [foldl_append, foldl_cons, foldl_nil, apply_entry_expires_at, filterMap_append]
    cases httl : entry.refresh_ttl? with
    | none =>
      rw [filterMap_cons_none httl, filterMap_nil, append_nil]
      exact ih
    | some ttl =>
      rw [filterMap_cons_some httl, filterMap_nil, List.getLast?_concat]
      rfl

theorem refreshes_filter_matching (etag : String) (batch : List JournalEntry) :
    refreshes (batch.filter (JournalEntry.matches_object_version object_version_id etag)) =
      refreshes batch := by
  unfold refreshes
  rw [filterMap_filter]
  apply filterMap_congr
  intro entry _
  by_cases hop : entry.operation = .TtlRefresh
  · simp [JournalEntry.matches_object_version, hop]
  · have hnone : entry.refresh_ttl? = none := if_neg hop
    rw [hnone]
    split <;> rfl

theorem consolidate_object_expires_at (loaded_at applied_at : ℕ) (unlinked : RangeSpec → Bool)
    (file : Option NewCacheMetadata) (batch : List JournalEntry) :
    (consolidate_object object_version_id loaded_at applied_at unlinked file batch).expires_at =
      (refreshes batch).getLast?.elim (load_or_create_metadata loaded_at file batch).expires_at
        (Metadata.safe_expiry applied_at) := by
  unfold consolidate_object apply_journal_entries
  dsimp only
  generalize (load_or_create_metadata loaded_at file batch).object_metadata.etag = etag
  obtain ⟨_, hinfer⟩ := infer_content_length_metadata
    ((batch.filter (JournalEntry.matches_object_version object_version_id etag)).foldl
      (apply_entry object_version_id applied_at) ⟨resolve_conflicts (retire_foreign_ranges
        object_version_id unlinked (load_or_create_metadata loaded_at file batch))
        (batch.filter (JournalEntry.matches_object_version object_version_id etag)),
          0, [], 0⟩).metadata
  rw [hinfer, foldl_apply_entry_expires_at, refreshes_filter_matching]
  rfl

theorem consolidate_object_created_at (loaded_at applied_at : ℕ) (unlinked : RangeSpec → Bool)
    (file : Option NewCacheMetadata) (batch : List JournalEntry) :
    (consolidate_object object_version_id loaded_at applied_at unlinked file batch).created_at =
      file.elim loaded_at NewCacheMetadata.created_at := by
  obtain ⟨_, _, _, _, hrecord⟩ := consolidate_object_metadata object_version_id loaded_at applied_at
    unlinked file batch
  rw [hrecord]
  cases file <;> rfl

end Written

/-! ## What may be written -/

/-- The entries that date the freshness of a batch: those that carry a TTL, or all of them if
none does. -/
def dated (batch : List JournalEntry) : List JournalEntry :=
  if batch.any fun entry => entry.carried_ttl.isSome then
    batch.filter fun entry => entry.carried_ttl.isSome
  else batch

/-- A time is within the TTL of the newest of the entries, counted from when it was written. -/
def WithinNewest (batch : List JournalEntry) (time : ℕ) : Prop :=
  ∃ entry ∈ dated batch, (∀ entry' ∈ dated batch, entry'.timestamp ≤ entry.timestamp) ∧
    time ≤ entry.timestamp + entry.carried_ttl.getD 0

/-- The data does not look fresher than it is: the expiry is at most the previous one or within
the TTL of the newest entry, and a record that was built is no younger than its entries. -/
structure NotFresher (file : Option NewCacheMetadata) (batch : List JournalEntry)
    (result : NewCacheMetadata) : Prop where
  expiry : (∃ previous ∈ file, result.expires_at ≤ previous.expires_at) ∨
    WithinNewest batch result.expires_at
  created : file = none → ∃ entry ∈ batch, result.created_at ≤ entry.timestamp

/-- The consolidation runs in time: the last refresh, counted from now, ends before the previous
expiry or within the newest entry's TTL; so does the TTL of a record that is built, and that is
built no later than its newest entry was written. -/
structure InTime (loaded_at applied_at : ℕ) (file : Option NewCacheMetadata)
    (batch : List JournalEntry) : Prop where
  refreshed : ∀ ttl ∈ (refreshes batch).getLast?,
    (∃ previous ∈ file, applied_at + min ttl Metadata.MAX_TTL_SECS ≤ previous.expires_at) ∨
      WithinNewest batch (applied_at + min ttl Metadata.MAX_TTL_SECS)
  built : file = none → refreshes batch = [] → WithinNewest batch (loaded_at + built_ttl batch)
  created : file = none → ∃ entry ∈ batch, loaded_at ≤ entry.timestamp

/-- **Consolidation and freshness.** For every record, batch and pair of clock readings: what
consolidation writes is no fresher than the entries say if and only if it runs in time. -/
theorem consolidation_not_fresher_iff (object_version_id : String → FilePath)
    (loaded_at applied_at : ℕ) (unlinked : RangeSpec → Bool) (file : Option NewCacheMetadata)
    (batch : List JournalEntry) :
    NotFresher file batch
        (consolidate_object object_version_id loaded_at applied_at unlinked file batch) ↔
      InTime loaded_at applied_at file batch := by
  have hexpires :=
    consolidate_object_expires_at object_version_id loaded_at applied_at unlinked file
    batch
  have hcreated :=
    consolidate_object_created_at object_version_id loaded_at applied_at unlinked file
    batch
  have hcreated_iff : (file = none → ∃ entry ∈ batch,
      (consolidate_object object_version_id loaded_at applied_at unlinked file batch).created_at ≤
        entry.timestamp) ↔ (file = none → ∃ entry ∈ batch, loaded_at ≤ entry.timestamp) := by
    refine forall_congr' fun hnone => ?_
    rw [hcreated, hnone]
    rfl
  constructor
  · rintro ⟨hexpiry, hage⟩
    rw [hexpires] at hexpiry
    refine ⟨fun ttl hlast => ?_, fun hnone hnil => ?_, hcreated_iff.mp hage⟩
    · rw [Option.mem_def.mp hlast] at hexpiry
      exact hexpiry
    · rw [hnone, hnil] at hexpiry
      rcases hexpiry with ⟨_, hmem, -⟩ | hwithin
      · cases hmem
      · exact hwithin
  · rintro ⟨hrefreshed, hbuilt, hage⟩
    refine ⟨?_, hcreated_iff.mpr hage⟩
    rw [hexpires]
    cases hlast : (refreshes batch).getLast? with
    | some ttl => exact hrefreshed ttl hlast
    | none =>
      cases file with
      | some previous => exact .inl ⟨previous, rfl, Nat.le_refl _⟩
      | none => exact .inr (hbuilt rfl (List.getLast?_eq_none_iff.mp hlast))

def ttl_refresh (cache_key : String) (timestamp new_ttl_secs : ℕ) : JournalEntry where
  timestamp := timestamp
  cache_key := cache_key
  range_spec :=
    { start := 0
      end_ := 0
      file_path := []
      compression_algorithm := .Lz4
      compressed_size := 0
      uncompressed_size := 0
      created_at := timestamp
      last_accessed := timestamp
      access_count := 0
      staged := none }
  operation := .TtlRefresh
  new_ttl_secs := some new_ttl_secs
  object_ttl_secs := none
  access_increment := none
  object_metadata := none

/-- A revalidation at 50 for 60 seconds, consolidated at 1000: the object is fresh until 1060. -/
theorem late_refresh_counts_from_consolidation :
    let previous : NewCacheMetadata := { (default : NewCacheMetadata) with expires_at := 50 }
    let batch := [ttl_refresh "bucket/object" 50 60]
    let result := consolidate_object (fun _ => []) 1000 1000 (fun _ => true) (some previous) batch
    result.expires_at = 1060 ∧ ¬ NotFresher (some previous) batch result := by
  refine ⟨rfl, fun h => ?_⟩
  rcases h.expiry with ⟨_, hmem, hle⟩ | ⟨entry, hentry, -, hle⟩
  · cases hmem
    exact absurd hle (by decide)
  · rw [mem_singleton.mp hentry] at hle
    exact absurd hle (by decide)

end HybridCache.Journal
