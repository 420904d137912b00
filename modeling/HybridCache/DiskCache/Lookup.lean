/-
Looking up cached ranges (`find_cached_ranges` and `find_pending_journal_ranges` in
`disk_cache.rs`, `RangeHandler::find_cached_ranges` in `range_handler.rs`).

A lookup picks the ranges of the record that reach into the request, in files named for its
version, and if there are none those that are only in the journals. Whether they are to be served
or revalidated decides what an expired record gives. The handler and the disk cache may read
different records. `journals` are the lines of all journal files.
-/
import HybridCache.Journal.Consolidate
import HybridCache.RangeHandler.Plan

namespace HybridCache.DiskCache

open Lib Lib.Outcome CacheTypes Journal
open RangeHandler (ProxyError)

inductive RangeLookupPurpose where
  | FreshServe
  | RevalidationCandidate
deriving DecidableEq, Repr

inductive StoredFreshness where
  | Fresh
  | Expired
deriving DecidableEq, Repr

structure RangeLookupResult where
  ranges : List RangeSpec
  stored_freshness : StoredFreshness
deriving DecidableEq, Repr

def RangeLookupResult.empty : RangeLookupResult :=
  ⟨[], .Fresh⟩

def RangeLookupResult.fresh (ranges : List RangeSpec) : RangeLookupResult :=
  ⟨ranges, .Fresh⟩

structure Request where
  cache_key : String
  requested_start : ℕ
  requested_end : ℕ
  now : ℕ
  shared_storage_mode : Bool
  journals : List JournalEntry

/-! ## Selecting ranges -/

def overlaps (start end_ : ℕ) (range : RangeSpec) : Bool :=
  start ≤ range.end_ ∧ range.start ≤ end_

def contains (start end_ : ℕ) (range : RangeSpec) : Bool :=
  range.start ≤ start ∧ range.end_ ≥ end_

/-- The scan both lookups make: the first range that contains the request alone, or else all that
reach into it, by start. -/
def select_overlapping (start end_ : ℕ) (ranges : List RangeSpec) : List RangeSpec :=
  let overlapping := ranges.filter (overlaps start end_)
  match overlapping.find? (contains start end_) with
  | some range => [range]
  | none => sort_by_key (fun range => range.start) overlapping

theorem mem_select_overlapping {start end_ : ℕ} {ranges : List RangeSpec} {range : RangeSpec}
    (h : range ∈ select_overlapping start end_ ranges) :
    range ∈ ranges ∧ overlaps start end_ range = true := by
  unfold select_overlapping at h
  dsimp only at h
  split at h
  · rename_i found hfound
    rw [List.mem_singleton.mp h]
    exact List.mem_filter.mp (List.mem_of_find?_eq_some hfound)
  · exact List.mem_filter.mp (mem_sort_by_key.mp h)

section Lookup

variable (object_version_id : String → FilePath)

def find_pending_journal_ranges (request : Request) (object_etag : Option String) :
    List RangeSpec :=
  if request.shared_storage_mode = false then []
  else
    match object_etag with
    | none => []
    | some etag =>
      select_overlapping request.requested_start request.requested_end
        ((request.journals.filter fun entry =>
          entry.cache_key = request.cache_key ∧ entry.operation = .Add ∧
            entry.matches_object_version object_version_id etag).map JournalEntry.range_spec)

/-- `DiskCacheManager::find_cached_ranges`; `metadata` is the record handed in or read. -/
def find_cached_ranges (request : Request) (metadata : Option NewCacheMetadata)
    (purpose : RangeLookupPurpose) : Outcome ProxyError RangeLookupResult :=
  let rs := request.requested_start
  let re := request.requested_end
  if rs > re then
    err (.CacheError s!"Invalid requested range: start ({rs}) > end ({re})")
  else
    match metadata with
    | none => ok .empty
    | some metadata =>
      let expired := metadata.is_object_expired request.now
      -- decided before any range or journal is looked at
      if expired && purpose = .FreshServe then ok .empty
      else
        let stored_freshness := if expired then .Expired else .Fresh
        let overlapping_ranges := select_overlapping rs re (metadata.ranges.filter fun range =>
          range_file_belongs_to range (object_version_id metadata.object_metadata.etag))
        if overlapping_ranges.isEmpty then
          let journal_ranges := find_pending_journal_ranges object_version_id request
            (some metadata.object_metadata.etag)
          if journal_ranges.isEmpty then ok ⟨overlapping_ranges, stored_freshness⟩
          else ok (.fresh journal_ranges)
        else ok ⟨overlapping_ranges, stored_freshness⟩

variable {object_version_id} {request : Request} {purpose : RangeLookupPurpose}
  {result : RangeLookupResult}

/-- The ranges of a record that are in files of its version and reach into the request. -/
def selected_ranges (object_version_id : String → FilePath) (request : Request)
    (m : NewCacheMetadata) : List RangeSpec :=
  select_overlapping request.requested_start request.requested_end
    (m.ranges.filter fun range =>
      range_file_belongs_to range (object_version_id m.object_metadata.etag))

variable {m : NewCacheMetadata} {metadata : Option NewCacheMetadata} {range : RangeSpec}

/-- What a lookup in a record can return: nothing, if it is to serve and the record is expired;
ranges on record with the record's verdict; ranges found only in the journals, as fresh. -/
theorem find_cached_ranges_cases
    (hok : find_cached_ranges object_version_id request (some m) purpose = ok result) :
    (m.is_object_expired request.now = true ∧ purpose = .FreshServe ∧ result = .empty) ∨
    (¬ (m.is_object_expired request.now = true ∧ purpose = .FreshServe) ∧
      (result = ⟨selected_ranges object_version_id request m,
          if m.is_object_expired request.now then .Expired else .Fresh⟩ ∨
        selected_ranges object_version_id request m = [] ∧
          result = .fresh (find_pending_journal_ranges object_version_id request
            (some m.object_metadata.etag)))) := by
  unfold find_cached_ranges at hok
  dsimp only at hok
  rw [guard_eq_ok] at hok
  replace hok := hok.2
  split at hok
  · rename_i h
    obtain ⟨hexpired, hpurpose⟩ := Bool.and_eq_true_iff.mp h
    exact .inl ⟨hexpired, of_decide_eq_true hpurpose, (ok.inj hok).symm⟩
  · rename_i h
    refine .inr ⟨fun ⟨hexpired, hpurpose⟩ => h ?_, ?_⟩
    · rw [hexpired, hpurpose]
      rfl
    · split at hok
      · rename_i hselected
        split at hok
        · exact .inl (ok.inj hok).symm
        · exact .inr ⟨List.isEmpty_iff.mp hselected, (ok.inj hok).symm⟩
      · exact .inl (ok.inj hok).symm

theorem find_cached_ranges_none
    (hok : find_cached_ranges object_version_id request none purpose = ok result) :
    result = .empty := by
  unfold find_cached_ranges at hok
  rw [guard_eq_ok] at hok
  exact (ok.inj hok.2).symm

theorem find_cached_ranges_of_expired (h : ∀ m ∈ metadata, request.now > m.expires_at)
    (hok : find_cached_ranges object_version_id request metadata .FreshServe = ok result) :
    result = .empty := by
  cases metadata with
  | none => exact find_cached_ranges_none hok
  | some m =>
    have hexpired : m.is_object_expired request.now = true := decide_eq_true (h m rfl)
    rcases find_cached_ranges_cases hok with ⟨-, -, hempty⟩ | ⟨hnot, -⟩
    · exact hempty
    · exact absurd ⟨hexpired, rfl⟩ hnot

theorem belongs_of_mem_find_pending {etag : String}
    (h : range ∈ find_pending_journal_ranges object_version_id request (some etag)) :
    range_file_belongs_to range (object_version_id etag) = true := by
  unfold find_pending_journal_ranges at h
  split at h
  · cases h
  obtain ⟨entry, hentry, rfl⟩ := List.mem_map.mp (mem_select_overlapping h).1
  have hfilter := (List.mem_filter.mp hentry).2
  simp only [decide_eq_true_eq] at hfilter
  obtain ⟨-, hadd, hmatch⟩ := hfilter
  rw [JournalEntry.matches_object_version, hadd] at hmatch
  exact (Bool.and_eq_true_iff.mp hmatch).1

theorem belongs_of_mem_find_cached_ranges
    (hok : find_cached_ranges object_version_id request metadata purpose = ok result)
    (hrange : range ∈ result.ranges) :
    ∃ m ∈ metadata,
      range_file_belongs_to range (object_version_id m.object_metadata.etag) = true := by
  cases metadata with
  | none =>
    rw [find_cached_ranges_none hok] at hrange
    cases hrange
  | some m =>
    refine ⟨m, rfl, ?_⟩
    rcases find_cached_ranges_cases hok with ⟨-, -, rfl⟩ | ⟨-, rfl | ⟨-, rfl⟩⟩
    · cases hrange
    · exact (List.mem_filter.mp (mem_select_overlapping hrange).1).2
    · exact belongs_of_mem_find_pending hrange

/-- A lookup for revalidation finds ranges, and finds them only in the journals. -/
def JournalOnly (object_version_id : String → FilePath) (request : Request)
    (purpose : RangeLookupPurpose) (m : NewCacheMetadata) : Prop :=
  purpose = .RevalidationCandidate ∧ selected_ranges object_version_id request m = [] ∧
    find_pending_journal_ranges object_version_id request (some m.object_metadata.etag) ≠ []

/-- The verdict on an expired record gets lost in one place: under `RevalidationCandidate`, ranges
found only in the journals are reported fresh. -/
theorem fresh_verdict_on_expired
    (hok : find_cached_ranges object_version_id request (some m) purpose = ok result)
    (hexpired : request.now > m.expires_at) (hfresh : result.stored_freshness = .Fresh)
    (hranges : result.ranges ≠ []) : JournalOnly object_version_id request purpose m := by
  have hexp : m.is_object_expired request.now = true := decide_eq_true hexpired
  rcases find_cached_ranges_cases hok with ⟨-, -, rfl⟩ | ⟨hnot, hresult⟩
  · exact absurd rfl hranges
  · refine ⟨?_, ?_⟩
    · cases purpose with
      | FreshServe => exact absurd ⟨hexp, rfl⟩ hnot
      | RevalidationCandidate => rfl
    · rcases hresult with rfl | ⟨hselected, rfl⟩
      · rw [hexp] at hfresh
        cases hfresh
      · exact ⟨hselected, hranges⟩

end Lookup

end HybridCache.DiskCache

namespace HybridCache.RangeHandler

open Lib Lib.Outcome CacheTypes DiskCache
open Journal (add_of_first_ten record_of)

/-! ## The handler's lookup -/

structure RangeOverlap where
  cached_ranges : List Range
  missing_ranges : List RangeSpec
  can_serve_from_cache : Bool
  stored_freshness : StoredFreshness
deriving DecidableEq, Repr

namespace RangeOverlap

def all_missing (requested : RangeSpec) : RangeOverlap :=
  ⟨[], [requested], false, .Fresh⟩

def is_serveable_unvalidated (overlap : RangeOverlap) : Bool :=
  overlap.can_serve_from_cache && overlap.stored_freshness = .Fresh

end RangeOverlap

/-- What the lookups of one request read: the record the caller hands in, and the records that the
handler and then the disk cache find on disk if it does not. -/
structure LookupReads where
  preloaded_metadata : Option NewCacheMetadata
  handler_read : Option NewCacheMetadata
  disk_cache_read : Option NewCacheMetadata

def LookupReads.looked_up (reads : LookupReads) : Option NewCacheMetadata :=
  reads.preloaded_metadata.or reads.disk_cache_read

/-- `RangeHandler::find_cached_ranges`, the answer. On an etag mismatch it also invalidates what
is cached. -/
def find_cached_ranges (object_version_id : String → FilePath) (request : Request)
    (reads : LookupReads) (current_etag : Option String) (purpose : RangeLookupPurpose) :
    Outcome ProxyError RangeOverlap :=
  let requested : RangeSpec := ⟨request.requested_start, request.requested_end⟩
  match reads.preloaded_metadata.or reads.handler_read with
  | none => ok (.all_missing requested)
  | some metadata =>
    if current_etag.any fun etag => etag ≠ metadata.object_metadata.etag then
      ok (.all_missing requested)
    else do
      let lookup ← DiskCache.find_cached_ranges object_version_id request reads.looked_up purpose
      if lookup.ranges.isEmpty then ok (.all_missing requested)
      else
        let cached_ranges := lookup.ranges.map fun range_spec => ⟨range_spec.start, range_spec.end_⟩
        let covered := lookup.ranges.map fun range_spec =>
          ⟨max requested.start range_spec.start, min requested.end_ range_spec.end_⟩
        let missing_ranges ← calculate_missing_ranges requested covered
        ok ⟨cached_ranges, missing_ranges, missing_ranges.isEmpty, lookup.stored_freshness⟩

theorem find_cached_ranges_all_missing {object_version_id : String → FilePath} {request : Request}
    {reads : LookupReads} {current_etag : Option String} {overlap : RangeOverlap}
    (hexpired : ∀ m ∈ reads.looked_up, request.now > m.expires_at)
    (hok : find_cached_ranges object_version_id request reads current_etag .FreshServe =
      ok overlap) : overlap = .all_missing ⟨request.requested_start, request.requested_end⟩ := by
  unfold find_cached_ranges at hok
  split at hok
  · exact (ok.inj hok).symm
  · split at hok
    · exact (ok.inj hok).symm
    · obtain ⟨lookup, hlookup, hrest⟩ := bind_eq_ok.mp hok
      rw [find_cached_ranges_of_expired hexpired hlookup] at hrest
      exact (ok.inj hrest).symm

/-- A lookup for revalidation, long after the record's expiry, of a range with a pending entry. -/
def late_lookup (recorded : List CacheTypes.RangeSpec) : Outcome ProxyError RangeOverlap :=
  find_cached_ranges (fun _ => ['v']) ⟨"bucket/object", 0, 9, 100, true, [add_of_first_ten 1 5]⟩
    ⟨some (record_of recorded), none, none⟩ (some "v") .RevalidationCandidate

end HybridCache.RangeHandler
