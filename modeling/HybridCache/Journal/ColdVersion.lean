/-
Which version a record is built for when there is none
(`load_or_create_metadata_with_journal_entries` in `journal_consolidator.rs`), against the version
that stores leave one after the other (`prepare_object_version` in `disk_cache.rs`).

A store replaces the recorded version only by a strictly newer one. A record that is built from the
journal is for the version journaled last, and nothing is compared: a delayed response wins.
-/
import HybridCache.DiskCache.Versions

namespace HybridCache.Journal

open Lib CacheTypes DiskCache List

/-! ## The version the journal gives -/

def JournalEntry.has_version (entry : JournalEntry) : Bool :=
  entry.publishes && entry.object_metadata.any fun object => object.etag ≠ ""

def version_entries (entries : List JournalEntry) : List JournalEntry :=
  entries.filter JournalEntry.has_version

def chosen_version (now : ℕ) (entries : List JournalEntry) : ObjectMetadata :=
  (load_or_create_metadata now none entries).object_metadata

section Choice

variable {entries : List JournalEntry} {last : JournalEntry}

theorem max_by_timestamp_append_singleton
    (h : ∀ entry ∈ entries, entry.timestamp ≤ last.timestamp) :
    max_by_timestamp (entries ++ [last]) = some last := by
  have hfold : max_by_timestamp (entries ++ [last]) =
      (max_by_timestamp entries).elim (some last) fun b =>
        if b.timestamp ≤ last.timestamp then some last else some b := by
    rw [max_by_timestamp, foldl_append, ← max_by_timestamp]
    cases max_by_timestamp entries <;> rfl
  rw [hfold]
  cases hbest : max_by_timestamp entries with
  | none => rfl
  | some b => exact if_pos (h b (mem_of_max_by_timestamp hbest))

theorem chosen_version_eq (now : ℕ) {earlier : List JournalEntry}
    (hsorted : entries.Pairwise fun a b => a.timestamp ≤ b.timestamp)
    (hlast : version_entries entries = earlier ++ [last]) :
    last.object_metadata = some (chosen_version now entries) ∧
      (chosen_version now entries).etag ≠ "" := by
  have hpairs : (earlier ++ [last]).Pairwise fun a b => a.timestamp ≤ b.timestamp := by
    rw [← hlast]
    exact hsorted.filter _
  have hnewest : object_entry entries = some last := by
    change (max_by_timestamp (version_entries entries)).or _ = some last
    rw [hlast, max_by_timestamp_append_singleton fun entry hentry =>
      (pairwise_append.mp hpairs).2.2 entry hentry last mem_cons_self]
    rfl
  have hversion : last.has_version = true := by
    have hmem : last ∈ version_entries entries := by
      rw [hlast]
      exact mem_append_right _ mem_cons_self
    exact of_mem_filter hmem
  rw [JournalEntry.has_version, Bool.and_eq_true, Option.any_eq_true] at hversion
  obtain ⟨object, hobject, hetag⟩ := hversion.2
  have hchosen : chosen_version now entries = object := by
    rw [chosen_version, load_or_create_metadata, hnewest, Option.bind_some, hobject]
    rfl
  rw [hchosen]
  exact ⟨hobject, of_decide_eq_true hetag⟩

end Choice

/-! ## The version that direct stores leave -/

section Stores

variable (parse_http_date : String → Option ℕ) (is_safe_relative_file_path : FilePath → Bool)

/-- The store that an entry with this object was journaled for. -/
def store_request (entry : JournalEntry) (object : ObjectMetadata) : StoreRequest where
  start := entry.range_spec.start
  end_ := entry.range_spec.end_
  data_len := entry.range_spec.end_ - entry.range_spec.start + 1
  object_metadata := object
  content_range_end := none
  ttl := entry.object_ttl_secs.getD 0
  compressed_size := entry.range_spec.compressed_size

/-- The record after the version of an entry has been claimed. -/
def claim_of_entry (file : Option NewCacheMetadata) (entry : JournalEntry) :
    Option NewCacheMetadata :=
  match entry.object_metadata with
  | some object =>
    (prepare_object_version parse_http_date is_safe_relative_file_path
      (undisturbed entry.timestamp) (store_request entry object) file).file
  | none => file

/-- The record after the ranges of a batch have been stored one after the other. -/
def stored_directly (entries : List JournalEntry) : Option NewCacheMetadata :=
  (version_entries entries).foldl (claim_of_entry parse_http_date is_safe_relative_file_path) none

variable {parse_http_date} {is_safe_relative_file_path}

theorem is_newer_congr {cached cached' response : ObjectMetadata}
    (h : cached.last_modified = cached'.last_modified) :
    is_newer parse_http_date cached response = is_newer parse_http_date cached' response := by
  rw [is_newer, h, is_newer]

/-- The record names the version of one of the entries. -/
def NamesOneOf (entries : List JournalEntry) (record : NewCacheMetadata) : Prop :=
  record.ranges = [] ∧ ∃ entry ∈ entries, ∃ object ∈ entry.object_metadata,
    record.object_metadata.etag = object.etag ∧
      record.object_metadata.last_modified = object.last_modified

variable {entries : List JournalEntry} {file : Option NewCacheMetadata}

theorem NamesOneOf.mono {entries' : List JournalEntry} {record : NewCacheMetadata}
    (h : NamesOneOf entries record) (hsub : ∀ entry ∈ entries, entry ∈ entries') :
    NamesOneOf entries' record := by
  obtain ⟨hranges, entry, hentry, hobject⟩ := h
  exact ⟨hranges, entry, hsub entry hentry, hobject⟩

theorem namesOneOf_claim (hfile : ∀ record ∈ file, NamesOneOf entries record)
    (entry : JournalEntry) :
    ∀ record ∈ claim_of_entry parse_http_date is_safe_relative_file_path file entry,
      NamesOneOf (entries ++ [entry]) record := by
  intro record hrecord
  have hbefore : ∀ record ∈ file, NamesOneOf (entries ++ [entry]) record := fun r hr =>
    (hfile r hr).mono fun e he => mem_append_left _ he
  unfold claim_of_entry at hrecord
  cases hobject : entry.object_metadata with
  | none =>
    rw [hobject] at hrecord
    exact hbefore record hrecord
  | some object =>
    rw [hobject] at hrecord
    rcases (prepare_object_version_cases (undisturbed entry.timestamp)
      (store_request entry object) file).2 with ⟨hsame, -⟩ | ⟨-, -, hnew, -⟩
    · exact hbefore record (hsame ▸ hrecord)
    · obtain rfl := Option.some.inj (hnew.symm.trans hrecord)
      exact ⟨rfl, entry, mem_append_right _ mem_cons_self, object, hobject, rfl, rfl⟩

theorem namesOneOf_foldl (entries : List JournalEntry) :
    ∀ record ∈ entries.foldl (claim_of_entry parse_http_date is_safe_relative_file_path) none,
      NamesOneOf entries record := by
  induction entries using List.reverseRecOn with
  | nil =>
    intro record hrecord
    cases hrecord
  | append_singleton earlier entry ih =>
    rw [foldl_append]
    exact namesOneOf_claim ih entry

theorem etag_claim_of_entry {entry : JournalEntry} {object : ObjectMetadata}
    (hobject : entry.object_metadata = some object) (hetag : object.etag ≠ "")
    (hranges : ∀ record ∈ file, record.ranges = [])
    (hnewer : ∀ record ∈ file, record.object_metadata.etag ≠ object.etag →
      is_newer parse_http_date record.object_metadata object = true) :
    (claim_of_entry parse_http_date is_safe_relative_file_path file entry).map
      (fun record => record.object_metadata.etag) = some object.etag := by
  unfold claim_of_entry
  rw [hobject]
  have hprepared : (prepare_object_version parse_http_date is_safe_relative_file_path
      (undisturbed entry.timestamp) (store_request entry object) file).error = none := by
    unfold prepare_object_version publish_version
    cases file with
    | none => simp [store_request, undisturbed, hetag]
    | some cached =>
      by_cases hsame : cached.object_metadata.etag = object.etag
      · simp [store_request, undisturbed, hetag, hsame]
      · simp [store_request, undisturbed, hetag, hsame, hnewer cached rfl hsame,
          hranges cached rfl, retire_object_version]
  obtain ⟨record, hrecord, heq⟩ := etag_of_prepared hprepared
  dsimp only
  rw [Option.mem_def.mp hrecord, Option.map_some, heq]
  rfl

end Stores

/-! ## Where the two agree -/

/-- The record built from a batch is for the version with the newest `Last-Modified`, and stores
one after the other would have left the same one. -/
structure NewestVersionChosen (parse_http_date : String → Option ℕ)
    (is_safe_relative_file_path : FilePath → Bool) (now : ℕ) (entries : List JournalEntry) :
    Prop where
  newest : ∀ entry ∈ version_entries entries, ∀ object ∈ entry.object_metadata,
    object.etag ≠ (chosen_version now entries).etag →
      is_newer parse_http_date object (chosen_version now entries) = true
  direct : version_entries entries ≠ [] →
    (stored_directly parse_http_date is_safe_relative_file_path entries).map
      (fun record => record.object_metadata.etag) = some (chosen_version now entries).etag

/-- The version that was journaled last is strictly newer than every other version in the batch. -/
def JournaledInOrder (parse_http_date : String → Option ℕ) (entries : List JournalEntry) : Prop :=
  ∀ last ∈ (version_entries entries).getLast?, ∀ newest ∈ last.object_metadata,
    ∀ entry ∈ version_entries entries, ∀ object ∈ entry.object_metadata,
      object.etag ≠ newest.etag → is_newer parse_http_date object newest = true

/-- **The version of a new record.** For every batch in the order of the journal, the record is for
the version with the newest `Last-Modified`, and for the one that direct stores would have left,
exactly if that version was journaled last. -/
theorem newest_version_chosen_iff (parse_http_date : String → Option ℕ)
    (is_safe_relative_file_path : FilePath → Bool) (now : ℕ) (entries : List JournalEntry)
    (hsorted : entries.Pairwise fun a b => a.timestamp ≤ b.timestamp) :
    NewestVersionChosen parse_http_date is_safe_relative_file_path now entries ↔
      JournaledInOrder parse_http_date entries := by
  rcases eq_nil_or_concat' (version_entries entries) with hnil | ⟨earlier, last, hlast⟩
  · -- no entry has a version, so there is nothing to choose from
    refine iff_of_true ⟨?_, fun hne => absurd hnil hne⟩ ?_
    · rw [hnil]
      exact fun entry hentry => by cases hentry
    · unfold JournaledInOrder
      rw [hnil]
      exact fun last hlast => by cases hlast
  · obtain ⟨hchosen, hetag⟩ := chosen_version_eq now hsorted hlast
    have horder : JournaledInOrder parse_http_date entries ↔
        ∀ entry ∈ version_entries entries, ∀ object ∈ entry.object_metadata,
          object.etag ≠ (chosen_version now entries).etag →
            is_newer parse_http_date object (chosen_version now entries) = true := by
      unfold JournaledInOrder
      rw [hlast, List.getLast?_concat]
      constructor
      · exact fun h => h last rfl _ hchosen
      · intro h last' hlast' newest hnewest
        cases hlast'
        obtain rfl := Option.some.inj (hchosen.symm.trans hnewest)
        exact h
    rw [horder]
    constructor
    · exact fun h => h.newest
    · intro h
      refine ⟨h, fun _ => ?_⟩
      -- whatever the earlier stores have left is the version of one of their entries
      have hearlier : ∀ record ∈
          earlier.foldl (claim_of_entry parse_http_date is_safe_relative_file_path) none,
          NamesOneOf earlier record :=
        namesOneOf_foldl earlier
      rw [stored_directly, hlast, foldl_append, foldl_cons, foldl_nil]
      refine etag_claim_of_entry hchosen hetag (fun record hrecord => (hearlier record hrecord).1)
        fun record hrecord hother => ?_
      obtain ⟨-, entry, hentry, object, hobject, hsame, hmodified⟩ := hearlier record hrecord
      have hmem : entry ∈ version_entries entries := by
        rw [hlast]
        exact mem_append_left _ hentry
      rw [is_newer_congr hmodified]
      exact h entry hmem object hobject (hsame ▸ hother)

/-! ## A response that was long on its way -/

def version_entry (timestamp : ℕ) (etag last_modified : String) : JournalEntry :=
  { add_of_first_ten timestamp 10 with
    object_metadata := some
      { (default : ObjectMetadata) with etag := etag, last_modified := last_modified } }

def first_second : String := "Thu, 01 Jan 1970 00:00:01 GMT"

def second_second : String := "Thu, 01 Jan 1970 00:00:02 GMT"

def parse_two_seconds (text : String) : Option ℕ :=
  if text = first_second then some 1 else if text = second_second then some 2 else none

def delayed_batch : List JournalEntry :=
  [version_entry 10 "new" second_second, version_entry 11 "old" first_second]

/-- The old version is chosen, where stores would have kept the new one. -/
theorem delayed_response_chosen :
    (chosen_version 12 delayed_batch).etag = "old" ∧
    (stored_directly parse_two_seconds (fun _ => true) delayed_batch).map
      (fun record => record.object_metadata.etag) = some "new" ∧
    ¬ NewestVersionChosen parse_two_seconds (fun _ => true) 12 delayed_batch := by
  have hchosen : (chosen_version 12 delayed_batch).etag = "old" := by decide +kernel
  have hdirect : (stored_directly parse_two_seconds (fun _ => true) delayed_batch).map
      (fun record => record.object_metadata.etag) = some "new" := by
    decide +kernel
  refine ⟨hchosen, hdirect, fun h => ?_⟩
  have hsame := h.direct (by decide +kernel)
  revert hsame
  decide

/-- The same responses, the old one first. -/
theorem prompt_response_chosen :
    NewestVersionChosen parse_two_seconds (fun _ => true) 12
      [version_entry 10 "old" first_second, version_entry 11 "new" second_second] := by
  refine (newest_version_chosen_iff parse_two_seconds (fun _ => true) 12
    [version_entry 10 "old" first_second, version_entry 11 "new" second_second]
    (by decide +kernel)).mpr ?_
  unfold JournaledInOrder
  decide +kernel

end HybridCache.Journal
