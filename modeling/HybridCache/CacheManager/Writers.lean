/-
The functions of the cache manager that write a key's record (`cache.rs`, and
`handle_complete_multipart_upload` in `signed_put_handler.rs`).

A HEAD response updates the record in place under the metadata lock. An upload, or a response with
the whole object, replaces it. A `304` and a part response read the record without a lock, change
it, and store the whole of it again. The range stores are in `DiskCache.Versions`, consolidation in
`Journal`.
-/
import HybridCache.DiskCache.Versions
import HybridCache.Metadata.Invalidation

namespace HybridCache.CacheManager

open Lib CacheTypes Journal DiskCache

/-! ## HEAD responses -/

/-- A HEAD response: its headers, and the `CacheMetadata` taken from them. -/
structure HeadResponse where
  headers : List (String × String)
  etag : String
  last_modified : String
  content_length : ℕ
deriving DecidableEq, Repr

/-- What a HEAD store meets. -/
structure HeadRun where
  now : ℕ
  effective_head_ttl : ℕ
  effective_get_ttl : ℕ
  metadata_lock_acquired : Bool
  metadata_readable : Bool
  attempt : ℕ → Metadata.UnlinkAttempt
  on_disk : Finset FilePath
  removals_journaled : Bool
  metadata_written : Bool

inductive HeadError where
  | CacheError (message : String)
  | SerializationError (message : String)
  | RangeFilesLeft (failed : ℕ)
  | Io
deriving DecidableEq, Repr

/-- `validate_head_cache_inputs`, on one header. -/
def validate_header (header : String × String) : Except HeadError Unit :=
  if header.1 = "" then .error (.SerializationError "Empty header key in HEAD entry")
  else if header.1.utf8ByteSize > 1024 then
    .error (.SerializationError "Header key too long in HEAD entry")
  else if header.2.utf8ByteSize > 8192 then
    .error (.SerializationError "Header value too long in HEAD entry")
  else .ok ()

def validate_head_cache_inputs (cache_key : String) (head : HeadResponse) :
    Except HeadError Unit :=
  if cache_key = "" then .error (.CacheError "Empty cache key for HEAD entry")
  else if cache_key.utf8ByteSize > 2048 then
    .error (.CacheError "Cache key too long for HEAD entry")
  else if head.headers.length > 100 then .error (.CacheError "Too many headers in HEAD entry")
  else
    match head.headers.forM validate_header with
    | .error e => .error e
    | .ok () =>
      if head.etag = "" then .error (.CacheError "Empty ETag in HEAD entry metadata")
      else if head.etag.utf8ByteSize > 1024 then
        .error (.CacheError "ETag too long in HEAD entry metadata")
      else if head.last_modified = "" then
        .error (.CacheError "Empty Last-Modified in HEAD entry metadata")
      else .ok ()

variable {cache_key : String} {head : HeadResponse} {m : NewCacheMetadata} {run : HeadRun}

theorem names_of_validate_head (h : validate_head_cache_inputs cache_key head = .ok ()) :
    head.etag ≠ "" ∧ head.last_modified ≠ "" := by
  unfold validate_head_cache_inputs at h
  generalize head.headers.forM validate_header = checked at h
  cases checked with
  | error e => split_ifs at h
  | ok _ =>
    split_ifs at h with _ _ _ hetag _ hdate
    exact ⟨hetag, hdate⟩

def is_scope_header (header : String × String) : Bool :=
  header.1.toLower = "content-range" ∨ header.1.toLower = "x-amz-mp-parts-count"

def etag_changed (head : HeadResponse) (m : NewCacheMetadata) : Bool :=
  head.etag ≠ "" ∧ m.object_metadata.etag ≠ head.etag

def size_changed (head : HeadResponse) (m : NewCacheMetadata) : Bool :=
  head.content_length > 0 ∧ m.object_metadata.content_length > 0 ∧
    m.object_metadata.content_length ≠ head.content_length

/-- The object's fields, from a HEAD response. The part map and the number of parts stay. -/
def head_object_metadata (head : HeadResponse) (object : ObjectMetadata) : ObjectMetadata :=
  { object with
    last_modified := if head.last_modified ≠ "" then head.last_modified else object.last_modified
    etag := if head.etag ≠ "" then head.etag else object.etag
    content_length :=
      if head.content_length > 0 then head.content_length else object.content_length
    response_headers := strip_response_scoped_headers
      ((strip_response_scoped_headers head.headers).foldl (insert_row Prod.fst)
        object.response_headers) }

def refresh_head_ttl (run : HeadRun) (m : NewCacheMetadata) : NewCacheMetadata :=
  { m with
    head_expires_at := some (run.now + run.effective_head_ttl)
    head_last_accessed := some run.now
    head_cached_at := some run.now
    head_access_count := m.head_access_count + 1 }

/-- What a store leaves on disk: the record, the ranges whose files it removed, and its error. -/
structure HeadStored where
  file : Option NewCacheMetadata
  removed : List (Metadata.RangeSpec FilePath)
  error : Option HeadError

def update_metadata_head_fields (run : HeadRun) (head : HeadResponse) (m : NewCacheMetadata) :
    HeadStored :=
  let refreshed := refresh_head_ttl run m
  if etag_changed head m ∨ size_changed head m then
    let out := Metadata.unlink_range_files run.attempt (m.ranges.map RangeSpec.toRangeSpec)
      run.on_disk
    if out.failed > 0 then ⟨some m, out.removed, some (.RangeFilesLeft out.failed)⟩
    else if run.metadata_written = false then ⟨some m, out.removed, some .Io⟩
    else
      ⟨some { refreshed with
          ranges := []
          expires_at := run.now
          object_metadata := head_object_metadata head m.object_metadata }, out.removed, none⟩
  else if run.metadata_written = false then ⟨some m, [], some .Io⟩
  else
    ⟨some { refreshed with object_metadata := head_object_metadata head m.object_metadata }, [],
      none⟩

theorem update_metadata_head_fields_cases : let out := update_metadata_head_fields run head m
    (out.file = some m ∧ out.error ≠ none) ∨
      (out.error = none ∧ ∃ m', out.file = some m' ∧
        m'.object_metadata = head_object_metadata head m.object_metadata ∧
        m'.created_at = m.created_at) := by
  unfold update_metadata_head_fields
  dsimp only
  split_ifs
  · exact .inl ⟨rfl, by simp⟩
  · exact .inl ⟨rfl, by simp⟩
  · exact .inr ⟨rfl, _, rfl, rfl, rfl⟩
  · exact .inl ⟨rfl, by simp⟩
  · exact .inr ⟨rfl, _, rfl, rfl, rfl⟩

def create_head_only_metadata (run : HeadRun) (head : HeadResponse) : NewCacheMetadata where
  object_metadata :=
    { (default : ObjectMetadata) with
      etag := head.etag
      last_modified := head.last_modified
      content_length := head.content_length
      response_headers := strip_response_scoped_headers head.headers }
  ranges := []
  created_at := run.now
  expires_at := run.now + run.effective_get_ttl
  head_expires_at := some (run.now + run.effective_head_ttl)
  head_last_accessed := some run.now
  head_access_count := 1
  head_cached_at := some run.now

/-- `store_head_cache_entry_unified`. A record that cannot be read is replaced. -/
def store_head_cache_entry_unified (cache_key : String) (run : HeadRun) (head : HeadResponse)
    (file : Option NewCacheMetadata) : HeadStored :=
  match validate_head_cache_inputs cache_key head with
  | .error e => ⟨file, [], some e⟩
  | .ok () =>
    match head.headers.find? is_scope_header with
    | some (scope_header, _) =>
      ⟨file, [], some (.CacheError ("refusing to store a part-scoped response as whole-object " ++
        s!"HEAD metadata for {cache_key} (carries '{scope_header}')"))⟩
    | none =>
      if run.metadata_lock_acquired = false then ⟨file, [], some .Io⟩
      else
        match file, run.metadata_readable with
        | some m, true => update_metadata_head_fields run head m
        | _, _ =>
          if run.metadata_written = false then ⟨file, [], some .Io⟩
          else ⟨some (create_head_only_metadata run head), [], none⟩

/-- A HEAD response leaves the file alone, or makes a record, or changes the one that is there,
which keeps the time it was made. -/
theorem store_head_cases (file : Option NewCacheMetadata) :
    let out := store_head_cache_entry_unified cache_key run head file
    (out.file = file ∧ out.error ≠ none) ∨
      (out.error = none ∧ head.etag ≠ "" ∧ head.last_modified ≠ "" ∧
        (((file = none ∨ run.metadata_readable = false) ∧
            out.file = some (create_head_only_metadata run head)) ∨
          ∃ m m', file = some m ∧ run.metadata_readable = true ∧ out.file = some m' ∧
            m'.object_metadata = head_object_metadata head m.object_metadata ∧
            m'.created_at = m.created_at)) := by
  unfold store_head_cache_entry_unified
  split
  · exact .inl ⟨rfl, by simp⟩
  · rename_i hvalid
    obtain ⟨hetag, hdate⟩ := names_of_validate_head hvalid
    split
    · exact .inl ⟨rfl, by simp⟩
    · split
      · exact .inl ⟨rfl, by simp⟩
      · split
        · rename_i m hreadable
          rcases update_metadata_head_fields_cases with
            ⟨hfile, herror⟩ | ⟨herror, m', hfile, hobject, hcreated⟩
          · exact .inl ⟨hfile, herror⟩
          · exact .inr ⟨herror, hetag, hdate,
              .inr ⟨m, m', rfl, hreadable, hfile, hobject, hcreated⟩⟩
        · rename_i hunread
          split
          · exact .inl ⟨rfl, by simp⟩
          · refine .inr ⟨rfl, hetag, hdate, .inl ⟨?_, rfl⟩⟩
            rw [← Bool.not_eq_true]
            exact or_iff_not_imp_left.mpr fun hfile hreadable =>
              let ⟨m, hm⟩ := Option.ne_none_iff_exists'.mp hfile
              hunread m hm hreadable

/-! ## Uploads and whole objects -/

structure CompletedPart where
  part_number : ℕ
  start : ℕ
  end_ : ℕ
  compressed_size : ℕ
deriving DecidableEq, Repr

structure Publication where
  now : ℕ
  ttl : ℕ
  etag : String
  last_modified : String
  content_length : ℕ
  response_headers : List (String × String)
  compressed_size : ℕ

inductive PublicationKind where
  /-- `store_put_as_write_cached_range_with_ttl` and its streaming twin
  `store_streamed_write_cache_metadata`. -/
  | put
  /-- `handle_complete_multipart_upload`. -/
  | complete (parts : List CompletedPart)
  /-- `store_full_object_as_range_new`, for a response with the whole object. -/
  | full

section Publish

variable (object_version_id : String → FilePath) (base : FilePath) (in_progress : FilePath → Bool)

def write_cached_object (p : Publication) (parts : List CompletedPart) (parts_count : Option ℕ) :
    ObjectMetadata where
  etag := p.etag
  last_modified := p.last_modified
  content_length := p.content_length
  response_headers := p.response_headers
  parts_count := parts_count
  part_ranges := parts.map fun part => (part.part_number, part.start, part.end_)
  is_write_cached := true
  write_cache_expires_at := some (p.now + p.ttl)
  write_cache_created_at := some p.now
  write_cache_last_accessed := some p.now
  graduation_accounted := false

def published_object (p : Publication) : PublicationKind → ObjectMetadata
  | .put => write_cached_object p [] none
  | .complete parts => write_cached_object p parts (some parts.length)
  | .full =>
    { (default : ObjectMetadata) with
      etag := p.etag
      last_modified := p.last_modified
      content_length := p.content_length
      response_headers := p.response_headers }

def published_range (p : Publication) (object : ObjectMetadata) (start end_ compressed_size : ℕ) :
    RangeSpec :=
  let path := versioned_range_file_path base start end_ (object_version_id object.etag)
  RangeSpec.new_staged p.now start end_ path compressed_size (end_ - start + 1)
    (Metadata.classify_new_range_as_staged in_progress path object.is_write_cached)

def published_record (p : Publication) (kind : PublicationKind) : NewCacheMetadata where
  object_metadata := published_object p kind
  ranges :=
    match kind with
    | .complete parts => parts.map fun part =>
        published_range object_version_id base in_progress p (published_object p kind) part.start
          part.end_ part.compressed_size
    | _ =>
      -- an empty object has no range
      if p.content_length = 0 then []
      else [published_range object_version_id base in_progress p (published_object p kind) 0
        (p.content_length - 1) p.compressed_size]
  created_at := p.now
  expires_at :=
    match kind with
    | .full => Metadata.safe_expiry p.now p.ttl
    | _ => p.now + p.ttl
  head_expires_at := none
  head_last_accessed := none
  head_access_count := 0
  head_cached_at := none

def published_entries (cache_key : String) (p : Publication) (kind : PublicationKind) :
    List JournalEntry :=
  let record := published_record object_version_id base in_progress p kind
  match kind with
  | .put => []
  | _ => record.ranges.map fun range =>
    { timestamp := p.now
      cache_key := cache_key
      range_spec := range
      operation := .Add
      new_ttl_secs := none
      object_ttl_secs := none
      access_increment := none
      object_metadata := some record.object_metadata }

end Publish

/-! ## Updates of a record read without a lock -/

/-- A `Content-Range` that `parse_content_range` accepts. -/
structure ContentRange where
  start : ℕ
  end_ : ℕ
  total_size : ℕ
  start_le_end : start ≤ end_
  end_lt_total : end_ < total_size

/-- A part response; `parts_count` is its `x-amz-mp-parts-count`, if that is a number. -/
structure PartResponse where
  part_number : ℕ
  content_range : ContentRange
  etag : Option String
  last_modified : Option String
  parts_count : Option ℕ
  headers : List (String × String)
  body_len : ℕ
  compressed_size : ℕ

/-- The object a part response describes (`store_part_as_range`). -/
def PartResponse.object_metadata (part : PartResponse) : ObjectMetadata :=
  { (default : ObjectMetadata) with
    etag := part.etag.getD "unknown"
    last_modified := part.last_modified.getD "unknown"
    content_length := part.content_range.total_size
    response_headers := strip_response_scoped_headers part.headers
    parts_count := part.parts_count }

/-- What `store_part_as_range` stores. Its headers are stripped, so no `Content-Range` is left
that could confirm a short body. -/
def PartResponse.store_request (get_ttl : ℕ) (part : PartResponse) : StoreRequest where
  start := part.content_range.start
  end_ := part.content_range.end_
  data_len := part.body_len
  object_metadata := part.object_metadata
  content_range_end := none
  ttl := get_ttl
  compressed_size := part.compressed_size

/-- `populate_metadata_on_first_part`, from the record it read to the one it writes, if it
changed anything. -/
def populate_metadata_on_first_part (part : PartResponse) (m : NewCacheMetadata) :
    Option NewCacheMetadata :=
  let object := m.object_metadata
  let range := (part.part_number, part.content_range.start, part.content_range.end_)
  let part_ranges :=
    if lookup Prod.fst object.part_ranges part.part_number = some range then object.part_ranges
    else insert_row Prod.fst object.part_ranges range
  let parts_count := part.parts_count.or object.parts_count
  let response_headers := strip_response_scoped_headers object.response_headers
  let updated := { object with part_ranges, parts_count, response_headers }
  if updated = object then none else some { m with object_metadata := updated }

/-- A part changes the part map, the number of parts and the headers, and nothing else. -/
theorem populate_eq {part : PartResponse} {read : NewCacheMetadata}
    (h : populate_metadata_on_first_part part read = some m) :
    ∃ part_ranges, m = { read with
        object_metadata := { read.object_metadata with
          part_ranges := part_ranges
          parts_count := part.parts_count.or read.object_metadata.parts_count
          response_headers := strip_response_scoped_headers
            read.object_metadata.response_headers } } ∧
      ∀ row ∈ part_ranges, row ∈ read.object_metadata.part_ranges ∨
        row = (part.part_number, part.content_range.start, part.content_range.end_) := by
  unfold populate_metadata_on_first_part at h
  dsimp only at h
  split_ifs at h
  · cases h
    exact ⟨_, rfl, fun row hrow => .inl hrow⟩
  · cases h
    exact ⟨_, rfl, fun row hrow => (mem_insert_row hrow).symm⟩

/-- A refresh after a `304`, with the version that was validated and when; the code itself keeps
neither. -/
inductive Refresh where
  /-- `refresh_cache_ttl` with `update_metadata_expiration_unified`. -/
  | expiration (validated : String) (validated_at effective_get_ttl effective_head_ttl : ℕ)
  /-- `refresh_object_ttl_direct`. -/
  | object_ttl (validated : String) (validated_at now new_ttl : ℕ)

namespace Refresh

def validated : Refresh → String
  | .expiration validated _ _ _ => validated
  | .object_ttl validated _ _ _ => validated

def validated_at : Refresh → ℕ
  | .expiration _ validated_at _ _ => validated_at
  | .object_ttl _ validated_at _ _ => validated_at

def apply (m : NewCacheMetadata) : Refresh → NewCacheMetadata
  | .expiration _ now effective_get_ttl effective_head_ttl =>
    { m with
      expires_at := now + effective_get_ttl
      head_expires_at := some (now + effective_head_ttl) }
  | .object_ttl _ _ now new_ttl => m.refresh_object_ttl now new_ttl

theorem apply_eq (refresh : Refresh) (m : NewCacheMetadata) :
    ∃ expires_at head_expires_at, refresh.apply m =
      { m with expires_at := expires_at, head_expires_at := head_expires_at } := by
  cases refresh with
  | expiration | object_ttl => exact ⟨_, _, rfl⟩

end Refresh

/-- The unlocked updates. -/
inductive RecordUpdate where
  | refresh (refresh : Refresh)
  | part (response : PartResponse)

/-- What an update makes of the record it read; `none` if it writes nothing. -/
def RecordUpdate.apply (m : NewCacheMetadata) : RecordUpdate → Option NewCacheMetadata
  | .refresh r => some (r.apply m)
  | .part response => populate_metadata_on_first_part response m

end HybridCache.CacheManager
