/-
Response header overrides and the cache (`extract_object_metadata_from_response` in `s3_client.rs`,
`store_part_as_range`, `strip_response_scoped_headers` and `lookup_part` in `cache.rs`,
`add_cached_s3_headers` and the other serves in `http_proxy.rs`).

A GET may ask S3 to set six headers of its response, by parameters such as `response-content-type`.
The key does not carry the query and no gate looks for these parameters, so what one request asked
for is stored and served to the next, unless the object has those very headers
(`overrides_unseen_iff`).
-/
import HybridCache.CacheManager.PartMap
import HybridCache.HttpProxy.Bypass
import HybridCache.HttpProxy.PageFill

namespace HybridCache.HttpProxy

open Lib Option
open CacheTypes (NewCacheMetadata ObjectMetadata)
open CacheManager (PartResponse part_headers part_computed_headers)
open DiskCache (strip_response_scoped_headers)

/-! ## What S3 answers -/

structure HeaderMap where
  rows : List (String × String)
  nodup : (rows.map Prod.fst).Nodup
  lower : ∀ row ∈ rows, row.1.toLower = row.1

def overridable : List String :=
  ["content-type", "content-language", "expires", "cache-control", "content-disposition",
    "content-encoding"]

variable {name : String} {request : GetRequest}

theorem toLower_overridable (h : name ∈ overridable) : name.toLower = name := by
  have hlower : ∀ name ∈ overridable, name.toLower = name := by decide +kernel
  exact hlower name h

/-- The overrides a request asks for; `decode` undoes the encoding of a query value. -/
def GetRequest.overrides (decode : String → String) (request : GetRequest) :
    List (String × String) :=
  overridable.filterMap fun name =>
    (get request.params ("response-" ++ name)).map fun value => (name, decode value)

def set_headers (rows asked : List (String × String)) : List (String × String) :=
  asked.foldl (insert_row Prod.fst) rows

theorem set_headers_nodup {rows : List (String × String)} (h : (rows.map Prod.fst).Nodup)
    (asked : List (String × String)) : ((set_headers rows asked).map Prod.fst).Nodup := by
  induction asked generalizing rows with
  | nil => exact h
  | cons row rest ih => exact ih (nodup_map_key_insert_row h row)

variable {rows asked : List (String × String)}

variable {row : String × String}

theorem mem_set_headers (h : row ∈ set_headers rows asked) : row ∈ rows ∨ row ∈ asked := by
  induction asked generalizing rows with
  | nil => exact .inl h
  | cons head rest ih =>
    rcases ih h with h | h
    · rcases mem_insert_row h with rfl | h
      · exact .inr List.mem_cons_self
      · exact .inl h
    · exact .inr (List.mem_cons_of_mem _ h)

theorem set_headers_of_lookup (h : ∀ row ∈ asked, lookup Prod.fst rows row.1 = some row) :
    set_headers rows asked = rows := by
  unfold set_headers
  induction asked with
  | nil => rfl
  | cons row rest ih =>
    rw [List.foldl_cons, insert_row_of_lookup (h row List.mem_cons_self)]
    exact ih fun row hrow => h row (List.mem_cons_of_mem _ hrow)

section Asked

variable {decode : String → String} {request : GetRequest}

theorem name_of_mem_overrides {row : String × String} (h : row ∈ request.overrides decode) :
    row.1 ∈ overridable := by
  obtain ⟨name, hname, hrow⟩ := List.mem_filterMap.mp h
  obtain ⟨value, -, rfl⟩ := map_eq_some_iff.mp hrow
  exact hname

theorem overrides_nodup : ((request.overrides decode).map Prod.fst).Nodup := by
  have hnames : (request.overrides decode).map Prod.fst =
      overridable.filter fun name => contains_key request.params ("response-" ++ name) := by
    unfold GetRequest.overrides
    rw [List.map_filterMap, ← List.filterMap_eq_filter]
    congr 1
    funext name
    unfold get contains_key
    cases hrow : lookup Prod.fst request.params ("response-" ++ name) with
    | none | some row => simp [Option.guard, hrow]
  rw [hnames]
  exact List.Nodup.filter _ (by decide +kernel)

end Asked

/-- What the bucket behind the proxy answers: the object's own headers for each request, and how
the values of a query are decoded. -/
structure Origin where
  own : GetRequest → HeaderMap
  decode : String → String

/-- S3's answer: the object's own headers, with those the request asked for set. -/
def Origin.respond (s3 : Origin) (request : GetRequest) : HeaderMap where
  rows := set_headers (s3.own request).rows (request.overrides s3.decode)
  nodup := set_headers_nodup (s3.own request).nodup _
  lower row hrow := by
    rcases mem_set_headers hrow with h | h
    · exact (s3.own request).lower row h
    · exact toLower_overridable (name_of_mem_overrides h)

variable (s3 : Origin)

theorem Origin.lookup_respond :
    lookup Prod.fst (s3.respond request).rows name =
      (lookup Prod.fst (request.overrides s3.decode) name).or
        (lookup Prod.fst (s3.own request).rows name) :=
  lookup_foldl_insert_row overrides_nodup _ name

theorem Origin.lookup_respond_of_mem (h : row ∈ request.overrides s3.decode) :
    lookup Prod.fst (s3.respond request).rows row.1 = some row := by
  rw [s3.lookup_respond, lookup_of_mem overrides_nodup h, some_or]

theorem Origin.get_respond (request : GetRequest) (h : name ∉ overridable) :
    get (s3.respond request).rows name = get (s3.own request).rows name := by
  have hnone : lookup Prod.fst (request.overrides s3.decode) name = none := by
    rw [lookup_eq_none]
    rintro row hrow rfl
    exact h (name_of_mem_overrides hrow)
  unfold get
  rw [s3.lookup_respond, hnone, none_or]

/-! ## What is stored -/

/-- `ObjectMetadata`, with the content type that a part response is given. -/
structure CachedObject extends ObjectMetadata where
  content_type : Option String
deriving DecidableEq

def get_either (headers : List (String × String)) (name name' : String) : Option String :=
  (get headers name).or (get headers name')

section Store

variable (sent_content_range : String → Option SentContentRange)

/-- What `extract_object_metadata_from_response` reads. It does not look at the body. -/
def response_of (headers : List (String × String)) : PartialContent where
  etag := get_either headers "etag" "ETag"
  last_modified := get_either headers "last-modified" "Last-Modified"
  content_range := (get_either headers "content-range" "Content-Range").bind sent_content_range
  content_length := (get_either headers "content-length" "Content-Length").bind fun s =>
    parse_unsigned (2 ^ 64 - 1) s.toList
  headers := headers
  body := []

def part_response (part_number : ℕ) (headers : List (String × String)) : Option PartResponse :=
  (((get headers "content-range").bind sent_content_range).bind parse_content_range).map
    fun content_range =>
    { part_number := part_number
      content_range := content_range
      etag := get headers "etag"
      last_modified := get headers "last-modified"
      parts_count := (get headers "x-amz-mp-parts-count").bind fun s =>
        parse_unsigned (2 ^ 32 - 1) s.toList
      headers := headers
      body_len := content_range.end_ - content_range.start + 1
      compressed_size := content_range.end_ - content_range.start + 1 }

def described (request : GetRequest) (headers : List (String × String)) : Option CachedObject :=
  match is_get_object_part request.params with
  | some part_number => (part_response sent_content_range part_number headers).map fun part =>
    { toObjectMetadata := part.object_metadata
      content_type := get headers "content-type" }
  | none => some
    { toObjectMetadata :=
        extract_object_metadata_from_response (response_of sent_content_range headers)
      content_type := get_either headers "content-type" "Content-Type" }

def stored (request : GetRequest) (headers : List (String × String)) : Option CachedObject :=
  (described sent_content_range request headers).bind fun object =>
    if object.etag = "" then none
    else
      some { object with
        response_headers := strip_response_scoped_headers object.response_headers }

/-- A response that is not stored: one without an etag, or a part whose extent is not known. -/
def Unstorable (request : GetRequest) (headers : List (String × String)) : Prop :=
  match is_get_object_part request.params with
  | some _ =>
    ((get headers "content-range").bind sent_content_range).bind parse_content_range = none ∨
      get headers "etag" = some ""
  | none => (get_either headers "etag" "ETag").getD "" = ""

variable {sent_content_range}

theorem stored_eq_none {request : GetRequest} {headers : List (String × String)} :
    stored sent_content_range request headers = none ↔
      Unstorable sent_content_range request headers := by
  unfold stored Unstorable described
  cases is_get_object_part request.params with
  | none =>
    change (if (get_either headers "etag" "ETag").getD "" = "" then none else _) = none ↔ _
    simp
  | some part_number =>
    dsimp only
    unfold part_response
    cases ((get headers "content-range").bind sent_content_range).bind parse_content_range with
    | none => simp
    | some content_range =>
      change (if (get headers "etag").getD "unknown" = "" then none else _) = none ↔ _
      cases get headers "etag" with
      | none | some etag => simp

theorem unstorable_respond (s3 : Origin) (request : GetRequest) :
    Unstorable sent_content_range request (s3.respond request).rows ↔
      Unstorable sent_content_range request (s3.own request).rows := by
  have hrange : "content-range" ∉ overridable := by decide +kernel
  have hetag : "etag" ∉ overridable := by decide +kernel
  have hETag : "ETag" ∉ overridable := by decide +kernel
  unfold Unstorable get_either
  rw [s3.get_respond request hrange, s3.get_respond request hetag, s3.get_respond request hETag]

end Store

/-! ## What is served -/

/-- Headers that no serve takes over from the record. -/
def unserved_headers : List String :=
  ["content-length", "content-range", "accept-ranges", "connection", "transfer-encoding", "date",
    "server"]

def checksum_headers : List String :=
  ["x-amz-checksum-crc32", "x-amz-checksum-crc32c", "x-amz-checksum-sha1", "x-amz-checksum-sha256",
    "x-amz-checksum-crc64nvme", "x-amz-checksum-type", "content-md5", "checksumcrc32",
    "checksumcrc32c", "checksumsha1", "checksumsha256", "checksumcrc64nvme", "checksumtype"]

/-- Names that are left out where the header of the second name is there. -/
def normalized_headers : List (String × String) :=
  [("ServerSideEncryption", "x-amz-server-side-encryption"), ("VersionId", "x-amz-version-id"),
    ("ChecksumType", "x-amz-checksum-type"), ("ChecksumCRC64NVME", "x-amz-checksum-crc64nvme"),
    ("ChecksumCRC32C", "x-amz-checksum-crc32c"), ("ChecksumCRC32", "x-amz-checksum-crc32"),
    ("ChecksumSHA1", "x-amz-checksum-sha1"), ("ChecksumSHA256", "x-amz-checksum-sha256")]

/-- A record of an object, for the functions that read one. -/
def CachedObject.record (object : CachedObject) : NewCacheMetadata :=
  { (default : NewCacheMetadata) with object_metadata := object.toObjectMetadata }

@[simp] theorem CachedObject.object_metadata_record (object : CachedObject) :
    object.record.object_metadata = object.toObjectMetadata := rfl

def fallback_headers (object : CachedObject) : List (String × String) :=
  (if contains_key object.response_headers "etag" = false ∧
      contains_key object.response_headers "ETag" = false ∧ object.etag ≠ "" then
    [("etag", object.etag)] else []) ++
  (if object.response_headers.any fun header => header.1.toLower = "last-modified" then []
    else (object.record.effective_last_modified.map fun lm => ("last-modified", lm)).toList)

def add_cached_s3_headers (object : CachedObject) (start end_ total_object_size : ℕ) :
    List (String × String) :=
  let is_full_object_range : Bool := start = 0 ∧ end_ + 1 = total_object_size
  (object.response_headers.filter fun header =>
    (is_full_object_range ∨ header.1.toLower ∉ checksum_headers) ∧
      header.1.toLower ∉ unserved_headers ∧
      ¬ normalized_headers.any fun row =>
        row.1 = header.1 ∧ contains_key object.response_headers row.2) ++
  fallback_headers object

/-- The ways a GET request is served from the cache. A range that was widened is served without
the `x-cache`. -/
inductive Serve where
  | full (body_len : ℕ)
  | range (start end_ total_object_size body_len : ℕ) (widened : Bool)
  | part (start end_ : ℕ)
  | zero_length
deriving DecidableEq, Repr

def served : Serve → CachedObject → List (String × String)
  | .full body_len, object =>
    [("content-length", toString body_len), ("accept-ranges", "bytes"), ("x-cache", "HIT")] ++
      (object.response_headers.filter fun header => header.1.toLower ∉ unserved_headers) ++
      fallback_headers object
  | .range start end_ total_object_size body_len widened, object =>
    [("content-length", toString body_len),
      ("content-range", s!"bytes {start}-{end_}/{total_object_size}"),
      ("accept-ranges", "bytes")] ++
      (if widened then [] else [("x-cache", "HIT")]) ++
      add_cached_s3_headers object start end_ total_object_size
  | .part start end_, object =>
    [("x-cache", "HIT")] ++ part_headers object.record start end_ ++
      (object.content_type.map fun value => ("content-type", value)).toList
  | .zero_length, object =>
    [("content-length", toString object.content_length)] ++
      object.response_headers.filter fun header =>
        header.1.toLower ≠ "content-length" ∧ header.1.toLower ≠ "content-range"

/-! ## Stored headers reach the client

For the six headers, every serve hands over what the record has, and the record has what
the response had. -/

def made_up_headers : List String :=
  ["content-length", "content-range", "accept-ranges", "x-cache", "etag", "last-modified",
    "x-amz-mp-parts-count"]

section Served

variable {name : String}

theorem lookup_made_up {rows : List (String × String)} (hname : name ∈ overridable)
    (h : ∀ row ∈ rows, row.1 ∈ made_up_headers) : lookup Prod.fst rows name = none := by
  have hapart : ∀ name ∈ overridable, name ∉ made_up_headers := by decide +kernel
  rw [lookup_eq_none]
  rintro row hrow rfl
  exact hapart _ hname (h row hrow)

variable {object : CachedObject}

theorem made_up_fallback : ∀ row ∈ fallback_headers object, row.1 ∈ made_up_headers := by
  intro row hrow
  rcases List.mem_append.mp hrow with h | h
  · split at h
    · obtain rfl := List.mem_singleton.mp h
      simp [made_up_headers]
    · cases h
  · split at h
    · cases h
    · obtain ⟨lm, -, rfl⟩ := map_eq_some_iff.mp (mem_toList.mp h)
      simp [made_up_headers]

theorem lookup_add_cached_s3_headers (hname : name ∈ overridable) (object : CachedObject)
    (start end_ total_object_size : ℕ) :
    lookup Prod.fst (add_cached_s3_headers object start end_ total_object_size) name =
      lookup Prod.fst object.response_headers name := by
  have hkept : ∀ name ∈ overridable, name ∉ checksum_headers ∧ name ∉ unserved_headers ∧
      name ∉ normalized_headers.map Prod.fst := by decide +kernel
  obtain ⟨hchecksum, hunserved, hnormalized⟩ := hkept name hname
  have hlower := toLower_overridable hname
  unfold add_cached_s3_headers
  rw [lookup_append, lookup_made_up hname made_up_fallback, or_none]
  apply lookup_filter_of_key
  rintro row - rfl
  have hother : ¬ normalized_headers.any fun pair =>
      pair.1 = row.1 ∧ contains_key object.response_headers pair.2 := by
    rw [List.any_eq_true]
    rintro ⟨pair, hpair, heq⟩
    exact hnormalized (List.mem_map.mpr ⟨pair, hpair, (of_decide_eq_true heq).1⟩)
  rw [← hlower] at hchecksum hunserved
  exact decide_eq_true ⟨.inr hchecksum, hunserved, hother⟩

theorem lookup_part_headers (hname : name ∈ overridable)
    (hnodup : (object.response_headers.map Prod.fst).Nodup) (start end_ : ℕ) :
    lookup Prod.fst (part_headers object.record start end_) name =
      if name = "content-type" then none else lookup Prod.fst object.response_headers name := by
  have hnames : ∀ name ∈ overridable,
      (name ∈ part_computed_headers ↔ name = "content-type") := by decide +kernel
  have hcomputed : name.toLower ∈ part_computed_headers ↔ name = "content-type" := by
    rw [toLower_overridable hname]
    exact hnames name hname
  unfold part_headers
  simp only [CachedObject.object_metadata_record]
  rw [lookup_foldl_insert_row (nodup_map_key_filter hnodup _)]
  refine (congrArg (Option.or _) (lookup_made_up hname ?_)).trans ?_
  · intro row hrow
    simp only [List.mem_append, List.mem_cons, List.not_mem_nil, or_false, mem_toList,
      map_eq_some_iff] at hrow
    rcases hrow with (((rfl | rfl | rfl) | ⟨_, -, rfl⟩) | rfl) | ⟨_, -, rfl⟩ <;>
      simp [made_up_headers]
  · rw [or_none]
    split
    · rename_i htype
      rw [lookup_eq_none]
      rintro row hrow rfl
      exact of_decide_eq_true (List.mem_filter.mp hrow).2 (hcomputed.mpr htype)
    · rename_i htype
      apply lookup_filter_of_key
      rintro row - rfl
      exact decide_eq_true fun h => htype (hcomputed.mp h)

/-- The typed field repeats the stored header. -/
structure Consistent (object : CachedObject) : Prop where
  nodup : (object.response_headers.map Prod.fst).Nodup
  typed : (object.content_type.map fun value => ("content-type", value)) =
    lookup Prod.fst object.response_headers "content-type"

theorem lookup_served (hname : name ∈ overridable) (hobject : Consistent object) (serve : Serve) :
    lookup Prod.fst (served serve object) name = lookup Prod.fst object.response_headers name := by
  have hnames : ∀ name ∈ overridable, name ∉ unserved_headers ∧
      name ≠ "content-length" ∧ name ≠ "content-range" := by decide +kernel
  have hunserved := hnames name hname
  rw [← toLower_overridable hname] at hunserved
  cases serve with
  | full body_len =>
    have hbase : lookup Prod.fst [("content-length", toString body_len),
        ("accept-ranges", "bytes"), ("x-cache", "HIT")] name = none :=
      lookup_made_up hname (by simp [made_up_headers])
    -- what the proxy puts before and after the stored headers has other names
    unfold served
    rw [lookup_append, lookup_append, hbase, none_or,
      lookup_made_up hname made_up_fallback, or_none]
    apply lookup_filter_of_key
    rintro row - rfl
    exact decide_eq_true hunserved.1
  | range start end_ total_object_size body_len widened =>
    have hbase : lookup Prod.fst ([("content-length", toString body_len),
        ("content-range", s!"bytes {start}-{end_}/{total_object_size}"),
        ("accept-ranges", "bytes")] ++ (if widened then [] else [("x-cache", "HIT")])) name =
        none := by
      apply lookup_made_up hname
      cases widened <;> simp [made_up_headers]
    unfold served
    rw [lookup_append, hbase, none_or, lookup_add_cached_s3_headers hname]
  | part start end_ =>
    have hbase : lookup Prod.fst [("x-cache", "HIT")] name = none :=
      lookup_made_up hname (by simp [made_up_headers])
    unfold served
    rw [lookup_append, lookup_append, hbase, none_or, lookup_part_headers hname hobject.nodup]
    -- the content type is not taken over but comes from the typed field
    by_cases htype : name = "content-type"
    · subst htype
      rw [if_pos rfl, none_or, ← hobject.typed]
      cases object.content_type with
      | none => rfl
      | some value => exact lookup_cons_self _ _
    · have hother : lookup Prod.fst
          (object.content_type.map fun value => ("content-type", value)).toList name = none := by
        rw [lookup_eq_none]
        intro row hrow
        obtain ⟨value, -, rfl⟩ := map_eq_some_iff.mp (mem_toList.mp hrow)
        exact Ne.symm htype
      rw [if_neg htype, hother, or_none]
  | zero_length =>
    have hbase : lookup Prod.fst [("content-length", toString object.content_length)] name = none :=
      lookup_made_up hname (by simp [made_up_headers])
    unfold served
    rw [lookup_append, hbase, none_or]
    apply lookup_filter_of_key
    rintro row - rfl
    exact decide_eq_true hunserved.2

end Served

section Stored

variable {sent_content_range : String → Option SentContentRange} {name : String}

variable (headers : HeaderMap)

theorem HeaderMap.get_of_not_lower (h : name.toLower ≠ name) : get headers.rows name = none := by
  have hnone : lookup Prod.fst headers.rows name = none := by
    rw [lookup_eq_none]
    rintro row hrow rfl
    exact h (headers.lower row hrow)
  unfold get
  rw [hnone, map_none]

theorem map_get : ((get rows name).map fun value => (name, value)) = lookup Prod.fst rows name := by
  unfold get
  cases hrow : lookup Prod.fst rows name with
  | none => rfl
  | some row =>
    have hkey := key_of_lookup hrow
    rw [map_some, map_some, ← hkey]

/-- A filter by lower-case name keeps an overridable header that it keeps by name. -/
theorem lookup_filter_overridable (keep : String → Prop) [DecidablePred keep]
    (hkeep : ∀ name ∈ overridable, keep name) (hname : name ∈ overridable)
    (rows : List (String × String)) :
    lookup Prod.fst (rows.filter fun row => keep row.1.toLower) name =
      lookup Prod.fst rows name := by
  apply lookup_filter_of_key
  rintro row - rfl
  rw [toLower_overridable hname]
  exact decide_eq_true (hkeep _ hname)

theorem lookup_strip (hname : name ∈ overridable) (rows : List (String × String)) :
    lookup Prod.fst (strip_response_scoped_headers rows) name = lookup Prod.fst rows name :=
  lookup_filter_overridable (fun name => name ≠ "content-length" ∧ name ≠ "content-range" ∧
    name ≠ "x-amz-mp-parts-count") (by decide +kernel) hname rows

variable {object : CachedObject} {request : GetRequest}

theorem described_spec (h : described sent_content_range request headers.rows = some object) :
    (object.response_headers.map Prod.fst).Nodup ∧
      object.content_type = get headers.rows "content-type" ∧
      ∀ name ∈ overridable,
        lookup Prod.fst object.response_headers name = lookup Prod.fst headers.rows name := by
  unfold described at h
  split at h
  · obtain ⟨part, hpart, rfl⟩ := map_eq_some_iff.mp h
    obtain ⟨content_range, -, rfl⟩ := map_eq_some_iff.mp hpart
    exact ⟨nodup_map_key_filter headers.nodup _, rfl, fun name hname => lookup_strip hname _⟩
  · cases h
    refine ⟨nodup_map_key_filter headers.nodup _, ?_, ?_⟩
    · have hother : get headers.rows "Content-Type" = none :=
        headers.get_of_not_lower (by decide +kernel)
      change (get headers.rows "content-type").or (get headers.rows "Content-Type") = _
      rw [hother, or_none]
    · intro name hname
      exact lookup_filter_overridable (· ∉ connection_headers) (by decide +kernel) hname _

theorem stored_spec (h : stored sent_content_range request headers.rows = some object) :
    Consistent object ∧ ∀ name ∈ overridable,
      lookup Prod.fst object.response_headers name = lookup Prod.fst headers.rows name := by
  obtain ⟨object', hobject', h⟩ := bind_eq_some_iff.mp h
  obtain ⟨hnodup, htype, hheaders⟩ := described_spec headers hobject'
  split at h <;> cases h
  have hlookup : ∀ name ∈ overridable,
      lookup Prod.fst (strip_response_scoped_headers object'.response_headers) name =
        lookup Prod.fst headers.rows name := by
    intro name hname
    rw [lookup_strip hname, hheaders name hname]
  refine ⟨⟨nodup_map_key_filter hnodup _, ?_⟩, hlookup⟩
  rw [hlookup "content-type" (by simp [overridable]), htype, map_get]

/-- What was answered is served: for the six headers, every serve of a stored response hands over
what the response had. -/
theorem lookup_served_stored (h : stored sent_content_range request headers.rows = some object)
    (hname : name ∈ overridable) (serve : Serve) :
    lookup Prod.fst (served serve object) name = lookup Prod.fst headers.rows name := by
  obtain ⟨hconsistent, hheaders⟩ := stored_spec headers h
  rw [lookup_served hname hconsistent, hheaders name hname]

end Stored

/-! ## Two requests -/

section TwoRequests

variable (sent_content_range : String → Option SentContentRange) (env : GateEnv)

def cache_after (request : GetRequest) (headers : List (String × String)) (cache_key : List Char) :
    Option CachedObject :=
  if uses_cache env request ∧ cache_key = request.cache_key then
    stored sent_content_range request headers
  else none

def from_cache (cache : List Char → Option CachedObject) (request : GetRequest) (serve : Serve) :
    Option (List (String × String)) :=
  if uses_cache env request then (cache request.cache_key).map (served serve) else none

/-- **What a request asked for is seen by the next one.** Two requests share a key, and the second
is served from what the first left. Its headers are those it would get if the first had asked
for no overrides, exactly if nothing was stored or the object has the headers asked for. -/
theorem overrides_unseen_iff (s3 : Origin) (r₁ r₂ : GetRequest) (h₁ : uses_cache env r₁ = true)
    (h₂ : uses_cache env r₂ = true) (hkey : r₂.cache_key = r₁.cache_key) (serve : Serve) :
    from_cache env (cache_after sent_content_range env r₁ (s3.respond r₁).rows) r₂ serve =
        from_cache env (cache_after sent_content_range env r₁ (s3.own r₁).rows) r₂ serve ↔
      Unstorable sent_content_range r₁ (s3.own r₁).rows ∨
        ∀ header ∈ r₁.overrides s3.decode,
          lookup Prod.fst (s3.own r₁).rows header.1 = some header := by
  have hcache : ∀ headers, from_cache env (cache_after sent_content_range env r₁ headers) r₂ serve =
      (stored sent_content_range r₁ headers).map (served serve) := by
    intro headers
    unfold from_cache cache_after
    rw [if_pos h₂, if_pos ⟨h₁, hkey⟩]
  rw [hcache, hcache]
  constructor
  · -- if something is stored, the header asked for is stored with it and is served
    intro heq
    by_cases hnone : Unstorable sent_content_range r₁ (s3.own r₁).rows
    · exact .inl hnone
    · right
      intro header hheader
      have hname := name_of_mem_overrides hheader
      obtain ⟨own, hown⟩ := ne_none_iff_exists'.mp (mt stored_eq_none.mp hnone)
      obtain ⟨left, hleft⟩ := ne_none_iff_exists'.mp
        (mt stored_eq_none.mp (mt (unstorable_respond s3 r₁).mp hnone))
      rw [hown, hleft, map_some, map_some] at heq
      calc lookup Prod.fst (s3.own r₁).rows header.1
          = lookup Prod.fst (served serve own) header.1 :=
            (lookup_served_stored (s3.own r₁) hown hname serve).symm
        _ = lookup Prod.fst (served serve left) header.1 := by rw [Option.some.inj heq]
        _ = lookup Prod.fst (s3.respond r₁).rows header.1 :=
            lookup_served_stored (s3.respond r₁) hleft hname serve
        _ = some header := s3.lookup_respond_of_mem hheader
  · rintro (hnone | hown)
    · rw [stored_eq_none.mpr hnone, stored_eq_none.mpr ((unstorable_respond s3 r₁).mpr hnone)]
    · -- setting a header to the value it has changes nothing
      have hrows : (s3.respond r₁).rows = (s3.own r₁).rows := set_headers_of_lookup hown
      rw [hrows]

end TwoRequests

def open_gates : GateEnv where
  cache_bypass_headers_enabled := true
  read_cache_enabled _ := true
  presigned_refused _ _ := false

def text_origin : Origin where
  own _ :=
    { rows := [("etag", "v1"), ("content-type", "text/plain"), ("content-length", "5")]
      nodup := by decide +kernel
      lower := by decide +kernel }
  decode := id

def get_text (query : Option String) : GetRequest where
  path := "/bucket/notes".toList
  query := query.map String.toList
  host := "s3.us-east-1.amazonaws.com".toList
  headers := []
  arrived := 0

/-- One request asks for the text as HTML, and the next, which asks for nothing, gets it so. -/
theorem asked_content_type_is_served :
    let asking := get_text (some "response-content-type=text/html")
    let plain := get_text none
    let cache headers := cache_after (fun _ => none) open_gates asking headers
    uses_cache open_gates asking = true ∧ uses_cache open_gates plain = true ∧
      plain.cache_key = asking.cache_key ∧
      (from_cache open_gates (cache (text_origin.respond asking).rows) plain (.full 5)).bind
          (get · "content-type") = some "text/html" ∧
      (from_cache open_gates (cache (text_origin.own asking).rows) plain (.full 5)).bind
          (get · "content-type") = some "text/plain" := by
  decide +kernel

/-- A request that asks for the object's own type leaves nothing to see. -/
theorem own_content_type_is_unseen :
    let asking := get_text (some "response-content-type=text/plain")
    let plain := get_text none
    let cache headers := cache_after (fun _ => none) open_gates asking headers
    (from_cache open_gates (cache (text_origin.respond asking).rows) plain (.full 5)).isSome ∧
      from_cache open_gates (cache (text_origin.respond asking).rows) plain (.full 5) =
        from_cache open_gates (cache (text_origin.own asking).rows) plain (.full 5) := by
  refine ⟨by decide +kernel, ?_⟩
  refine (overrides_unseen_iff (fun _ => none) open_gates text_origin _ _ ?_ ?_ ?_ _).mpr (.inr ?_)
  all_goals decide +kernel

end HybridCache.HttpProxy
