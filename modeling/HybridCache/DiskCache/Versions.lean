/-
Which version of an object is cached (`store_range`, `claim_object_version`,
`prepare_object_version` and `retire_object_version` in `disk_cache.rs`).

Before bytes are published their version is claimed under the metadata lock. Another version than
the recorded one is refused unless its `Last-Modified` is strictly newer, and then the recorded
version's files go first. A process that has claimed a version does not claim it again, so it may
still publish bytes of a version another process has replaced.

`parse_http_date` is the parser of the `httpdate` crate; nothing is assumed of it.
-/
import HybridCache.DiskCache.Lookup
import HybridCache.Eviction.Pass
import HybridCache.Lib.Transition

namespace HybridCache.DiskCache

open Lib Lib.Outcome CacheTypes Journal
open Eviction (RangeUnlinkOutcome)
open RangeHandler (ProxyError)

/-! ## Claiming a version -/

/-- Why a store fails. `Io` stands for the failures of file operations and of the lock. -/
inductive StoreError where
  | InvalidRange (start end_ : ℕ)
  | ShortRange (uncompressed_size range_size clamped_end : ℕ)
  | SizeMismatch (uncompressed_size range_size : ℕ)
  | NoEtag (start end_ : ℕ) (existing_etag : String)
  | CacheVersionMismatch (cached_etag response_etag : String)
  | RetirementFailed
  | Io
deriving DecidableEq, Repr

structure StoreRequest where
  start : ℕ
  end_ : ℕ
  data_len : ℕ
  object_metadata : ObjectMetadata
  /-- The end byte of the response's `Content-Range`, if it has one. -/
  content_range_end : Option ℕ
  ttl : ℕ
  compressed_size : ℕ

/-- What a store meets on its way. -/
structure StoreRun where
  now : ℕ
  tmp_written : Bool
  metadata_lock_acquired : Bool
  metadata_readable : Bool
  unlink : RangeSpec → RangeUnlinkOutcome
  removals_journaled : Bool
  metadata_written : Bool
  renamed : Bool
  journaled : Bool

def strip_response_scoped_headers (headers : List (String × String)) : List (String × String) :=
  headers.filter fun h =>
    h.1.toLower ≠ "content-length" ∧ h.1.toLower ≠ "content-range" ∧
      h.1.toLower ≠ "x-amz-mp-parts-count"

def new_version_record (now ttl : ℕ) (object : ObjectMetadata) : NewCacheMetadata where
  object_metadata :=
    { object with response_headers := strip_response_scoped_headers object.response_headers }
  ranges := []
  created_at := now
  expires_at := now + ttl
  head_expires_at := none
  head_last_accessed := none
  head_access_count := 0
  head_cached_at := none

section Claim

variable (parse_http_date : String → Option ℕ) (is_safe_relative_file_path : FilePath → Bool)

def is_newer (cached response : ObjectMetadata) : Bool :=
  match parse_http_date cached.last_modified, parse_http_date response.last_modified with
  | some cached_at, some response_at => response_at > cached_at
  | _, _ => false

/-- `retire_object_version`: the ranges whose files went, and whether none was left over. -/
def retire_object_version (unlink : RangeSpec → RangeUnlinkOutcome) :
    List RangeSpec → List RangeSpec × Bool
  | [] => ([], true)
  | range :: rest =>
    if is_safe_relative_file_path range.file_path = false then retire_object_version unlink rest
    else
      match unlink range with
      | .Unlinked =>
        let (removed, done) := retire_object_version unlink rest
        (range :: removed, done)
      | .AlreadyAbsent => retire_object_version unlink rest
      | .Failed => ([], false)

/-- What claiming a version leaves: the record, the ranges whose files were removed, and the
error. -/
structure Prepared where
  file : Option NewCacheMetadata
  removed : List RangeSpec
  error : Option StoreError

/-- The write at the end of `prepare_object_version`. -/
def publish_version (run : StoreRun) (request : StoreRequest) (file : Option NewCacheMetadata)
    (removed : List RangeSpec) : Prepared :=
  if run.metadata_written then
    ⟨some (new_version_record run.now request.ttl request.object_metadata), removed, none⟩
  else ⟨file, removed, some .Io⟩

def prepare_object_version (run : StoreRun) (request : StoreRequest)
    (file : Option NewCacheMetadata) : Prepared :=
  let object := request.object_metadata
  if object.etag = "" then ⟨file, [], some (.CacheVersionMismatch "" object.etag)⟩
  else if run.metadata_readable = false then ⟨file, [], some .Io⟩
  else
    match file with
    | none => publish_version run request file []
    | some cached =>
      if cached.object_metadata.etag = object.etag then ⟨file, [], none⟩
      else if cached.object_metadata.etag ≠ "" ∧
          is_newer parse_http_date cached.object_metadata object = false then
        ⟨file, [], some (.CacheVersionMismatch cached.object_metadata.etag object.etag)⟩
      else
        match retire_object_version is_safe_relative_file_path run.unlink cached.ranges with
        | (removed, true) => publish_version run request file removed
        | (removed, false) => ⟨file, removed, some .RetirementFailed⟩

variable (run : StoreRun) (request : StoreRequest) {file : Option NewCacheMetadata}

variable {parse_http_date is_safe_relative_file_path}

theorem retired_spec (unlink : RangeSpec → RangeUnlinkOutcome) (ranges : List RangeSpec) :
    (∀ range ∈ (retire_object_version is_safe_relative_file_path unlink ranges).1,
      range ∈ ranges ∧ unlink range = .Unlinked) ∧
    ((retire_object_version is_safe_relative_file_path unlink ranges).2 = true →
      ∀ range ∈ ranges, is_safe_relative_file_path range.file_path = true →
        unlink range ≠ .Failed) := by
  induction ranges with
  | nil => simp [retire_object_version]
  | cons range rest ih =>
    unfold retire_object_version
    split_ifs with hsafe
    · simp_all
    · cases hunlink : unlink range <;> simp_all

theorem publish_version_cases (file : Option NewCacheMetadata) (removed : List RangeSpec) :
    publish_version run request file removed =
        ⟨some (new_version_record run.now request.ttl request.object_metadata), removed, none⟩ ∨
      publish_version run request file removed = ⟨file, removed, some .Io⟩ := by
  unfold publish_version
  split_ifs
  · exact .inl rfl
  · exact .inr rfl

/-- What claiming a version does: it leaves the record, and without an error only if that has the
version; or it writes a new one. The new version is strictly newer than the one before it, whose
files are all gone. -/
theorem prepare_object_version_cases (file : Option NewCacheMetadata) :
    let out := prepare_object_version parse_http_date is_safe_relative_file_path run request file
    (∀ range ∈ out.removed, ∃ cached ∈ file, range ∈ cached.ranges ∧ run.unlink range = .Unlinked) ∧
    ((out.file = file ∧ (out.error = none →
        ∃ cached ∈ file, cached.object_metadata.etag = request.object_metadata.etag)) ∨
      (out.error = none ∧ request.object_metadata.etag ≠ "" ∧
        out.file = some (new_version_record run.now request.ttl request.object_metadata) ∧
        ∀ cached ∈ file, (cached.object_metadata.etag ≠ "" →
            is_newer parse_http_date cached.object_metadata request.object_metadata = true) ∧
          ∀ range ∈ cached.ranges, is_safe_relative_file_path range.file_path = true →
            run.unlink range ≠ .Failed)) := by
  unfold prepare_object_version
  dsimp only
  split_ifs with hetag hreadable
  · simp
  · simp
  · cases file with
    | none => rcases publish_version_cases run request none [] with h | h <;> simp [h, hetag]
    | some cached =>
      dsimp only
      split_ifs with hsame hrefuse
      · simp [hsame]
      · simp
      · obtain ⟨hremoved, hdone⟩ :=
          @retired_spec is_safe_relative_file_path run.unlink cached.ranges
        rcases hretired : retire_object_version is_safe_relative_file_path run.unlink cached.ranges
          with ⟨removed, done⟩
        rw [hretired] at hremoved hdone
        cases done with
        | false => exact ⟨fun range hrange => ⟨cached, rfl, hremoved range hrange⟩, by simp⟩
        | true =>
          dsimp only
          rcases publish_version_cases run request (some cached) removed with h | h
          · rw [h]
            refine ⟨fun range hrange => ⟨cached, rfl, hremoved range hrange⟩,
              .inr ⟨rfl, hetag, rfl, ?_⟩⟩
            rintro _ ⟨⟩
            exact ⟨fun hne => Bool.of_not_eq_false fun hnewer => hrefuse ⟨hne, hnewer⟩, hdone rfl⟩
          · rw [h]
            exact ⟨fun range hrange => ⟨cached, rfl, hremoved range hrange⟩, by simp⟩

theorem etag_of_prepared {run : StoreRun} {request : StoreRequest}
    (h : (prepare_object_version parse_http_date is_safe_relative_file_path run request
      file).error = none) :
    ∃ m ∈ (prepare_object_version parse_http_date is_safe_relative_file_path run request
      file).file, m.object_metadata.etag = request.object_metadata.etag := by
  rcases (prepare_object_version_cases run request file).2 with ⟨hsame, hcached⟩ | ⟨-, -, hnew, -⟩
  · rw [hsame]
    exact hcached h
  · exact ⟨_, hnew, rfl⟩

end Claim

/-! ## A store -/

/-- What is fixed for a key. -/
structure KeyEnv where
  cache_key : String
  /-- The directory of range files, and the path of the key's files in it. -/
  ranges_dir : FilePath
  base : FilePath
  object_version_id : String → FilePath
  parse_http_date : String → Option ℕ
  is_safe_relative_file_path : FilePath → Bool
  in_progress : FilePath → Bool

/-- The shared state of one key, and what each process has confirmed. -/
structure Versions (ι : Type) where
  file : Option NewCacheMetadata
  journals : List JournalEntry
  confirmed : ι → Option String

def Versions.init {ι : Type} : Versions ι :=
  ⟨none, [], fun _ => none⟩

def validated_end (request : StoreRequest) : Except StoreError ℕ :=
  let range_size := request.end_ - request.start + 1
  if request.start > request.end_ then .error (.InvalidRange request.start request.end_)
  else if request.data_len < range_size ∧ request.data_len > 0 then
    let clamped_end := request.start + request.data_len - 1
    if request.content_range_end = some clamped_end then .ok clamped_end
    else .error (.ShortRange request.data_len range_size clamped_end)
  else if request.data_len ≠ range_size then .error (.SizeMismatch request.data_len range_size)
  else .ok request.end_

def remove_entry (ranges_dir : FilePath) (cache_key : String) (now : ℕ)
    (range : Metadata.RangeSpec FilePath) : JournalEntry where
  timestamp := now
  cache_key := cache_key
  range_spec :=
    { start := range.start
      end_ := range.end_
      file_path := ranges_dir ++ range.file_path
      compression_algorithm := .Lz4
      compressed_size := range.compressed_size
      uncompressed_size := range.compressed_size
      created_at := now
      last_accessed := now
      access_count := 0
      staged := none }
  operation := .Remove
  new_ttl_secs := none
  object_ttl_secs := none
  access_increment := none
  object_metadata := none

def removal_entries (env : KeyEnv) (run : StoreRun) (removed : List RangeSpec) :
    List JournalEntry :=
  if run.removals_journaled then
    removed.map fun range => remove_entry env.ranges_dir env.cache_key run.now range.toRangeSpec
  else []

def add_entry (cache_key : String) (now : ℕ) (range_spec : RangeSpec) (object : ObjectMetadata)
    (ttl : ℕ) : JournalEntry where
  timestamp := now
  cache_key := cache_key
  range_spec := range_spec
  operation := .Add
  new_ttl_secs := none
  object_ttl_secs := some ttl
  access_increment := none
  object_metadata := some object

section Store

variable (env : KeyEnv) {ι : Type} [DecidableEq ι]

def claim_object_version (s : Versions ι) (i : ι) (run : StoreRun) (request : StoreRequest) :
    Versions ι × Option StoreError :=
  if s.confirmed i = some request.object_metadata.etag then (s, none)
  else if run.metadata_lock_acquired = false then (s, some .Io)
  else
    let out := prepare_object_version env.parse_http_date env.is_safe_relative_file_path run
      request s.file
    ({ file := out.file
       journals := s.journals ++ removal_entries env run out.removed
       confirmed := if out.error = none then
           Function.update s.confirmed i (some request.object_metadata.etag)
         else s.confirmed }, out.error)

def stored_range (run : StoreRun) (request : StoreRequest) (end_ : ℕ) : RangeSpec :=
  let object := request.object_metadata
  let path := versioned_range_file_path env.base request.start end_
    (env.object_version_id object.etag)
  RangeSpec.new_staged run.now request.start end_ path request.compressed_size request.data_len
    (Metadata.classify_new_range_as_staged env.in_progress path object.is_write_cached)

def store_range (s : Versions ι) (i : ι) (run : StoreRun) (request : StoreRequest) :
    Versions ι × Option StoreError :=
  let object := request.object_metadata
  match validated_end request with
  | .error e => (s, some e)
  | .ok end_ =>
    if object.etag = "" ∧ run.metadata_readable ∧
        s.file.any fun existing => existing.object_metadata.etag ≠ "" then
      (s, some (.NoEtag request.start end_
        (s.file.elim "" fun existing => existing.object_metadata.etag)))
    else if run.tmp_written = false then (s, some .Io)
    else
      match claim_object_version env s i run request with
      | (s, some e) => (s, some e)
      | (s, none) =>
        if run.renamed = false then (s, some .Io)
        else if run.journaled = false then (s, some .Io)
        else
          ({ s with journals := s.journals ++ [add_entry env.cache_key run.now
              (stored_range env run request end_) object request.ttl] }, none)

/-! ## Runs -/

/-- What happens to a key: stores, consolidations of some of its entries, and processes that forget
what they have confirmed. -/
inductive VersionEvent (ι : Type) where
  | store (i : ι) (run : StoreRun) (request : StoreRequest)
  | consolidate (loaded_at applied_at : ℕ) (valid : JournalEntry → Bool)
      (unlinked : RangeSpec → Bool) (metadata_written : Bool) (retired : JournalEntry → Bool)
  | forget (i : ι)

def Versions.step (s : Versions ι) : VersionEvent ι → Option (Versions ι)
  | .store i run request =>
    some (store_range env s i run request).1
  | .consolidate loaded_at applied_at valid unlinked metadata_written retired =>
    let valid_entries := (get_all_entries_for_cache_key s.journals env.cache_key).filter valid
    if valid_entries = [] then some s
    else if metadata_written = false then some s
    else
      some { s with
        file := some (consolidate_object env.object_version_id loaded_at applied_at unlinked s.file
          valid_entries)
        journals := s.journals.filter fun entry => !retired entry }
  | .forget i => some { s with confirmed := Function.update s.confirmed i none }

end Store

/-- One version follows another: it is the same, or its `Last-Modified` is strictly newer. -/
def Follows (parse_http_date : String → Option ℕ) (m m' : ObjectMetadata) : Prop :=
  (m'.etag = m.etag ∧ m'.last_modified = m.last_modified) ∨
    ∃ t t', parse_http_date m.last_modified = some t ∧
      parse_http_date m'.last_modified = some t' ∧ t < t'

/-- A record that is there stays there, and its version moves only forward. -/
def Forward (parse_http_date : String → Option ℕ) (file file' : Option NewCacheMetadata) : Prop :=
  ∀ m ∈ file, ∃ m' ∈ file', Follows parse_http_date m.object_metadata m'.object_metadata

section Forward

variable {parse_http_date : String → Option ℕ}

theorem Follows.trans {m₁ m₂ m₃ : ObjectMetadata} (h₁ : Follows parse_http_date m₁ m₂)
    (h₂ : Follows parse_http_date m₂ m₃) : Follows parse_http_date m₁ m₃ := by
  rcases h₁ with ⟨hetag₁, hlm₁⟩ | ⟨t₁, t₂, ht₁, ht₂, hlt⟩
  · rcases h₂ with ⟨hetag₂, hlm₂⟩ | ⟨t₂, t₃, ht₂, ht₃, hlt⟩
    · exact .inl ⟨hetag₂.trans hetag₁, hlm₂.trans hlm₁⟩
    · exact .inr ⟨t₂, t₃, hlm₁ ▸ ht₂, ht₃, hlt⟩
  · rcases h₂ with ⟨hetag₂, hlm₂⟩ | ⟨t₂', t₃, ht₂', ht₃, hlt'⟩
    · exact .inr ⟨t₁, t₂, ht₁, hlm₂ ▸ ht₂, hlt⟩
    · obtain rfl : t₂ = t₂' := Option.some.inj (ht₂.symm.trans ht₂')
      exact .inr ⟨t₁, t₃, ht₁, ht₃, hlt.trans hlt'⟩

theorem Forward.refl (file : Option NewCacheMetadata) : Forward parse_http_date file file :=
  fun m hm => ⟨m, hm, .inl ⟨rfl, rfl⟩⟩

theorem Forward.trans {f₁ f₂ f₃ : Option NewCacheMetadata} (h₁ : Forward parse_http_date f₁ f₂)
    (h₂ : Forward parse_http_date f₂ f₃) : Forward parse_http_date f₁ f₃ := by
  intro m₁ hm₁
  obtain ⟨m₂, hm₂, h₁₂⟩ := h₁ m₁ hm₁
  obtain ⟨m₃, hm₃, h₂₃⟩ := h₂ m₂ hm₂
  exact ⟨m₃, hm₃, h₁₂.trans h₂₃⟩

theorem follows_of_is_newer {cached response : ObjectMetadata}
    (h : is_newer parse_http_date cached response = true) :
    ∃ t t', parse_http_date cached.last_modified = some t ∧
      parse_http_date response.last_modified = some t' ∧ t < t' := by
  unfold is_newer at h
  split at h
  · rename_i t t' ht ht'
    exact ⟨t, t', ht, ht', of_decide_eq_true h⟩
  · cases h

end Forward

open Versions

section Runs

variable {env : KeyEnv} {ι : Type}

/-- A recorded version has an etag, and before the first record nothing is journaled or
confirmed. -/
structure Versions.Identified (s : Versions ι) : Prop where
  etag_ne : ∀ m ∈ s.file, m.object_metadata.etag ≠ ""
  unrecorded : s.file = none → s.journals = [] ∧ ∀ i, s.confirmed i = none

theorem Versions.init_identified : (init : Versions ι).Identified where
  etag_ne _ h := by cases h
  unrecorded _ := ⟨rfl, fun _ => rfl⟩

/-- What is recorded in the later state still has an etag and has moved only forward. -/
structure Versions.Advances (env : KeyEnv) (s s' : Versions ι) : Prop where
  identified : s'.Identified
  forward : Forward env.parse_http_date s.file s'.file

variable {s : Versions ι}

theorem Versions.Advances.refl (hs : s.Identified) : s.Advances env s :=
  ⟨hs, Forward.refl s.file⟩

variable [DecidableEq ι]

variable {i : ι} {run : StoreRun} {request : StoreRequest} {entry : JournalEntry}

/-- What claiming does to the shared state. -/
theorem claim_object_version_cases (i : ι) (run : StoreRun) (request : StoreRequest) :
    let out := claim_object_version env s i run request
    (out.1.file = s.file ∧ (out.2 = none → s.confirmed i = some request.object_metadata.etag ∨
        ∃ m ∈ s.file, m.object_metadata.etag = request.object_metadata.etag)) ∨
      (out.2 = none ∧ request.object_metadata.etag ≠ "" ∧
        out.1.file = some (new_version_record run.now request.ttl request.object_metadata) ∧
        ∀ cached ∈ s.file, (cached.object_metadata.etag ≠ "" →
            is_newer env.parse_http_date cached.object_metadata request.object_metadata = true) ∧
          ∀ range ∈ cached.ranges, env.is_safe_relative_file_path range.file_path = true →
            run.unlink range ≠ .Failed) := by
  unfold claim_object_version
  split_ifs with hconfirmed
  · exact .inl ⟨rfl, fun _ => .inl hconfirmed⟩
  · exact .inl ⟨rfl, nofun⟩
  · exact (prepare_object_version_cases run request s.file).2.imp_left fun h =>
      ⟨h.1, fun hnone => .inr (h.2 hnone)⟩

/-- Only a file that was removed is journaled as such. -/
theorem mem_claim_object_version_journals
    (h : entry ∈ (claim_object_version env s i run request).1.journals) :
    entry ∈ s.journals ∨ ∃ cached ∈ s.file, ∃ range ∈ cached.ranges, run.unlink range = .Unlinked ∧
      entry = remove_entry env.ranges_dir env.cache_key run.now range.toRangeSpec := by
  unfold claim_object_version at h
  split_ifs at h
  · exact .inl h
  · exact .inl h
  · refine (List.mem_append.mp h).imp_right fun h => ?_
    unfold removal_entries at h
    split_ifs at h
    · obtain ⟨range, hrange, rfl⟩ := List.mem_map.mp h
      obtain ⟨cached, hcached, hmem, hunlink⟩ :=
        (prepare_object_version_cases run request s.file).1 range hrange
      exact ⟨cached, hcached, range, hmem, hunlink, rfl⟩
    · cases h

theorem claim_object_version_confirmed (h : (claim_object_version env s i run request).2 ≠ none) :
    (claim_object_version env s i run request).1.confirmed = s.confirmed := by
  unfold claim_object_version at h ⊢
  split_ifs at h ⊢
  · rfl
  · rfl
  · exact if_neg h

theorem claim_object_version_advances (hs : s.Identified) (i : ι) (run : StoreRun)
    (request : StoreRequest) : s.Advances env (claim_object_version env s i run request).1 := by
  rcases @claim_object_version_cases env _ s _ i run request with
    ⟨hsame, hclaimed⟩ | ⟨-, hetag, hnew, hnewer⟩
  · refine ⟨⟨fun m hm => hs.etag_ne m (hsame ▸ hm), fun hnone => ?_⟩,
      by rw [hsame]; exact .refl s.file⟩
    rw [hsame] at hnone
    obtain ⟨hjournals, hconfirmed⟩ := hs.unrecorded hnone
    constructor
    · refine List.eq_nil_iff_forall_not_mem.mpr fun entry hentry => ?_
      rcases mem_claim_object_version_journals hentry with h | ⟨cached, hcached, -⟩
      · simp [hjournals] at h
      · simp [hnone] at hcached
    · -- without a record nothing can have been confirmed
      rw [claim_object_version_confirmed]
      · exact hconfirmed
      · intro herror
        simpa [hconfirmed, hnone] using hclaimed herror
  · refine ⟨⟨fun m hm => ?_, fun hnone => ?_⟩, fun m hm => ?_⟩
    · rw [hnew] at hm
      cases hm
      exact hetag
    · rw [hnew] at hnone
      cases hnone
    · rw [hnew]
      exact ⟨_, rfl, .inr (follows_of_is_newer ((hnewer m hm).1 (hs.etag_ne m hm)))⟩

/-- A store changes nothing, or claims the version, or claims it and journals its range. -/
theorem store_range_cases (s : Versions ι) (i : ι) (run : StoreRun) (request : StoreRequest) :
    let claim := claim_object_version env s i run request
    let out := (store_range env s i run request).1
    out = s ∨ out = claim.1 ∨ (claim.2 = none ∧ ∃ end_,
      out = { claim.1 with
        journals := claim.1.journals ++ [add_entry env.cache_key run.now
          (stored_range env run request end_) request.object_metadata request.ttl] }) := by
  unfold store_range
  split
  · exact .inl rfl
  · generalize claim_object_version env s i run request = claim
    obtain ⟨s', _ | e⟩ := claim
    · dsimp only
      split_ifs
      · exact .inl rfl
      · exact .inl rfl
      · exact .inr (.inl rfl)
      · exact .inr (.inl rfl)
      · exact .inr (.inr ⟨rfl, _, rfl⟩)
    · dsimp only
      split_ifs
      · exact .inl rfl
      · exact .inl rfl
      · exact .inr (.inl rfl)

theorem store_range_file (s : Versions ι) (i : ι) (run : StoreRun) (request : StoreRequest) :
    (store_range env s i run request).1.file = s.file ∨
      (store_range env s i run request).1.file =
        some (new_version_record run.now request.ttl request.object_metadata) ∧
      ∀ cached ∈ s.file, ∀ range ∈ cached.ranges,
        env.is_safe_relative_file_path range.file_path = true → run.unlink range ≠ .Failed := by
  have hclaim := (@claim_object_version_cases env _ s _ i run request).imp (·.1) fun h =>
    And.intro h.2.2.1 fun cached hcached => (h.2.2.2 cached hcached).2
  rcases store_range_cases s i run request with hout | hout | ⟨-, end_, hout⟩
  · exact .inl (by rw [hout])
  · rw [hout]
    exact hclaim
  · rw [hout]
    exact hclaim

theorem mem_store_range_journals (h : entry ∈ (store_range env s i run request).1.journals) :
    entry ∈ s.journals ∨
      (∃ cached ∈ s.file, ∃ range ∈ cached.ranges, run.unlink range = .Unlinked ∧
        entry = remove_entry env.ranges_dir env.cache_key run.now range.toRangeSpec) ∨
      ∃ end_, entry = add_entry env.cache_key run.now (stored_range env run request end_)
        request.object_metadata request.ttl := by
  rcases store_range_cases s i run request with hout | hout | ⟨-, end_, hout⟩
  · rw [hout] at h
    exact .inl h
  · rw [hout] at h
    exact (mem_claim_object_version_journals h).imp_right .inl
  · rw [hout] at h
    rcases List.mem_append.mp h with h | h
    · exact (mem_claim_object_version_journals h).imp_right .inl
    · exact .inr (.inr ⟨end_, List.mem_singleton.mp h⟩)

/-- What a store journals is dated by it and describes its response, if it describes an object. -/
theorem journaled_by_store_range (h : entry ∈ (store_range env s i run request).1.journals) :
    entry ∈ s.journals ∨ (entry.timestamp = run.now ∧
      ∀ object ∈ entry.object_metadata, object = request.object_metadata) := by
  rcases mem_store_range_journals h with h | ⟨_, _, _, _, _, rfl⟩ | ⟨_, rfl⟩
  · exact .inl h
  · exact .inr ⟨rfl, nofun⟩
  · exact .inr ⟨rfl, fun object hobject => (Option.some.inj hobject).symm⟩

theorem store_range_advances (hs : s.Identified) (i : ι) (run : StoreRun) (request : StoreRequest) :
    s.Advances env (store_range env s i run request).1 := by
  have hclaim := @claim_object_version_advances env _ s _ hs i run request
  rcases store_range_cases s i run request with hout | hout | ⟨hnone, end_, hout⟩
  · rw [hout]
    exact .refl hs
  · rw [hout]
    exact hclaim
  · rw [hout]
    refine ⟨⟨hclaim.identified.etag_ne, fun hfile => ?_⟩, hclaim.forward⟩
    -- A claim that went through has left a record.
    rcases @claim_object_version_cases env _ s _ i run request with
      ⟨hsame, hclaimed⟩ | ⟨-, -, hnew, -⟩
    · have hbefore : s.file = none := hsame.symm.trans hfile
      simpa [(hs.unrecorded hbefore).2, hbefore] using hclaimed hnone
    · cases hnew.symm.trans hfile

theorem consolidate_follows (object_version_id : String → FilePath) (loaded_at applied_at : ℕ)
    (unlinked : RangeSpec → Bool) (m : NewCacheMetadata) (batch : List JournalEntry) :
    (consolidate_object object_version_id loaded_at applied_at unlinked (some m)
        batch).object_metadata.etag = m.object_metadata.etag ∧
      (consolidate_object object_version_id loaded_at applied_at unlinked (some m)
        batch).object_metadata.last_modified = m.object_metadata.last_modified := by
  obtain ⟨ranges, expires_at, accounted, content_length, hrecord⟩ := consolidate_object_metadata
    object_version_id loaded_at applied_at unlinked (some m) batch
  rw [hrecord]
  exact ⟨rfl, rfl⟩

variable {s' : Versions ι}

/-- **Step lemma.** -/
theorem Versions.step_advances (hs : s.Identified) {event : VersionEvent ι}
    (hstep : s.step env event = some s') : s.Advances env s' := by
  cases event with
  | store i run request =>
    cases hstep
    exact store_range_advances hs i run request
  | consolidate loaded_at applied_at valid unlinked metadata_written retired =>
    unfold step at hstep
    dsimp only at hstep
    split_ifs at hstep with hempty hwritten
    · cases hstep
      exact .refl hs
    · cases hstep
      exact .refl hs
    · cases hstep
      generalize hbatch : (get_all_entries_for_cache_key s.journals env.cache_key).filter
        valid = batch at hempty
      cases hfile : s.file with
      | none =>
        -- Nothing is journaled before there is a record, so there was no batch.
        rw [(hs.unrecorded hfile).1] at hbatch
        exact absurd hbatch.symm hempty
      | some m =>
        have hsame :=
          consolidate_follows env.object_version_id loaded_at applied_at unlinked m batch
        refine ⟨⟨fun m' hm' => ?_, fun hnone => ?_⟩, fun m₀ hm₀ => ?_⟩
        · cases hm'
          rw [hsame.1]
          exact hs.etag_ne m hfile
        · cases hnone
        · rw [hfile] at hm₀
          cases hm₀
          exact ⟨_, rfl, .inl hsame⟩
  | forget i =>
    cases hstep
    refine ⟨⟨hs.etag_ne, fun hnone => ?_⟩, .refl s.file⟩
    obtain ⟨hjournals, hconfirmed⟩ := hs.unrecorded hnone
    refine ⟨hjournals, fun j => ?_⟩
    dsimp only
    rw [Function.update_apply]
    split_ifs
    · rfl
    · exact hconfirmed j

/-- **Run lemma.** -/
theorem Versions.run_advances (hs : s.Identified) {events : List (VersionEvent ι)}
    (hrun : Lib.run (step env) s events = some s') : s.Advances env s' := by
  have hguard : Guarded (step env) (fun _ _ => True) s events :=
    guarded_of_forall fun _ _ => trivial
  refine run_invariant (fun s₁ => s.Advances env s₁) ?_ (.refl hs) hguard hrun
  intro s₁ event s₂ hs₁ _ hstep
  have hnext := step_advances hs₁.identified hstep
  exact ⟨hnext.identified, hs₁.forward.trans hnext.forward⟩

/-- **Versions only move forward.** Between any two points of a run the recorded version is the
same or has given way to one with a strictly newer `Last-Modified`; it always has an etag; and what
a lookup returns is in files of it. A store that cannot remove one of its files leaves the record
as it is, and journals as removed only files that are gone. -/
theorem versions_only_move_forward (env : KeyEnv) (before after : List (VersionEvent ι))
    (s s' : Versions ι) (hbefore : Lib.run (step env) .init before = some s)
    (hafter : Lib.run (step env) s after = some s') :
    Forward env.parse_http_date s.file s'.file ∧
      (∀ m ∈ s'.file, m.object_metadata.etag ≠ "") ∧
      (∀ i run request, ∀ cached ∈ s'.file,
        (∃ range ∈ cached.ranges, env.is_safe_relative_file_path range.file_path = true ∧
          run.unlink range = .Failed) →
        (store_range env s' i run request).1.file = s'.file ∧
          ∀ entry ∈ (store_range env s' i run request).1.journals, entry.operation = .Remove →
            entry ∈ s'.journals ∨ ∃ range ∈ cached.ranges, run.unlink range = .Unlinked ∧
              entry = remove_entry env.ranges_dir env.cache_key run.now range.toRangeSpec) ∧
      (∀ request purpose result,
        find_cached_ranges env.object_version_id request s'.file purpose = ok result →
        ∀ range ∈ result.ranges, ∃ m ∈ s'.file,
          range_file_belongs_to range (env.object_version_id m.object_metadata.etag) = true) := by
  have hs := run_advances init_identified hbefore
  have hs' := run_advances hs.identified hafter
  refine ⟨hs'.forward, hs'.identified.etag_ne, ?_, ?_⟩
  · rintro i run request cached hcached ⟨range, hrange, hsafe, hfailed⟩
    refine ⟨?_, fun entry hentry hremove => ?_⟩
    · rcases store_range_file s' i run request with hsame | ⟨-, hgone⟩
      · exact hsame
      · exact absurd hfailed (hgone cached hcached range hrange hsafe)
    · rcases mem_store_range_journals hentry with hold | ⟨m, hm, hremoved⟩ | ⟨_, rfl⟩
      · exact .inl hold
      · obtain rfl := Option.some.inj (hm.symm.trans hcached)
        exact .inr hremoved
      · cases hremove
  · intro request purpose result hok range hrange
    exact belongs_of_mem_find_cached_ranges hok hrange

def first_ten_of (etag last_modified : String) : StoreRequest where
  start := 0
  end_ := 9
  data_len := 10
  object_metadata :=
    { (default : ObjectMetadata) with etag := etag, last_modified := last_modified }
  content_range_end := none
  ttl := 60
  compressed_size := 10

def undisturbed (now : ℕ) : StoreRun where
  now := now
  tmp_written := true
  metadata_lock_acquired := true
  metadata_readable := true
  unlink := fun _ => .Unlinked
  removals_journaled := true
  metadata_written := true
  renamed := true
  journaled := true

def parse_weekday (date : String) : Option ℕ :=
  if date = "Mon" then some 1 else if date = "Tue" then some 2 else none

def plain_env : KeyEnv where
  cache_key := "bucket/object"
  ranges_dir := []
  base := ['o']
  object_version_id := String.toList
  parse_http_date := parse_weekday
  is_safe_relative_file_path := fun _ => true
  in_progress := fun _ => false

def consolidation (now : ℕ) : VersionEvent Unit :=
  .consolidate now now (fun _ => true) (fun _ => true) true (fun _ => true)

/-- The first ten bytes of Monday's version and the next ten. -/
def monday : List (VersionEvent Unit) :=
  [.store () (undisturbed 1) (first_ten_of "mon" "Mon"),
    .store () (undisturbed 1) { first_ten_of "mon" "Mon" with start := 10, end_ := 19 },
    consolidation 2]

/-- Tuesday's version comes; the file of the first range is removed, that of the second is not. -/
def half_retired : StoreRun :=
  { undisturbed 3 with unlink := fun range => if range.start = 0 then .Unlinked else .Failed }

def tuesday (run : StoreRun) : List (VersionEvent Unit) :=
  [.store () run (first_ten_of "tue" "Tue"), consolidation 4]

/-- Monday's version stays, and its first range is gone. -/
theorem half_retired_version_loses_a_range :
    (Lib.run (step plain_env) .init monday).map
      (fun s => s.file.map fun m => (m.object_metadata.etag, m.ranges.map (·.start))) =
      some (some ("mon", [0, 10])) ∧
    (Lib.run (step plain_env) .init (monday ++ tuesday half_retired)).map
      (fun s => s.file.map fun m => (m.object_metadata.etag, m.ranges.map (·.start))) =
      some (some ("mon", [10])) := by
  decide

/-- Tuesday's version replaces Monday's once all its files can be removed. -/
theorem tuesday_replaces_monday :
    ∃ s s' : Versions Unit, Lib.run (step plain_env) .init monday = some s ∧
      Lib.run (step plain_env) s (tuesday (undisturbed 3)) = some s' ∧
      (s'.file.map fun m => (m.object_metadata.etag, m.ranges.length)) = some ("tue", 1) ∧
      Forward parse_weekday s.file s'.file ∧
      (store_range plain_env s () half_retired (first_ten_of "tue" "Tue")).1.file = s.file := by
  refine ⟨_, _, rfl, rfl, by decide, ?_, ?_⟩
  · exact (versions_only_move_forward plain_env monday (tuesday (undisturbed 3)) _ _ rfl rfl).1
  · refine ((versions_only_move_forward plain_env monday [] _ _ rfl rfl).2.2.1 () half_retired
      (first_ten_of "tue" "Tue") _ rfl ?_).1
    exact ⟨_, List.mem_cons_of_mem _ List.mem_cons_self, rfl, rfl⟩

end Runs

end HybridCache.DiskCache
