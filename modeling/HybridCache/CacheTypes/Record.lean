/-
The record of a cached object (`cache_types.rs`), and the names of its range files
(`disk_cache.rs`, `journal_manager.rs`).

`NewCacheMetadata.tier` is the part in `Metadata.Record`. Times are seconds. A range file's name
ends in `_<start>-<end>.<id>.bin`, where `<id>` is the hash of the etag (`object_version_id`, a
parameter). The name is all that ties the bytes to an object version.
-/
import HybridCache.Lib.Keyed
import HybridCache.Metadata.Record

namespace HybridCache.CacheTypes

open Lib

abbrev FilePath := List Char

/-- The one instance behind every test whether a path is on a list. -/
instance instLawfulBEqFilePath : LawfulBEq FilePath := inferInstance

inductive CompressionAlgorithm where
  | Lz4
  | None
deriving DecidableEq, Repr, Inhabited

structure RangeSpec extends Metadata.RangeSpec FilePath where
  compression_algorithm : CompressionAlgorithm
  uncompressed_size : ℕ
  created_at : ℕ
  last_accessed : ℕ
  access_count : ℕ
deriving DecidableEq, Repr

def RangeSpec.extent (range : RangeSpec) : ℕ × ℕ :=
  (range.start, range.end_)

def RangeSpec.new_staged (now start end_ : ℕ) (file_path : FilePath)
    (compressed_size uncompressed_size : ℕ) (staged : Bool) : RangeSpec :=
  { start, end_, file_path, compressed_size, uncompressed_size
    compression_algorithm := .Lz4
    created_at := now
    last_accessed := now
    access_count := 1
    staged := some staged }

/-- `ObjectMetadata`. The part map is a list of `(part_number, start, end)`. -/
structure ObjectMetadata where
  etag : String
  last_modified : String
  content_length : ℕ
  response_headers : List (String × String)
  parts_count : Option ℕ
  part_ranges : List (ℕ × ℕ × ℕ)
  is_write_cached : Bool
  write_cache_expires_at : Option ℕ
  write_cache_created_at : Option ℕ
  write_cache_last_accessed : Option ℕ
  graduation_accounted : Bool
deriving DecidableEq, Repr, Inhabited

/-- `NewCacheMetadata`, of one cache key. -/
structure NewCacheMetadata where
  object_metadata : ObjectMetadata
  ranges : List RangeSpec
  created_at : ℕ
  expires_at : ℕ
  head_expires_at : Option ℕ
  head_last_accessed : Option ℕ
  head_access_count : ℕ
  head_cached_at : Option ℕ
deriving DecidableEq, Repr, Inhabited

def NewCacheMetadata.tier (m : NewCacheMetadata) : Metadata.NewCacheMetadata Unit FilePath where
  etag := m.object_metadata.etag
  last_modified := m.object_metadata.last_modified
  response_headers := m.object_metadata.response_headers
  is_write_cached := m.object_metadata.is_write_cached
  write_cache_expires_at := m.object_metadata.write_cache_expires_at
  write_cache_created_at := m.object_metadata.write_cache_created_at
  write_cache_last_accessed := m.object_metadata.write_cache_last_accessed
  graduation_accounted := m.object_metadata.graduation_accounted
  ranges := m.ranges.map RangeSpec.toRangeSpec
  expires_at := m.expires_at
  rest := ()

namespace NewCacheMetadata

def effective_last_modified (m : NewCacheMetadata) : Option String :=
  m.tier.effective_last_modified

def is_object_expired (now : ℕ) (m : NewCacheMetadata) : Bool :=
  now > m.expires_at

def refresh_object_ttl (now ttl : ℕ) (m : NewCacheMetadata) : NewCacheMetadata :=
  { m with expires_at := Metadata.safe_expiry now ttl }

end NewCacheMetadata

/-! ## Range file names -/

section FileNames

def strip_suffix (s suffix : FilePath) : Option FilePath :=
  if suffix <:+ s then some (s.take (s.length - suffix.length)) else none

theorem strip_suffix_append (s suffix : FilePath) : strip_suffix (s ++ suffix) suffix = some s := by
  simp [strip_suffix]

theorem strip_suffix_eq_some {s suffix stem : FilePath} :
    strip_suffix s suffix = some stem ↔ s = stem ++ suffix := by
  constructor
  · intro h
    unfold strip_suffix at h
    split_ifs at h with hsuffix
    obtain ⟨pre, rfl⟩ := hsuffix
    rw [List.length_append, Nat.add_sub_cancel, List.take_left] at h
    rw [Option.some.inj h]
  · rintro rfl
    exact strip_suffix_append stem suffix

def dot_bin : FilePath := ['.', 'b', 'i', 'n']

/-- `format!("_{}-{}", start, end)`. -/
def extent_suffix (start end_ : ℕ) : FilePath :=
  '_' :: (Nat.toDigits 10 start ++ '-' :: Nat.toDigits 10 end_)

def range_file_belongs_to (range : RangeSpec) (version_id : FilePath) : Bool :=
  (((strip_suffix range.file_path dot_bin).bind fun stem => strip_suffix stem version_id).bind
    fun stem => strip_suffix stem ['.']).any
    fun stem => decide (extent_suffix range.start range.end_ <:+ stem)

/-- `versioned_range_file_path`; `base` is the directory and the object's name (its hash, if
the name is too long for the file system). -/
def versioned_range_file_path (base : FilePath) (start end_ : ℕ) (version_id : FilePath) :
    FilePath :=
  base ++ extent_suffix start end_ ++ ['.'] ++ version_id ++ dot_bin

def file_name (path : FilePath) : FilePath :=
  (path.reverse.takeWhile fun c => c ≠ '/').reverse

def range_file_version (path : FilePath) : Option FilePath :=
  (strip_suffix (file_name path) dot_bin).bind fun stem =>
    if '.' ∈ stem then
      some (stem.reverse.takeWhile fun c => c ≠ '.').reverse |>.filter fun version =>
        version.length = 64 ∧
          ∀ c ∈ version, c.isDigit ∨ ('a' ≤ c ∧ c ≤ 'f') ∨ ('A' ≤ c ∧ c ≤ 'F')
    else none

/-- A range file is taken to be of the version that its name ends with. -/
theorem range_file_belongs_to_iff {range : RangeSpec} {version_id : FilePath} :
    range_file_belongs_to range version_id = true ↔
      ∃ base, range.file_path =
        versioned_range_file_path base range.start range.end_ version_id := by
  unfold range_file_belongs_to versioned_range_file_path
  simp only [Option.any_eq_true, Option.bind_eq_some_iff, strip_suffix_eq_some, decide_eq_true_eq]
  constructor
  · rintro ⟨_, ⟨_, ⟨_, hbin, rfl⟩, rfl⟩, ⟨base, rfl⟩⟩
    exact ⟨base, hbin⟩
  · rintro ⟨base, h⟩
    exact ⟨_, ⟨_, ⟨_, h, rfl⟩, rfl⟩, base, rfl⟩

end FileNames

end HybridCache.CacheTypes
