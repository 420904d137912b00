/-
The metadata record of a cached object (`NewCacheMetadata`, `ObjectMetadata` and `RangeSpec` in
`cache_types.rs`).

A range records its own tier, and one written before that field existed follows the object's flag.
`π` are file paths, `ω` is everything else in the record.
-/
import Mathlib

namespace HybridCache.Metadata

variable {ω π : Type}

/-- `RangeSpec`, without the access statistics. -/
structure RangeSpec (π : Type) where
  start : ℕ
  end_ : ℕ
  file_path : π
  compressed_size : ℕ
  staged : Option Bool
deriving DecidableEq, Repr

structure NewCacheMetadata (ω π : Type) where
  etag : String
  last_modified : String
  response_headers : List (String × String)
  is_write_cached : Bool
  write_cache_expires_at : Option ℕ
  write_cache_created_at : Option ℕ
  write_cache_last_accessed : Option ℕ
  graduation_accounted : Bool
  ranges : List (RangeSpec π)
  expires_at : ℕ
  rest : ω
deriving DecidableEq, Repr

/-- `classify_new_range_as_staged`; `in_progress` says of a path that it lies under
`mpus_in_progress/`. -/
def classify_new_range_as_staged (in_progress : π → Bool) (range_file_path : π)
    (is_write_cached : Bool) : Bool :=
  is_write_cached || in_progress range_file_path

def is_staged_range_parts (in_progress : π → Bool) (staged : Option Bool) (range_file_path : π)
    (object_is_write_cached : Bool) : Bool :=
  match staged with
  | some staged => staged
  | none => classify_new_range_as_staged in_progress range_file_path object_is_write_cached

def is_staged_range_spec (in_progress : π → Bool) (range : RangeSpec π)
    (object_is_write_cached : Bool) : Bool :=
  is_staged_range_parts in_progress range.staged range.file_path object_is_write_cached

def staged_bytes (in_progress : π → Bool) (ranges : List (RangeSpec π))
    (object_is_write_cached : Bool) : ℕ :=
  ((ranges.filter fun r => is_staged_range_spec in_progress r object_is_write_cached).map
    RangeSpec.compressed_size).sum

namespace NewCacheMetadata

/-- `effective_last_modified`: the field, or the header under any case. -/
def effective_last_modified (m : NewCacheMetadata ω π) : Option String :=
  if m.last_modified ≠ "" then some m.last_modified
  else
    ((m.response_headers.find? fun h => h.1.toLower = "last-modified").map Prod.snd).filter
      fun v => v ≠ ""

def staged_compressed_size (in_progress : π → Bool) (m : NewCacheMetadata ω π) : ℕ :=
  staged_bytes in_progress m.ranges m.is_write_cached

def compressed_size (m : NewCacheMetadata ω π) : ℕ :=
  (m.ranges.map RangeSpec.compressed_size).sum

/-- `set_last_modified`: the field and the header. -/
def set_last_modified (m : NewCacheMetadata ω π) (last_modified : String) :
    NewCacheMetadata ω π :=
  { m with
    last_modified := last_modified
    response_headers := ("last-modified", last_modified) ::
      m.response_headers.filter fun h => h.1.toLower ≠ "last-modified" }

/-- The record as graduation leaves it: the object and every range in the read tier. -/
def graduated (m : NewCacheMetadata ω π) (expires_at : ℕ) : NewCacheMetadata ω π :=
  { m with
    is_write_cached := false
    write_cache_expires_at := none
    write_cache_created_at := none
    write_cache_last_accessed := none
    ranges := m.ranges.map fun r => { r with staged := some false }
    expires_at := expires_at }

/-- The record with its tier and freshness fields blanked: etag, object metadata and ranges. -/
def content (m : NewCacheMetadata ω π) : NewCacheMetadata ω π :=
  { m with
    is_write_cached := false
    write_cache_expires_at := none
    write_cache_created_at := none
    write_cache_last_accessed := none
    ranges := m.ranges.map fun r => { r with staged := none }
    expires_at := 0 }

variable {expires_at : ℕ} {m : NewCacheMetadata ω π}

@[simp] theorem content_graduated : (m.graduated expires_at).content = m.content := by
  simp [content, graduated, List.map_map, Function.comp_def]

@[simp] theorem staged_compressed_size_graduated (in_progress : π → Bool) :
    (m.graduated expires_at).staged_compressed_size in_progress = 0 := by
  have hnone : (m.graduated expires_at).ranges.filter (fun r =>
      is_staged_range_spec in_progress r (m.graduated expires_at).is_write_cached) = [] := by
    rw [List.filter_eq_nil_iff]
    intro r hr
    obtain ⟨r', -, rfl⟩ := List.mem_map.mp hr
    simp [is_staged_range_spec, is_staged_range_parts]
  rw [staged_compressed_size, staged_bytes, hnone]
  rfl

end NewCacheMetadata

def MAX_TTL_SECS : ℕ := 315360000

/-- `safe_expiry`, in seconds. -/
def safe_expiry (base ttl : ℕ) : ℕ :=
  base + min ttl MAX_TTL_SECS

/-- A write-cached object of one range of `n` bytes, as an upload leaves it. -/
def uploaded (etag : String) (n : ℕ) : NewCacheMetadata Unit String where
  etag := etag
  last_modified := "Sun, 15 Nov 2026 00:00:00 GMT"
  response_headers := []
  is_write_cached := true
  write_cache_expires_at := some 3600
  write_cache_created_at := some 0
  write_cache_last_accessed := some 0
  graduation_accounted := false
  ranges := [⟨0, n - 1, etag, n, some true⟩]
  expires_at := 3600
  rest := ()

end HybridCache.Metadata
