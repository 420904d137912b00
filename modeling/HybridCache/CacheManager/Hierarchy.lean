/-
Invalidation of a key in all layers (`invalidate_cache_hierarchy`, `delete_specific_range`,
`remove_from_ram_cache_unified`, `invalidate_head_cache_entry_unified` in `cache.rs`).

An object's key is any text. All names in memory that begin with the key and `:range:` are removed,
also those of an object whose key has the same beginning. And a key with `:range:` twice and an
index and an extent between is taken for a command: the range of another object is deleted, and the
files of the key stay.

Which key a file and an entry in memory were stored for is kept beside the state (`Ownership`).
Operations on files succeed, and a path is compared as a text.
-/
import HybridCache.CacheManager.Removal
import HybridCache.DiskCache.Identity
import HybridCache.MetadataCache.Tier
import HybridCache.RamCache.Shards

namespace HybridCache.Hierarchy

open Lib List Option
open CacheTypes (FilePath RangeSpec NewCacheMetadata)
open DiskCache (Crates get_new_metadata_file_path)
open MetadataTier (MetadataCache)
open RamCache (Platform RamCacheEntry ShardedRamCache)
open Removal (range_path lock_file_path)

/-! ## The model -/

/-- What a file holds: a record that can be read, or anything else. -/
inductive Content where
  | record (metadata : NewCacheMetadata)
  | bytes (data : List UInt8)
deriving DecidableEq, Repr

structure CacheState where
  files : Directory FilePath Content
  ram_cache : Option ShardedRamCache
  metadata_cache : MetadataCache (List Char) NewCacheMetadata

/-- The text that the names of ranges are made with. -/
def range_mark : List Char := ":range:".toList

def generate_ram_range_key (cache_key : List Char) (start end_ : ℕ) (etag : List Char) :
    List Char :=
  cache_key ++ (range_mark ++ (Nat.toDigits 10 start ++ ':' :: (Nat.toDigits 10 end_ ++
    ':' :: etag)))

/-- What a key says that is taken for a command. -/
structure GranularRange where
  original_cache_key : List Char
  idx : ℕ
  start : ℕ
  end_ : ℕ
deriving DecidableEq, Repr

/-- Whether a key is taken for one: two marks, and between them `idx:start-end`. -/
def granular_range (cache_key : List Char) : Option GranularRange :=
  match split_text range_mark cache_key with
  | [original_cache_key, range_info, _] => do
    let (idx_str, range_str) ← split_once ':' range_info
    let idx ← parse_unsigned u64_max idx_str
    let (start_str, end_str) ← split_once '-' range_str
    let start ← parse_unsigned u64_max start_str
    let end_ ← parse_unsigned u64_max end_str
    some ⟨original_cache_key, idx, start, end_⟩
  | _ => none

open Directory

section Functions

variable (platform : Platform) (crates : Crates) (cache_dir : FilePath)
  -- the error for bytes that are no record: reading them fails if they are no text, or parsing
  (malformed : List UInt8 → String)

/-- `remove_from_ram_cache_unified`; there is no cache if it is not enabled. -/
def remove_from_ram_cache_unified (ram_cache : Option ShardedRamCache) (cache_key : List Char) :
    Option ShardedRamCache :=
  ram_cache.map fun cache =>
    (cache.invalidate platform cache_key).invalidate_by_prefix_keys platform
      (cache_key ++ range_mark)

def replace_record (files : Directory FilePath Content) (path : FilePath)
    (metadata : NewCacheMetadata) : Directory FilePath Content :=
  (files.erase (with_extension path "meta.tmp".toList)).put path (.record metadata)

/-- `delete_specific_range`. The extent only goes to the log. -/
def delete_specific_range (files : Directory FilePath Content) (cache_key : List Char)
    (range_idx : ℕ) : Except String Unit × Directory FilePath Content :=
  let metadata_file_path := get_new_metadata_file_path crates cache_dir cache_key
  match files.get? metadata_file_path with
  | none => (.ok (), files)
  | some (.bytes data) => (.error (malformed data), files)
  | some (.record metadata) =>
    match metadata.ranges[range_idx]? with
    | none => (.ok (), files)
    | some range_spec =>
      let ranges := metadata.ranges.eraseIdx range_idx
      let files := files.erase (range_path cache_dir range_spec)
      if ranges = [] then
        (.ok (), (files.erase metadata_file_path).erase (lock_file_path metadata_file_path))
      else (.ok (), replace_record files metadata_file_path { metadata with ranges := ranges })

def invalidate_head_cache_entry_unified (s : CacheState) (cache_key : List Char) : CacheState :=
  let metadata_path := get_new_metadata_file_path crates cache_dir cache_key
  let s := { s with metadata_cache := s.metadata_cache.invalidate cache_key }
  match s.files.get? metadata_path with
  | some (.record metadata) =>
    { s with files := replace_record s.files metadata_path { metadata with
        head_expires_at := none
        head_last_accessed := none
        head_cached_at := none } }
  | _ => s

def record_paths (cache_key : List Char) (metadata : NewCacheMetadata) : List FilePath :=
  metadata.ranges.map (range_path cache_dir) ++
    [get_new_metadata_file_path crates cache_dir cache_key,
      lock_file_path (get_new_metadata_file_path crates cache_dir cache_key)]

def invalidate_cache_hierarchy (s : CacheState) (cache_key : List Char) :
    Except String Unit × CacheState :=
  let s := { s with
    metadata_cache := s.metadata_cache.invalidate cache_key
    ram_cache := remove_from_ram_cache_unified platform s.ram_cache cache_key }
  match granular_range cache_key with
  | some range =>
    let (result, files) := delete_specific_range crates cache_dir malformed s.files
      range.original_cache_key range.idx
    (result, invalidate_head_cache_entry_unified crates cache_dir { s with files := files }
      cache_key)
  | none =>
    match s.files.get? (get_new_metadata_file_path crates cache_dir cache_key) with
    | some (.record metadata) =>
      let files := (record_paths crates cache_dir cache_key metadata).foldl erase s.files
      (.ok (), invalidate_head_cache_entry_unified crates cache_dir { s with files := files }
        cache_key)
    | _ => (.ok (), invalidate_head_cache_entry_unified crates cache_dir s cache_key)

end Functions

/-! ## Whose a file is -/

/-- What a file of a key is: its `.meta`, a range, or what stands beside the `.meta`. -/
inductive FileKind where
  | Metadata
  | Range
  | Beside
deriving DecidableEq, Repr

/-- The key that a file was stored for, and that an entry in memory was. -/
structure Ownership where
  file : FilePath → Option (List Char × FileKind)
  entry : List Char → List Char

/-- The key of an object begins with its bucket (`normalize_cache_key`). -/
def CacheKey (key : List Char) : Prop :=
  key.head? ≠ some '/'

instance (key : List Char) : Decidable (CacheKey key) :=
  inferInstanceAs (Decidable (_ ≠ _))

def RamKeyOf (key name : List Char) : Prop :=
  name = key ∨ ∃ start end_ etag, name = generate_ram_range_key key start end_ etag

/-- The names that an invalidation of the key removes from memory. -/
def Reached (key name : List Char) : Prop :=
  name = key ∨ key ++ range_mark <+: name

instance (key name : List Char) : Decidable (Reached key name) :=
  inferInstanceAs (Decidable (_ ∨ _))

namespace CacheState

def stored (platform : Platform) (s : CacheState) (name : List Char) : Option RamCacheEntry :=
  s.ram_cache.bind fun cache => cache.stored platform name

/-- Neither the `.meta` of a key nor a range of it is there. -/
def NoFiles (own : Ownership) (s : CacheState) (key : List Char) : Prop :=
  ∀ path kind, own.file path = some (key, kind) → kind ≠ .Beside → s.files.get? path = none

end CacheState

section Specification

variable (platform : Platform) (crates : Crates) (cache_dir : FilePath) (own : Ownership)

/-- What is true of the owners of what is there. -/
structure Owned (s : CacheState) : Prop where
  metadata_owner : ∀ key, CacheKey key →
    (s.files.get? (get_new_metadata_file_path crates cache_dir key)).isSome →
    own.file (get_new_metadata_file_path crates cache_dir key) = some (key, .Metadata)
  ram_key : ∀ name, (s.stored platform name).isSome → RamKeyOf (own.entry name) name

/-- What is wanted of an invalidation: everything of the key is gone, and everything of other keys
is as it was. -/
structure Exact (s t : CacheState) (key : List Char) : Prop where
  own_files : t.NoFiles own key
  own_entries : ∀ name, own.entry name = key → t.stored platform name = none
  own_metadata : t.metadata_cache.entries.get? key = none
  other_files : ∀ path other kind, own.file path = some (other, kind) → other ≠ key →
    t.files.get? path = s.files.get? path
  other_entries : ∀ name, own.entry name ≠ key →
    t.stored platform name = s.stored platform name
  other_metadata : ∀ other, other ≠ key →
    t.metadata_cache.entries.get? other = s.metadata_cache.entries.get? other

/-- The record of the object that a command names has the range that it names. -/
def Hits (s : CacheState) (range : GranularRange) : Prop :=
  ∃ metadata, s.files.get? (get_new_metadata_file_path crates cache_dir range.original_cache_key) =
    some (.record metadata) ∧ range.idx < metadata.ranges.length

/-- The record of a key lists the files of the key that are there, and no file that is deleted with
it is one of another key. -/
structure RecordOwns (s : CacheState) (key : List Char) (metadata : NewCacheMetadata) : Prop where
  listed : ∀ path kind, (s.files.get? path).isSome → own.file path = some (key, kind) →
    kind ≠ .Beside → path ∈ record_paths crates cache_dir key metadata
  unshared : ∀ path ∈ record_paths crates cache_dir key metadata, (s.files.get? path).isSome →
    ∀ other kind, own.file path = some (other, kind) → other = key

/-- What a key and the state must be like: no entry in memory of another key has a name that the
invalidation reaches; a key that is taken for a command has no files, and the command no effect; and
the `.meta` of any other key is not there, like its ranges, or is sound. -/
structure Separated (s : CacheState) (key : List Char) : Prop where
  entries : ∀ name, (s.stored platform name).isSome → own.entry name ≠ key → ¬ Reached key name
  command : ∀ range, granular_range key = some range →
    ¬ Hits crates cache_dir s range ∧ s.NoFiles own key
  object : granular_range key = none →
    match s.files.get? (get_new_metadata_file_path crates cache_dir key) with
    | none => s.NoFiles own key
    | some (.bytes _) => False
    | some (.record metadata) => RecordOwns crates cache_dir own s key metadata

end Specification

/-! ## Memory -/

section Memory

variable {platform : Platform}

theorem stored_remove_from_ram_cache_unified (ram_cache : Option ShardedRamCache)
    (key name : List Char) :
    ((remove_from_ram_cache_unified platform ram_cache key).bind fun cache =>
      cache.stored platform name) =
      if Reached key name then none
      else ram_cache.bind fun cache => cache.stored platform name := by
  cases ram_cache with
  | none => exact (ite_self _).symm
  | some cache =>
    change ((cache.invalidate platform key).invalidate_by_prefix_keys platform
      (key ++ range_mark)).stored platform name = if Reached key name then none else
        cache.stored platform name
    rw [ShardedRamCache.stored_invalidate_by_prefix_keys, ShardedRamCache.stored_invalidate]
    by_cases hmark : key ++ range_mark <+: name
    · have hreached : Reached key name := Or.inr hmark
      rw [if_pos hmark, if_pos hreached]
    · rw [if_neg hmark]
      simp only [Reached, hmark, or_false]

theorem reached_of_ramKeyOf {key name : List Char} (h : RamKeyOf key name) : Reached key name := by
  rcases h with hkey | ⟨start, end_, etag, hname⟩
  · exact Or.inl hkey
  · right
    rw [hname, generate_ram_range_key, ← append_assoc]
    exact prefix_append _ _

end Memory

/-! ## Commands -/

variable {range : GranularRange} {key : List Char}

section

variable (h : granular_range key = some range)

include h

theorem granular_range_eq_some :
    ∃ tail, key = range.original_cache_key ++ (range_mark ++ tail) := by
  rw [granular_range] at h
  split at h
  · rename_i original_cache_key range_info last hsplit
    simp only [bind_eq_bind, bind_eq_some_iff, Option.some.injEq] at h
    obtain ⟨_, _, _, _, _, _, _, _, _, _, rfl⟩ := h
    exact split_text_eq hsplit
  · cases h

theorem original_ne : range.original_cache_key ≠ key := by
  intro heq
  obtain ⟨tail, htail⟩ := granular_range_eq_some h
  have hlength := congrArg List.length htail
  rw [heq, length_append, length_append] at hlength
  have hmark : range_mark.length = 7 := rfl
  omega

theorem cacheKey_original (hkey : CacheKey key) : CacheKey range.original_cache_key := by
  obtain ⟨tail, htail⟩ := granular_range_eq_some h
  intro hhead
  refine hkey ?_
  rw [htail, List.head?_append, hhead]
  rfl

end

/-! ## Files -/

section Files

variable {platform : Platform} {crates : Crates} {cache_dir : FilePath}
  {malformed : List UInt8 → String} {own : Ownership} {s : CacheState} {key : List Char}

theorem get?_replace_record_ne (files : Directory FilePath Content) {path p : FilePath}
    (metadata : NewCacheMetadata) (hne : p ≠ path) :
    (replace_record files path metadata).get? p = none ∨
      (replace_record files path metadata).get? p = files.get? p := by
  rw [replace_record, get?_put_ne _ hne, get?_erase]
  by_cases htmp : p = with_extension path "meta.tmp".toList
  · exact Or.inl (if_pos htmp)
  · exact Or.inr (if_neg htmp)

theorem files_invalidate_head_of_no_record
    (h : ∀ metadata, s.files.get? (get_new_metadata_file_path crates cache_dir key) ≠
      some (.record metadata)) :
    (invalidate_head_cache_entry_unified crates cache_dir s key).files = s.files := by
  rw [invalidate_head_cache_entry_unified]
  split
  · rename_i metadata hget
    exact absurd hget (h metadata)
  · rfl

theorem isSome_invalidate_head
    (h : (s.files.get? (get_new_metadata_file_path crates cache_dir key)).isSome) :
    ((invalidate_head_cache_entry_unified crates cache_dir s key).files.get?
      (get_new_metadata_file_path crates cache_dir key)).isSome := by
  rw [invalidate_head_cache_entry_unified]
  split
  · rw [replace_record, get?_put_self]
    rfl
  · exact h

theorem get?_invalidate_head_ne {p : FilePath}
    (hne : p ≠ get_new_metadata_file_path crates cache_dir key) :
    (invalidate_head_cache_entry_unified crates cache_dir s key).files.get? p = none ∨
      (invalidate_head_cache_entry_unified crates cache_dir s key).files.get? p =
        s.files.get? p := by
  rw [invalidate_head_cache_entry_unified]
  split
  · exact get?_replace_record_ne _ _ hne
  · exact Or.inr rfl

theorem delete_specific_range_of_not_hits {range : GranularRange}
    (h : ¬ Hits crates cache_dir s range) :
    (delete_specific_range crates cache_dir malformed s.files range.original_cache_key
      range.idx).2 = s.files := by
  rw [delete_specific_range]
  split
  · rfl
  · rfl
  · rename_i metadata hget
    have hidx : ¬ range.idx < metadata.ranges.length := fun hlt => h ⟨metadata, hget, hlt⟩
    rw [List.getElem?_eq_none (not_lt.mp hidx)]

theorem get?_delete_specific_range_ne {range : GranularRange}
    (h : Hits crates cache_dir s range) :
    (delete_specific_range crates cache_dir malformed s.files range.original_cache_key
      range.idx).2.get? (get_new_metadata_file_path crates cache_dir range.original_cache_key) ≠
      s.files.get? (get_new_metadata_file_path crates cache_dir range.original_cache_key) := by
  obtain ⟨metadata, hget, hidx⟩ := h
  rw [delete_specific_range, hget]
  dsimp only
  rw [List.getElem?_eq_getElem hidx]
  dsimp only
  split_ifs
  · rw [get?_erase, get?_erase_self, ite_self]
    exact (some_ne_none _).symm
  · rw [replace_record, get?_put_self]
    intro heq
    have hranges := congrArg NewCacheMetadata.ranges (Content.record.inj (Option.some.inj heq))
    have hlength := congrArg List.length hranges
    rw [length_eraseIdx_of_lt hidx] at hlength
    omega

end Files

/-! ## The whole invalidation -/

section Invalidation

variable {platform : Platform} {crates : Crates} {cache_dir : FilePath}
  {malformed : List UInt8 → String} {own : Ownership} {s : CacheState} {key : List Char}

theorem ram_cache_invalidate_head :
    (invalidate_head_cache_entry_unified crates cache_dir s key).ram_cache = s.ram_cache := by
  rw [invalidate_head_cache_entry_unified]
  split <;> rfl

theorem metadata_cache_invalidate_head :
    (invalidate_head_cache_entry_unified crates cache_dir s key).metadata_cache =
      s.metadata_cache.invalidate key := by
  rw [invalidate_head_cache_entry_unified]
  split <;> rfl

def FilesExact (own : Ownership) (s t : CacheState) (key : List Char) : Prop :=
  t.NoFiles own key ∧ ∀ path other kind, own.file path = some (other, kind) → other ≠ key →
    t.files.get? path = s.files.get? path

variable {metadata : NewCacheMetadata} {t : CacheState}

theorem filesExact_of_files_eq (h : t.files = s.files) :
    FilesExact own s t key ↔ s.NoFiles own key := by
  rw [FilesExact, CacheState.NoFiles, CacheState.NoFiles, h]
  exact and_iff_left fun path other kind _ _ => rfl

/-- Deleting what a record lists is exact exactly if the record lists what is the key's. -/
theorem filesExact_record_iff
    (h : t.files = (record_paths crates cache_dir key metadata).foldl erase s.files) :
    FilesExact own s t key ↔ RecordOwns crates cache_dir own s key metadata := by
  rw [FilesExact, CacheState.NoFiles, h]
  simp only [get?_foldl_erase]
  constructor
  · rintro ⟨hgone, hkept⟩
    refine ⟨fun path kind hsome howner hkind => ?_, fun path hpath hsome other kind howner => ?_⟩
    · by_contra hpath
      have hnone := hgone path kind howner hkind
      rw [if_neg hpath] at hnone
      rw [hnone] at hsome
      cases hsome
    · by_contra hother
      have hsame := hkept path other kind howner hother
      rw [if_pos hpath] at hsame
      rw [← hsame] at hsome
      cases hsome
  · rintro ⟨hlisted, hunshared⟩
    refine ⟨fun path kind howner hkind => ?_, fun path other kind howner hother => ?_⟩
    · by_cases hpath : path ∈ record_paths crates cache_dir key metadata
      · exact if_pos hpath
      · rw [if_neg hpath, ← not_isSome_iff_eq_none]
        exact fun hsome => hpath (hlisted path kind hsome howner hkind)
    · by_cases hpath : path ∈ record_paths crates cache_dir key metadata
      · rw [if_pos hpath, eq_comm, ← not_isSome_iff_eq_none]
        exact fun hsome => hother (hunshared path hpath hsome other kind howner)
      · exact if_neg hpath

theorem not_filesExact_of_metadata (howned : Owned platform crates cache_dir own s)
    (hkey : CacheKey key)
    (hbefore : (s.files.get? (get_new_metadata_file_path crates cache_dir key)).isSome)
    (hafter : (t.files.get? (get_new_metadata_file_path crates cache_dir key)).isSome) :
    ¬ FilesExact own s t key := by
  rintro ⟨hgone, -⟩
  rw [hgone _ .Metadata (howned.metadata_owner key hkey hbefore) (by decide)] at hafter
  cases hafter

variable (ht : (invalidate_cache_hierarchy platform crates cache_dir malformed s key).2 = t)

include ht

theorem memory_invalidate :
    t.ram_cache = remove_from_ram_cache_unified platform s.ram_cache key ∧
      t.metadata_cache = (s.metadata_cache.invalidate key).invalidate key := by
  rw [← ht, invalidate_cache_hierarchy]
  split
  · exact ⟨ram_cache_invalidate_head, metadata_cache_invalidate_head⟩
  · split
    all_goals
      exact ⟨ram_cache_invalidate_head, metadata_cache_invalidate_head⟩

/-- In memory an invalidation removes what it reaches and nothing else. -/
theorem stored_invalidate_hierarchy (name : List Char) :
    t.stored platform name = if Reached key name then none else s.stored platform name := by
  rw [CacheState.stored, (memory_invalidate ht).1]
  exact stored_remove_from_ram_cache_unified s.ram_cache key name

theorem metadata_invalidate_hierarchy (other : List Char) :
    t.metadata_cache.entries.get? other =
      if other = key then none else s.metadata_cache.entries.get? other := by
  rw [(memory_invalidate ht).2, MetadataTier.get?_invalidate, MetadataTier.get?_invalidate]
  split_ifs
  · rfl
  · rfl

theorem invalidate_of_command {range : GranularRange} (h : granular_range key = some range) :
    t = invalidate_head_cache_entry_unified crates cache_dir
      { s with
        files := (delete_specific_range crates cache_dir malformed s.files
          range.original_cache_key range.idx).2
        metadata_cache := s.metadata_cache.invalidate key
        ram_cache := remove_from_ram_cache_unified platform s.ram_cache key } key := by
  rw [← ht, invalidate_cache_hierarchy]
  rw [h]

theorem files_of_record (h : granular_range key = none)
    (hget : s.files.get? (get_new_metadata_file_path crates cache_dir key) =
      some (.record metadata)) :
    t.files = (record_paths crates cache_dir key metadata).foldl erase s.files := by
  rw [← ht, invalidate_cache_hierarchy]
  rw [h]
  rw [hget]
  refine files_invalidate_head_of_no_record ?_
  intro left hleft
  have hmem : get_new_metadata_file_path crates cache_dir key ∈
      record_paths crates cache_dir key metadata :=
    mem_append_right _ mem_cons_self
  rw [get?_foldl_erase, if_pos hmem] at hleft
  cases hleft

theorem files_of_no_record (h : granular_range key = none)
    (hget : ∀ metadata, s.files.get? (get_new_metadata_file_path crates cache_dir key) ≠
      some (.record metadata)) : t.files = s.files := by
  rw [← ht, invalidate_cache_hierarchy]
  rw [h]
  dsimp only
  split
  · rename_i metadata hrecord
    exact absurd hrecord (hget metadata)
  · exact files_invalidate_head_of_no_record hget

variable (howned : Owned platform crates cache_dir own s)

include howned

/-- In memory it is exact if it reaches no stored entry of another key: its own are all reached. -/
theorem entries_exact_iff :
    ((∀ name, own.entry name = key → t.stored platform name = none) ∧
      ∀ name, own.entry name ≠ key → t.stored platform name = s.stored platform name) ↔
      ∀ name, (s.stored platform name).isSome → own.entry name ≠ key → ¬ Reached key name := by
  simp only [stored_invalidate_hierarchy ht]
  constructor
  · rintro ⟨-, hkept⟩ name hsome hother hreached
    have hsame := hkept name hother
    rw [if_pos hreached] at hsame
    rw [← hsame] at hsome
    cases hsome
  · intro hapart
    refine ⟨fun name howner => ?_, fun name hother => ?_⟩
    · by_cases hreached : Reached key name
      · exact if_pos hreached
      · rw [if_neg hreached, ← not_isSome_iff_eq_none]
        intro hsome
        exact hreached (reached_of_ramKeyOf (howner ▸ howned.ram_key name hsome))
    · by_cases hreached : Reached key name
      · rw [if_pos hreached, eq_comm, ← not_isSome_iff_eq_none]
        exact fun hsome => hapart name hsome hother hreached
      · exact if_neg hreached

variable (hkey : CacheKey key)

include hkey

/-- A key that is taken for a command: it must name no range, and have no files of its own. -/
theorem filesExact_command_iff {range : GranularRange} (h : granular_range key = some range) :
    FilesExact own s t key ↔ ¬ Hits crates cache_dir s range ∧ s.NoFiles own key := by
  have hresult := invalidate_of_command ht h
  by_cases hhits : Hits crates cache_dir s range
  · -- the other object's record is changed, so the files are not exact
    refine iff_of_false ?_ fun hright => hright.1 hhits
    rintro ⟨-, hkept⟩
    obtain ⟨metadata, hget, hidx⟩ := hhits
    have hsome : (s.files.get? (get_new_metadata_file_path crates cache_dir
        range.original_cache_key)).isSome := by
      rw [hget]
      rfl
    have howner := howned.metadata_owner _ (cacheKey_original h hkey) hsome
    have hne : get_new_metadata_file_path crates cache_dir range.original_cache_key ≠
        get_new_metadata_file_path crates cache_dir key := by
      intro heq
      rw [heq] at hsome howner
      have hself := howned.metadata_owner key hkey hsome
      rw [hself] at howner
      exact original_ne h (Prod.mk.inj (Option.some.inj howner)).1.symm
    have hsame := hkept _ _ _ howner (original_ne h)
    rw [hresult] at hsame
    rcases get?_invalidate_head_ne hne with hnone | hleft
    · rw [hnone, hget] at hsame
      cases hsame
    · rw [hleft] at hsame
      exact get?_delete_specific_range_ne ⟨metadata, hget, hidx⟩ hsame
  · rw [delete_specific_range_of_not_hits hhits] at hresult
    rw [and_iff_right hhits]
    by_cases hsome : (s.files.get? (get_new_metadata_file_path crates cache_dir key)).isSome
    · -- the key's own record stays
      refine iff_of_false ?_ ?_
      · refine not_filesExact_of_metadata howned hkey hsome ?_
        rw [hresult]
        exact isSome_invalidate_head hsome
      · intro hnone
        rw [hnone _ .Metadata (howned.metadata_owner key hkey hsome) (by decide)] at hsome
        cases hsome
    · refine filesExact_of_files_eq ?_
      rw [hresult]
      refine files_invalidate_head_of_no_record ?_
      intro metadata hmetadata
      refine hsome ?_
      rw [hmetadata]
      rfl

/-- Any other key: what its `.meta` says decides. -/
theorem filesExact_object_iff (h : granular_range key = none) :
    FilesExact own s t key ↔
      match s.files.get? (get_new_metadata_file_path crates cache_dir key) with
      | none => s.NoFiles own key
      | some (.bytes _) => False
      | some (.record metadata) => RecordOwns crates cache_dir own s key metadata := by
  cases hget : s.files.get? (get_new_metadata_file_path crates cache_dir key) with
  | none =>
    refine filesExact_of_files_eq (files_of_no_record ht h ?_)
    rw [hget]
    exact fun metadata => (some_ne_none _).symm
  | some content =>
    cases content with
    | record metadata => exact filesExact_record_iff (files_of_record ht h hget)
    | bytes data =>
      have hfiles := files_of_no_record ht h (by
        rw [hget]
        exact fun metadata heq => Content.noConfusion (Option.some.inj heq))
      have hsome : (s.files.get? (get_new_metadata_file_path crates cache_dir key)).isSome := by
        rw [hget]
        rfl
      refine iff_of_false (not_filesExact_of_metadata howned hkey hsome ?_) id
      rw [hfiles]
      exact hsome

end Invalidation

/-- **Invalidation removes what is the key's and nothing else, exactly if the key and the state keep
keys apart.** -/
theorem invalidation_exact_iff_separated (platform : Platform) (crates : Crates)
    (cache_dir : FilePath) (malformed : List UInt8 → String) (own : Ownership) (s : CacheState)
    (key : List Char) (hkey : CacheKey key) (howned : Owned platform crates cache_dir own s) :
    Exact platform own s (invalidate_cache_hierarchy platform crates cache_dir malformed s key).2
        key ↔
      Separated platform crates cache_dir own s key := by
  generalize ht : (invalidate_cache_hierarchy platform crates cache_dir malformed s key).2 = t
  have hentries := entries_exact_iff ht howned
  constructor
  · intro hexact
    have hfiles := And.intro hexact.own_files hexact.other_files
    refine ⟨hentries.mp ⟨hexact.own_entries, hexact.other_entries⟩, ?_, ?_⟩
    · intro range hrange
      exact (filesExact_command_iff ht howned hkey hrange).mp hfiles
    · intro hnone
      exact (filesExact_object_iff ht howned hkey hnone).mp hfiles
  · intro hseparated
    have hfiles : FilesExact own s t key := by
      cases hrange : granular_range key with
      | some range =>
        exact (filesExact_command_iff ht howned hkey hrange).mpr (hseparated.command range hrange)
      | none => exact (filesExact_object_iff ht howned hkey hrange).mpr (hseparated.object hrange)
    obtain ⟨hown, hother⟩ := hentries.mpr hseparated.entries
    refine ⟨hfiles.1, hown, ?_, hfiles.2, hother, ?_⟩
    · rw [metadata_invalidate_hierarchy ht, if_pos rfl]
    · intro other hne
      rw [metadata_invalidate_hierarchy ht, if_neg hne]

/-! ## An object with one range -/

section Sampled

open DiskCache (sampled_crates)
open RamCache (small_platform small_entry no_ties)

def sampled_key : List Char :=
  "bucket/a".toList

def sampled_metadata_path : FilePath :=
  get_new_metadata_file_path sampled_crates "/cache".toList sampled_key

def sampled_range : RangeSpec :=
  RangeSpec.new_staged 0 0 9 "bucket/a_0-9.bin".toList 10 10 false

def sampled_range_path : FilePath :=
  range_path "/cache".toList sampled_range

def sampled_state (ram_cache : ShardedRamCache) : CacheState where
  files := (empty.put sampled_range_path (.bytes [1])).put sampled_metadata_path
    (.record { (default : NewCacheMetadata) with ranges := [sampled_range] })
  ram_cache := some ram_cache
  metadata_cache := ⟨empty, []⟩

def sampled_owners : Ownership where
  file path :=
    if path = sampled_metadata_path then some (sampled_key, .Metadata)
    else if path = sampled_range_path then some (sampled_key, .Range)
    else none
  entry name :=
    if name = generate_ram_range_key sampled_key 0 9 "e".toList then sampled_key else name

variable {path : FilePath} {ram_cache : ShardedRamCache} {name : List Char}

theorem file_sampled_owners :
    sampled_owners.file path =
    if path = sampled_metadata_path then some (sampled_key, .Metadata)
    else if path = sampled_range_path then some (sampled_key, .Range)
    else none := rfl

theorem owner_sampled_metadata_path :
    sampled_owners.file sampled_metadata_path = some (sampled_key, .Metadata) := by
  rw [file_sampled_owners, if_pos rfl]

theorem sampled_owner {other : List Char} {kind : FileKind}
    (h : sampled_owners.file path = some (other, kind)) :
    other = sampled_key ∧ (path = sampled_metadata_path ∨ path = sampled_range_path) := by
  rw [file_sampled_owners] at h
  split_ifs at h with hmeta hrange
  · exact ⟨(Prod.mk.inj (Option.some.inj h)).1.symm, Or.inl hmeta⟩
  · exact ⟨(Prod.mk.inj (Option.some.inj h)).1.symm, Or.inr hrange⟩

def sampled_ram (first second : List Char) : ShardedRamCache :=
  ((ShardedRamCache.new 100 1 .LRU).put small_platform
    { small_entry [1] with cache_key := first } no_ties).put small_platform
    { small_entry [2] with cache_key := second } no_ties

theorem metadata_path_ne_sampled_range_path :
    get_new_metadata_file_path sampled_crates "/cache".toList key ≠ sampled_range_path := by
  intro heq
  have hbase := congrArg base_name heq
  have hname : '/' ∉ DiskCache.key_stem sampled_crates key ++ ".meta".toList := by
    intro hmem
    rcases mem_append.mp hmem with hstem | hmeta
    · exact DiskCache.fileName_key_stem.no_separator hstem
    · exact absurd hmeta (by decide)
  rw [DiskCache.get_new_metadata_file_path_eq, base_name_under hname] at hbase
  have hlast := congrArg List.getLast? hbase
  rw [List.getLast?_append_of_ne_nil _ (by decide)] at hlast
  exact absurd hlast (by decide +kernel)

theorem owned_sampled (ram_cache : ShardedRamCache) :
    Owned small_platform sampled_crates "/cache".toList sampled_owners
      (sampled_state ram_cache) := by
  refine ⟨fun key hkey hsome => ?_, fun name _ => ?_⟩
  · have hpath : get_new_metadata_file_path sampled_crates "/cache".toList key =
        sampled_metadata_path := by
      by_contra hne
      rw [sampled_state, get?_put_ne _ hne,
        get?_put_ne _ metadata_path_ne_sampled_range_path] at hsome
      cases hsome
    have hparse : DiskCache.parse_cache_key sampled_key = .ok ("bucket".toList, "a".toList) := by
      decide +kernel
    have hself : key = sampled_key :=
      DiskCache.cache_key_of_metadata_file_path_eq hparse (by decide +kernel) (by decide) hkey hpath
    rw [hpath, owner_sampled_metadata_path, hself]
  · by_cases hname : name = generate_ram_range_key sampled_key 0 9 "e".toList
    · have hentry : sampled_owners.entry name = sampled_key := if_pos hname
      rw [hentry]
      exact Or.inr ⟨0, 9, "e".toList, hname⟩
    · have hentry : sampled_owners.entry name = name := if_neg hname
      rw [hentry]
      exact Or.inl rfl

theorem stored_sampled_state :
    (sampled_state ram_cache).stored small_platform name = ram_cache.stored small_platform name :=
  rfl

theorem stored_sampled_ram {first second : List Char}
    (hkeys : ((sampled_ram first second).shards
      ⟨0, (sampled_ram first second).nonempty⟩).data.keys = [second, first])
    (h : ((sampled_state (sampled_ram first second)).stored small_platform name).isSome) :
    name = second ∨ name = first := by
  have hidx : (sampled_ram first second).shard_index small_platform name =
      ⟨0, (sampled_ram first second).nonempty⟩ := Fin.ext (Nat.zero_mod _)
  rw [stored_sampled_state, ShardedRamCache.stored, hidx, ← mem_keys_iff, hkeys] at h
  simpa using h

def invalidated (s : CacheState) (key : List Char) : CacheState :=
  (invalidate_cache_hierarchy small_platform sampled_crates "/cache".toList (fun _ => "") s key).2

/-- The object is invalidated, and another object stays in memory. -/
theorem exact_of_apart :
    Exact small_platform sampled_owners
      (sampled_state (sampled_ram (generate_ram_range_key sampled_key 0 9 "e".toList)
        "bucket/b".toList))
      (invalidated (sampled_state (sampled_ram (generate_ram_range_key sampled_key 0 9 "e".toList)
        "bucket/b".toList)) sampled_key) sampled_key := by
  refine (invalidation_exact_iff_separated small_platform sampled_crates "/cache".toList
    (fun _ => "") sampled_owners _ sampled_key (by decide) (owned_sampled _)).mpr ⟨?_, ?_, ?_⟩
  · intro name hsome hother
    rcases stored_sampled_ram (by decide +kernel) hsome with rfl | rfl
    · decide +kernel
    · exact absurd (by decide +kernel) hother
  · intro range hrange
    cases hrange
  · intro _
    rw [← sampled_metadata_path, sampled_state, get?_put_self]
    refine ⟨fun path kind _ howner hkind => ?_, fun path _ _ other kind howner => ?_⟩
    · rcases (sampled_owner howner).2 with hmeta | hrange
      · rw [hmeta, sampled_metadata_path, record_paths]
        exact mem_append_right _ mem_cons_self
      · rw [hrange, record_paths]
        exact mem_append_left _ mem_cons_self
    · exact (sampled_owner howner).1

/-- The invalidation of one key deletes the record of another, whose range it seems to name; and
that of a key takes the entry of another from memory that begins with the key and `:range:`. -/
theorem other_keys_invalidated :
    (∃ s key, CacheKey key ∧ key = "bucket/a:range:0:0-9:range:z".toList ∧
      Owned small_platform sampled_crates "/cache".toList sampled_owners s ∧
      (s.files.get? sampled_metadata_path).isSome ∧
      (invalidated s key).files.get? sampled_metadata_path = none ∧
      ¬ Exact small_platform sampled_owners s (invalidated s key) key) ∧
    ∃ s key name, CacheKey key ∧ key = sampled_key ∧ name = "bucket/a:range:b".toList ∧
      Owned small_platform sampled_crates "/cache".toList sampled_owners s ∧
      sampled_owners.entry name = name ∧ (s.stored small_platform name).isSome ∧
      (invalidated s key).stored small_platform name = none ∧
      ¬ Exact small_platform sampled_owners s (invalidated s key) key := by
  constructor
  · refine ⟨sampled_state (sampled_ram [] []), _, by decide, rfl, owned_sampled _,
      by decide +kernel, by decide +kernel, fun hexact => ?_⟩
    have hsame := hexact.other_files sampled_metadata_path sampled_key .Metadata
      owner_sampled_metadata_path (by decide)
    revert hsame
    decide +kernel
  · refine ⟨sampled_state (sampled_ram sampled_key "bucket/a:range:b".toList), _, _, by decide, rfl,
      rfl, owned_sampled _, by decide +kernel, by decide +kernel, by decide +kernel,
      fun hexact => ?_⟩
    have hsame := hexact.other_entries "bucket/a:range:b".toList (by decide +kernel)
    revert hsame
    decide +kernel

end Sampled

end HybridCache.Hierarchy
