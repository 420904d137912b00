/-
What is deleted with an object (`evict_write_cached_object` in `write_cache_manager.rs`;
`remove_range_files`, `check_and_invalidate_expired_write_cache`, `invalidate_write_cache_entry`
and `invalidate_cache_hierarchy` in `cache.rs`; `retire_object_version` in `disk_cache.rs`).

Each takes the path of every range from the `.meta`, joins it to the directory of the range files
and removes the file. Only `retire_object_version` asks `is_safe_relative_file_path` first. The
others stay inside exactly if no path that the check would refuse leads to a file outside
(`NoEscape`).
-/
import HybridCache.DiskCache.Paths
import HybridCache.Lib.FileTree

namespace HybridCache.Removal

open Lib List
open CacheTypes (FilePath RangeSpec NewCacheMetadata)
open DiskCache (Crates ranges_dir metadata_dir get_sharded_path
  get_new_metadata_file_path is_safe_relative_file_path)

def range_path (cache_dir : FilePath) (range : RangeSpec) : FilePath :=
  join_path (ranges_dir cache_dir) range.file_path

def in_progress (path : FilePath) : Bool :=
  "mpus_in_progress/".toList <:+: path

structure RemovedRange where
  range_spec : RangeSpec
  bin_path : FilePath
  counts_as_staged : Bool

/-- `remove_range_files`, for one range: what was removed, how many removals failed, the disk. -/
def remove_range_file (cache_dir : FilePath) (is_write_cached : Bool)
    (state : (List RemovedRange × ℕ) × FileTree) (range : RangeSpec) :
    (List RemovedRange × ℕ) × FileTree :=
  let ((removed, failed), disk) := state
  let path := range_path cache_dir range
  if ¬ disk.path_exists path then state
  else
    match disk.remove_file path with
    | .ok disk' =>
      ((removed ++ [{ range_spec := range, bin_path := path, counts_as_staged :=
          Metadata.is_staged_range_spec in_progress range.toRangeSpec is_write_cached }], failed),
        disk')
    | .error _ => ((removed, failed + 1), disk)

def remove_range_files (disk : FileTree) (cache_dir : FilePath) (ranges : List RangeSpec)
    (is_write_cached : Bool) : (List RemovedRange × ℕ) × FileTree :=
  ranges.foldl (remove_range_file cache_dir is_write_cached) (([], 0), disk)

section Functions

variable (crates : Crates) (disk : FileTree) (cache_dir cache_key : FilePath)
  (contents : Except String NewCacheMetadata)

def get_metadata_path : Except String FilePath :=
  (get_sharded_path crates (metadata_dir cache_dir) cache_key ".meta".toList).mapError fun e =>
    let key := String.ofList cache_key
    s!"Malformed cache key '{key}': {e}. Cache keys must be in 'bucket/object' format."

/-- `evict_write_cached_object`: the bytes that were freed. -/
def evict_write_cached_object : Except String ℕ × FileTree :=
  match get_metadata_path crates cache_dir cache_key with
  | .error e => (.error e, disk)
  | .ok metadata_path =>
    if ¬ disk.path_exists metadata_path then
      let key := String.ofList cache_key
      (.error s!"Metadata file not found for eviction: {key}", disk)
    else
      match contents with
      | .error e => (.error e, disk)
      | .ok metadata =>
        let ((removed, _), disk') := remove_range_files disk cache_dir metadata.ranges
          metadata.object_metadata.is_write_cached
        (.ok (removed.map fun r => r.range_spec.compressed_size).sum, disk'.attempt metadata_path)

def is_write_cache_expired (now : ℕ) (metadata : NewCacheMetadata) : Bool :=
  metadata.object_metadata.is_write_cached &&
    metadata.object_metadata.write_cache_expires_at.any fun expires_at => now > expires_at

def check_and_invalidate_expired_write_cache (now : ℕ) : Bool × FileTree :=
  let metadata_path := get_new_metadata_file_path crates cache_dir cache_key
  if ¬ disk.path_exists metadata_path then (false, disk)
  else
    match contents with
    | .error _ => (false, disk)
    | .ok metadata =>
      if ¬ is_write_cache_expired now metadata then (false, disk)
      else
        (true, (remove_range_files disk cache_dir metadata.ranges
          metadata.object_metadata.is_write_cached).2.attempt metadata_path)

def lock_file_path (metadata_path : FilePath) : FilePath :=
  with_extension metadata_path "meta.lock".toList

/-- What both invalidations do on the disk: the range files, the `.meta` and its lock file go, if
the `.meta` is there and can be read. -/
def delete_record : FileTree :=
  let metadata_path := get_new_metadata_file_path crates cache_dir cache_key
  if disk.path_exists metadata_path then
    match contents with
    | .error _ => disk
    | .ok metadata =>
      ((remove_range_files disk cache_dir metadata.ranges
        metadata.object_metadata.is_write_cached).2.attempt metadata_path).attempt
          (lock_file_path metadata_path)
  else disk

/-- `invalidate_write_cache_entry`; `ram` is what removing the entry from memory answers. -/
def invalidate_write_cache_entry (ram : Except String Unit) : Except String Unit × FileTree :=
  match ram with
  | .error e => (.error e, disk)
  | .ok () => (.ok (), delete_record crates disk cache_dir cache_key contents)

/-- `invalidate_cache_hierarchy`, of a key that names an object. Where the `.meta` stays, its HEAD
fields are rewritten, which removes nothing. -/
def invalidate_cache_hierarchy (ram : Except String Unit) : Except String Unit × FileTree :=
  match ram with
  | .error e => (.error e, disk)
  | .ok () => (.ok (), delete_record crates disk cache_dir cache_key contents)

/-- The loop of `retire_object_version`: what was removed, the failure that ended it, the disk. -/
def retire_ranges (disk : FileTree) :
    List RangeSpec → (List (RangeSpec × FilePath) × Option (FilePath × IoError)) × FileTree
  | [] => (([], none), disk)
  | range :: ranges =>
    if ¬ is_safe_relative_file_path range.file_path then retire_ranges disk ranges
    else
      let path := range_path cache_dir range
      match disk.remove_file path with
      | .ok disk' =>
        let ((removed, failure), last) := retire_ranges disk' ranges
        (((range, path) :: removed, failure), last)
      | .error .NotFound => retire_ranges disk ranges
      | .error .Other => (([], some (path, .Other)), disk)

def retire_object_version (cached : NewCacheMetadata) :
    Except (FilePath × IoError) Unit × FileTree :=
  let ((_, failure), last) := retire_ranges cache_dir disk cached.ranges
  (failure.elim (.ok ()) .error, last)

end Functions

/-! ## Which files go -/

open FileTree

section Trees

variable {disk : FileTree} {cache_dir : FilePath} {is_write_cached : Bool}

theorem remove_range_files_disk (ranges : List RangeSpec) :
    (remove_range_files disk cache_dir ranges is_write_cached).2 =
      (ranges.map (range_path cache_dir)).foldl attempt disk := by
  have hstep : ∀ state range, (remove_range_file cache_dir is_write_cached state range).2 =
      state.2.attempt (range_path cache_dir range) := by
    intro state range
    unfold remove_range_file
    by_cases hexists : state.2.path_exists (range_path cache_dir range) = true
    · simp only [hexists, not_true, if_false, attempt]
      cases state.2.remove_file (range_path cache_dir range) <;> rfl
    · simp only [hexists]
      exact (attempt_of_not_exists (Bool.not_eq_true _ ▸ hexists)).symm
  have hfold : ∀ state, (ranges.foldl (remove_range_file cache_dir is_write_cached) state).2 =
      (ranges.map (range_path cache_dir)).foldl attempt state.2 := by
    induction ranges with
    | nil => intro state; rfl
    | cons range ranges ih =>
      intro state
      rw [foldl_cons, ih, hstep, map_cons, foldl_cons]
  exact hfold _

theorem retire_ranges_disk (disk : FileTree) (cache_dir : FilePath) (ranges : List RangeSpec) :
    ∃ retired : List RangeSpec, (∀ range ∈ retired,
        range ∈ ranges ∧ is_safe_relative_file_path range.file_path = true) ∧
      (retire_ranges cache_dir disk ranges).2 =
        (retired.map (range_path cache_dir)).foldl attempt disk := by
  induction ranges generalizing disk with
  | nil => exact ⟨[], by simp, rfl⟩
  | cons range ranges ih =>
    unfold retire_ranges
    by_cases hsafe : is_safe_relative_file_path range.file_path = true
    · rw [if_neg (by simp [hsafe])]
      cases hremove : disk.remove_file (range_path cache_dir range) with
      | ok disk' =>
        simp only [hremove]
        obtain ⟨retired, hretired, hdisk⟩ := ih disk'
        refine ⟨range :: retired, ?_, ?_⟩
        · intro r hr
          rcases mem_cons.mp hr with rfl | hr
          · exact ⟨mem_cons_self, hsafe⟩
          · exact ⟨mem_cons_of_mem range (hretired r hr).1, (hretired r hr).2⟩
        · have hattempt : disk.attempt (range_path cache_dir range) = disk' := by
            rw [attempt, hremove]
          rw [map_cons, foldl_cons, hattempt]
          exact hdisk
      | error e =>
        cases e with
        | NotFound =>
          simp only [hremove]
          obtain ⟨retired, hretired, hdisk⟩ := ih disk
          exact ⟨retired, fun r hr => ⟨mem_cons_of_mem range (hretired r hr).1,
            (hretired r hr).2⟩, hdisk⟩
        | Other =>
          simp only [hremove]
          exact ⟨[], by simp, rfl⟩
    · rw [if_pos hsafe]
      obtain ⟨retired, hretired, hdisk⟩ := ih disk
      exact ⟨retired, fun r hr => ⟨mem_cons_of_mem range (hretired r hr).1,
        (hretired r hr).2⟩, hdisk⟩

end Trees

/-! ## Where they are -/

/-- Only files inside the directory of the range files are gone, and an object's own files. -/
def Confined (disk disk' : FileTree) (cache_dir : FilePath) (own : List FilePath) : Prop :=
  ∀ location, disk.Gone disk' location →
    disk.Inside (ranges_dir cache_dir) location ∨ ∃ path ∈ own, disk.file_at path = some location

section Confinement

variable (crates : Crates) (disk : FileTree) (cache_dir cache_key : FilePath)
  (contents : Except String NewCacheMetadata)

/-- What is wanted of every function: the ranges' files and the object's `.meta`, with its lock
file where that is removed too. -/
structure RemovalConfined : Prop where
  evict : Confined disk (evict_write_cached_object crates disk cache_dir cache_key contents).2
    cache_dir [get_new_metadata_file_path crates cache_dir cache_key]
  expire : ∀ now, Confined disk
    (check_and_invalidate_expired_write_cache crates disk cache_dir cache_key contents now).2
    cache_dir [get_new_metadata_file_path crates cache_dir cache_key]
  invalidate_entry : ∀ ram, Confined disk
    (invalidate_write_cache_entry crates disk cache_dir cache_key contents ram).2 cache_dir
    [get_new_metadata_file_path crates cache_dir cache_key,
      lock_file_path (get_new_metadata_file_path crates cache_dir cache_key)]
  invalidate : ∀ ram, Confined disk
    (invalidate_cache_hierarchy crates disk cache_dir cache_key contents ram).2 cache_dir
    [get_new_metadata_file_path crates cache_dir cache_key,
      lock_file_path (get_new_metadata_file_path crates cache_dir cache_key)]
  remove : ∀ metadata, contents = .ok metadata → Confined disk
    (remove_range_files disk cache_dir metadata.ranges
      metadata.object_metadata.is_write_cached).2 cache_dir
    [get_new_metadata_file_path crates cache_dir cache_key]
  retire : ∀ metadata, contents = .ok metadata → Confined disk
    (retire_object_version disk cache_dir metadata).2 cache_dir
    [get_new_metadata_file_path crates cache_dir cache_key]

/-- No range of the `.meta` with a path that `is_safe_relative_file_path` refuses leads to a file
outside that can be removed, the object's `.meta` apart. -/
def NoEscape : Prop :=
  ∀ metadata, contents = .ok metadata → ∀ range ∈ metadata.ranges,
    is_safe_relative_file_path range.file_path = false →
    ∀ location, disk.file_at (range_path cache_dir range) = some location →
      disk.removable location = true →
      disk.Inside (ranges_dir cache_dir) location ∨
        disk.file_at (get_new_metadata_file_path crates cache_dir cache_key) = some location

end Confinement

section Results

variable {crates : Crates} {disk : FileTree} {cache_dir cache_key : FilePath}
  {contents : Except String NewCacheMetadata} {own : List FilePath} {metadata : NewCacheMetadata}

theorem confined_refl : Confined disk disk cache_dir own := by
  rintro location ⟨hfile, hgone⟩
  rw [hfile] at hgone
  cases hgone

theorem inside_of_safe {range : RangeSpec} {location : Location}
    (hsafe : is_safe_relative_file_path range.file_path = true)
    (h : disk.file_at (range_path cache_dir range) = some location) :
    disk.Inside (ranges_dir cache_dir) location := by
  rw [is_safe_relative_file_path, decide_eq_true_eq] at hsafe
  obtain ⟨-, habsolute, -, -, -, hdots⟩ := hsafe
  exact inside_of_join DiskCache.joinable_ranges_dir habsolute hdots h

section

variable (hmeta : get_new_metadata_file_path crates cache_dir cache_key ∈ own)

include hmeta

/-- Files of safe ranges are inside, and files of the others are where `NoEscape` puts them. -/
theorem confined_foldl_attempt (hescape : NoEscape crates disk cache_dir cache_key (.ok metadata))
    {paths : List FilePath} (hpaths : ∀ path ∈ paths, path ∈ own ∨ ∃ range ∈ metadata.ranges,
      path = range_path cache_dir range) :
    Confined disk (paths.foldl attempt disk) cache_dir own := by
  intro location hgone
  obtain ⟨hremovable, path, hpath, hat⟩ := gone_foldl_attempt_iff.mp hgone
  rcases hpaths path hpath with hown | ⟨range, hrange, rfl⟩
  · exact Or.inr ⟨path, hown, hat⟩
  · by_cases hsafe : is_safe_relative_file_path range.file_path = true
    · exact Or.inl (inside_of_safe hsafe hat)
    · rcases hescape metadata rfl range hrange (Bool.eq_false_iff.mpr hsafe) location hat
        hremovable with hinside | hmetadata
      · exact Or.inl hinside
      · exact Or.inr ⟨_, hmeta, hmetadata⟩

/-- The ranges of a record go, and then some of the object's own files. -/
theorem confined_remove (also : List FilePath)
    (hescape : NoEscape crates disk cache_dir cache_key (.ok metadata))
    (halso : ∀ path ∈ also, path ∈ own) :
    Confined disk (also.foldl attempt (remove_range_files disk cache_dir metadata.ranges
      metadata.object_metadata.is_write_cached).2) cache_dir own := by
  rw [remove_range_files_disk, ← foldl_append]
  refine confined_foldl_attempt hmeta hescape ?_
  intro path hpath
  rcases mem_append.mp hpath with hrange | hown
  · obtain ⟨range, hmem, rfl⟩ := List.mem_map.mp hrange
    exact Or.inr ⟨range, hmem, rfl⟩
  · exact Or.inl (halso path hown)

variable (hescape : NoEscape crates disk cache_dir cache_key contents)

include hescape

theorem confined_evict :
    Confined disk (evict_write_cached_object crates disk cache_dir cache_key contents).2 cache_dir
      own := by
  unfold evict_write_cached_object
  split
  · exact confined_refl
  · rename_i metadata_path hpath
    have hsame : get_new_metadata_file_path crates cache_dir cache_key = metadata_path := by
      unfold get_metadata_path at hpath
      cases hsharded :
        get_sharded_path crates (metadata_dir cache_dir) cache_key ".meta".toList with
      | error e =>
        rw [hsharded] at hpath
        cases hpath
      | ok path =>
        rw [hsharded] at hpath
        rw [get_new_metadata_file_path, hsharded]
        exact Except.ok.inj hpath
    split
    · exact confined_refl
    · split
      · exact confined_refl
      · exact confined_remove hmeta [_] hescape (forall_mem_singleton.mpr (hsame ▸ hmeta))

theorem confined_expire (now : ℕ) :
    Confined disk
      (check_and_invalidate_expired_write_cache crates disk cache_dir cache_key contents now).2
      cache_dir own := by
  unfold check_and_invalidate_expired_write_cache
  simp only
  split
  · exact confined_refl
  · split
    · exact confined_refl
    · split
      · exact confined_refl
      · exact confined_remove hmeta [_] hescape (forall_mem_singleton.mpr hmeta)

theorem confined_delete_record
    (hlock : lock_file_path (get_new_metadata_file_path crates cache_dir cache_key) ∈ own) :
    Confined disk (delete_record crates disk cache_dir cache_key contents) cache_dir own := by
  unfold delete_record
  simp only
  split
  · split
    · exact confined_refl
    · exact confined_remove hmeta [_, _] hescape
        (forall_mem_cons.mpr ⟨hmeta, forall_mem_singleton.mpr hlock⟩)
  · exact confined_refl

end

theorem confined_retire :
    Confined disk (retire_object_version disk cache_dir metadata).2 cache_dir own := by
  obtain ⟨retired, hretired, hdisk⟩ := retire_ranges_disk disk cache_dir metadata.ranges
  have hlast : (retire_object_version disk cache_dir metadata).2 =
      (retired.map (range_path cache_dir)).foldl attempt disk := hdisk
  intro location hgone
  rw [hlast] at hgone
  obtain ⟨-, path, hpath, hat⟩ := gone_foldl_attempt_iff.mp hgone
  obtain ⟨range, hmem, rfl⟩ := List.mem_map.mp hpath
  exact Or.inl (inside_of_safe (hretired range hmem).2 hat)

end Results

/-- **Only the object's files are removed, exactly if no range escapes.** -/
theorem removal_confined_iff_no_escape (crates : Crates) (disk : FileTree)
    (cache_dir cache_key : FilePath) (contents : Except String NewCacheMetadata) :
    RemovalConfined crates disk cache_dir cache_key contents ↔
      NoEscape crates disk cache_dir cache_key contents := by
  constructor
  · intro hconfined metadata hcontents range hrange _ location hat hremovable
    have hgone : disk.Gone (remove_range_files disk cache_dir metadata.ranges
        metadata.object_metadata.is_write_cached).2 location := by
      rw [remove_range_files_disk, gone_foldl_attempt_iff]
      exact ⟨hremovable, _, List.mem_map_of_mem hrange, hat⟩
    rcases hconfined.remove metadata hcontents location hgone with hinside | ⟨path, hown, hmeta⟩
    · exact Or.inl hinside
    · rw [mem_singleton.mp hown] at hmeta
      exact Or.inr hmeta
  · intro hescape
    have hmeta := @mem_cons_self _ (get_new_metadata_file_path crates cache_dir cache_key)
    refine ⟨confined_evict hmeta hescape, confined_expire hmeta hescape, ?_, ?_, ?_, ?_⟩
    iterate 2
      intro ram
      cases ram with
      | error e => exact confined_refl
      | ok u => exact confined_delete_record hmeta hescape (mem_cons_of_mem _ mem_cons_self)
    · rintro metadata rfl
      exact confined_remove hmeta [] hescape nofun
    · intro metadata _
      exact confined_retire

/-- A small disk: a cache in `/cache` with the `.meta` of the object `e` in `bucket`, and a file
that is none of the cache's. -/
def small_disk : FileTree where
  is_dir := fun location => location ∈ ([[], ["etc"], ["cache"], ["cache", "ranges"],
    ["cache", "metadata"], ["cache", "metadata", "bucket"], ["cache", "metadata", "bucket", "27"],
    ["cache", "metadata", "bucket", "27", "bb4"]].map fun names => names.map String.toList)
  is_file := fun location => location ∈ ([["etc", "app.conf"],
    ["cache", "metadata", "bucket", "27", "bb4", "e.meta"]].map fun names =>
      names.map String.toList)
  removable := fun _ => true
  cwd := []
  not_both := by
    intro location hdir
    rw [decide_eq_true_eq] at hdir
    rw [decide_eq_false_iff_not]
    revert location
    decide +kernel

def record_with_path (file_path : FilePath) : NewCacheMetadata :=
  { (default : NewCacheMetadata) with
    ranges := [RangeSpec.new_staged 0 0 9 file_path 10 10 true] }

/-- An absolute path, and one with two dots: the eviction of the object removes `/etc/app.conf`. -/
theorem eviction_removes_foreign_file :
    small_disk.Gone (evict_write_cached_object DiskCache.sampled_crates small_disk "/cache".toList
        "bucket/e".toList (.ok (record_with_path "/etc/app.conf".toList))).2
      ["etc".toList, "app.conf".toList] ∧
    small_disk.Gone (evict_write_cached_object DiskCache.sampled_crates small_disk "/cache".toList
        "bucket/e".toList (.ok (record_with_path "../../etc/app.conf".toList))).2
      ["etc".toList, "app.conf".toList] ∧
    ¬ RemovalConfined DiskCache.sampled_crates small_disk "/cache".toList "bucket/e".toList
      (.ok (record_with_path "../../etc/app.conf".toList)) := by
  refine ⟨⟨by decide +kernel, by decide +kernel⟩, ⟨by decide +kernel, by decide +kernel⟩, ?_⟩
  intro hconfined
  rcases hconfined.evict ["etc".toList, "app.conf".toList]
    ⟨by decide +kernel, by decide +kernel⟩ with
    ⟨d, hd, hinside, -⟩ | ⟨path, hown, hat⟩
  · rw [← Except.ok.inj hd] at hinside
    exact absurd hinside (by decide +kernel)
  · rw [mem_singleton.mp hown] at hat
    exact absurd hat (by decide +kernel)

end HybridCache.Removal
