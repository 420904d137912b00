/-
Completion of a multipart upload (`finalize_multipart_upload` in `signed_put_handler.rs`).

Completion selects the recorded parts the request names, lays them end to end, moves their files to
the names of their extents, and publishes a record whose ranges, length and part map are read off
that layout.

The layout is computed on `u64`; `overflow_checks` is the build, and without the checks the
arithmetic wraps. The end of a part is `offset + size - 1`, which leaves the type for an empty part
at offset zero. Paths are resolved by `place`, so that two spellings of one file are one place.
-/
import HybridCache.CacheTypes.Record
import HybridCache.Lib.Outcome
import HybridCache.Lib.SortByKey
import HybridCache.Lib.Text

namespace HybridCache.Multipart

open Lib CacheTypes Outcome List

/-! ## Arithmetic of either build -/

section Arithmetic

variable {ε : Type} (overflow_checks : Bool)

def add (a b : UInt64) : Outcome ε UInt64 :=
  if overflow_checks = true ∧ 2 ^ 64 ≤ a.toNat + b.toNat then panic else ok (a + b)

def sub (a b : UInt64) : Outcome ε UInt64 :=
  if overflow_checks = true ∧ a < b then panic else ok (a - b)

def sum (sizes : List UInt64) : Outcome ε UInt64 :=
  sizes.foldlM (add overflow_checks) 0

end Arithmetic

/-! ## Parts and the tracker -/

structure CachedPartInfo where
  part_number : UInt32
  size : UInt64
  etag : String
  compression_algorithm : CompressionAlgorithm
deriving DecidableEq, Repr

structure MultipartUploadTracker where
  parts : List CachedPartInfo
  total_size : UInt64
deriving DecidableEq, Repr

/-- The size of the part that is replaced, if one is, is taken off the total. -/
def without_replaced (overflow_checks : Bool) (total_size : UInt64) :
    Option CachedPartInfo → Outcome String UInt64
  | some existing => sub overflow_checks total_size existing.size
  | none => ok total_size

open CachedPartInfo

/-- `add_part`: a part that is recorded again replaces the earlier one. -/
def MultipartUploadTracker.add_part (overflow_checks : Bool) (tracker : MultipartUploadTracker)
    (part_info : CachedPartInfo) : Outcome String MultipartUploadTracker := do
  let total_size ← add overflow_checks tracker.total_size part_info.size
  let total_size ← without_replaced overflow_checks total_size
    (lookup part_number tracker.parts part_info.part_number)
  ok ⟨insert_row part_number tracker.parts part_info, total_size⟩

def MultipartUploadTracker.get_sorted_parts (tracker : MultipartUploadTracker) :
    List CachedPartInfo :=
  sort_by_key (fun part => part.part_number.toNat) tracker.parts

/-- The directory of an upload: the records of its parts, `none` for one that cannot be read, with
one record for a part number; and the part files. -/
structure Upload (β : Type) where
  records : List (Option CachedPartInfo)
  nodup : ((records.filterMap id).map part_number).Nodup
  part_files : UInt32 → Option β

def Upload.recorded {β : Type} (upload : Upload β) : List CachedPartInfo :=
  upload.records.filterMap id

open MultipartUploadTracker

/-- `load_tracker_blocking`: a record that cannot be read is skipped. -/
def load_tracker (overflow_checks : Bool) (records : List (Option CachedPartInfo)) :
    Outcome String MultipartUploadTracker :=
  (records.filterMap id).foldlM (add_part overflow_checks) ⟨[], 0⟩

/-! ## The request -/

structure RequestedPart where
  part_number : UInt32
  etag : String
deriving DecidableEq, Repr

def normalize_etag (etag : String) : List Char :=
  trim_matches (· = '"') etag.toList

def s3_wire_etag (etag : String) : String :=
  String.ofList ('"' :: trim_matches (· = '"') (trim_matches is_whitespace etag.toList) ++ ['"'])

def parse_usize (s : List Char) : Option ℕ :=
  parse_unsigned u64_max s

/-- The number of parts that the etag of a multipart object ends in. -/
def s3_part_count (etag : String) : Option ℕ :=
  let bare := normalize_etag etag
  if '-' ∈ bare then parse_usize (bare.reverse.takeWhile (· ≠ '-')).reverse else none

def Requested (requested_parts : List RequestedPart) (part : CachedPartInfo) : Bool :=
  requested_parts.any fun requested => requested.part_number = part.part_number

def etag_mismatch (sorted_parts : List CachedPartInfo) (requested : RequestedPart) : Bool :=
  (lookup part_number sorted_parts requested.part_number).any fun cached =>
    normalize_etag requested.etag ≠ normalize_etag cached.etag

/-- The parts to publish in order of their numbers, or `none` where finalization is skipped: no
tracker, no parts, a requested part without a record, a part without a file, an etag mismatch. -/
def select_parts {β : Type} (overflow_checks : Bool) (upload : Upload β)
    (requested_parts : List RequestedPart) : Option (List CachedPartInfo) :=
  match load_tracker overflow_checks upload.records with
  | ok tracker =>
    let sorted_parts := tracker.get_sorted_parts.filter (Requested requested_parts)
    if tracker.parts = [] then none
    else if ∃ requested ∈ requested_parts, ∀ part ∈ tracker.parts,
      part.part_number ≠ requested.part_number then none
    else if ∃ part ∈ sorted_parts, (upload.part_files part.part_number).isNone then none
    else if ∃ requested ∈ requested_parts, etag_mismatch sorted_parts requested then none
    else some sorted_parts
  -- a panic of the loading task is an error of the load
  | _ => none

/-- Where a part comes to lie: its number, its first and its last byte. -/
structure ByteOffset where
  part_number : UInt32
  start : UInt64
  end_ : UInt64
deriving DecidableEq, Repr

def byte_offsets (overflow_checks : Bool) (current_offset : UInt64) :
    List CachedPartInfo → Outcome String (List ByteOffset)
  | [] => ok []
  | part :: rest => do
    let past ← add overflow_checks current_offset part.size
    let end_ ← sub overflow_checks past 1
    let next ← add overflow_checks current_offset part.size
    let offsets ← byte_offsets overflow_checks next rest
    ok (⟨part.part_number, current_offset, end_⟩ :: offsets)

/-! ## The file system -/

/-- The range files by place, and what the `.meta` parses to, if it is there and does. -/
structure Disk (φ β : Type) where
  range_files : φ → Option β
  metadata_file : Option NewCacheMetadata

structure Faults where
  lock_unavailable : Bool
  /-- There is no cache manager, or the invalidation returns before it reaches the disk. -/
  not_invalidated : Bool
  unreadable_at_invalidation : Bool
  /-- Unlinks of the invalidation that fail, by position. -/
  unlink_at_invalidation : ℕ → Bool
  metadata_unlink : Bool
  /-- Part files that are gone when they are to be moved: an abort or the TTL sweep removes the
  directory of an upload without taking its lock. -/
  lost : UInt32 → Bool
  /-- The error of a path, a directory or a rename. -/
  move : UInt32 → Option String
  stat : UInt32 → Bool
  unreadable_at_deletion : Bool
  unlink_at_deletion : ℕ → Bool
  publish : Option String

section FileSystem

variable {φ β : Type} [DecidableEq φ] (place : FilePath → φ)

def unlink_range_files (fails : ℕ → Bool) :
    List RangeSpec → (φ → Option β) → (φ → Option β)
  | [], range_files => range_files
  | range :: rest, range_files =>
    unlink_range_files (fun i => fails (i + 1)) rest
      (if fails 0 then range_files
      else Function.update range_files (place range.file_path) none)

/-- `invalidate_cache_hierarchy`: the files of the record, then the `.meta`; failures are logged. -/
def invalidate (faults : Faults) (disk : Disk φ β) : Disk φ β :=
  if faults.not_invalidated ∨ faults.unreadable_at_invalidation then disk
  else
    match disk.metadata_file with
    | none => disk
    | some old =>
      { range_files :=
          unlink_range_files place faults.unlink_at_invalidation old.ranges disk.range_files
        metadata_file := if faults.metadata_unlink then some old else none }

/-- What a finalization is told, and what it reads of its surroundings. -/
structure Completion (β : Type) where
  overflow_checks : Bool
  now : ℕ
  etag : String
  response_headers : List (String × String)
  requested_parts : List RequestedPart
  /-- The directory and the object's name of the range file of an extent; a name that is too long
  is hashed. -/
  base : UInt64 → UInt64 → FilePath
  object_version_id : String → FilePath
  in_progress : FilePath → Bool
  file_len : β → ℕ

variable (completion : Completion β) (faults : Faults)

namespace Completion

def new_range_file_path (offset : ByteOffset) : FilePath :=
  versioned_range_file_path (completion.base offset.start offset.end_) offset.start.toNat
    offset.end_.toNat (completion.object_version_id (s3_wire_etag completion.etag))

def range_spec (part_info : CachedPartInfo) (offset : ByteOffset) (compressed_size : ℕ) :
    RangeSpec where
  start := offset.start.toNat
  end_ := offset.end_.toNat
  file_path := completion.new_range_file_path offset
  compressed_size := compressed_size
  staged := none
  compression_algorithm := part_info.compression_algorithm
  uncompressed_size := part_info.size.toNat
  created_at := completion.now
  last_accessed := completion.now
  access_count := 1

def move_part (sorted_parts : List CachedPartInfo) (offset : ByteOffset)
    (part_files : UInt32 → Option β) (range_files : φ → Option β) :
    Outcome String (RangeSpec × (φ → Option β)) :=
  match lookup part_number sorted_parts offset.part_number,
      faults.move offset.part_number with
  | none, _ => err ("Part " ++ toString offset.part_number ++ " not found in tracker")
  | some _, some error => err error
  | some part_info, none =>
    let target := place (completion.new_range_file_path offset)
    let moved :=
      -- a missing part file is logged, and its range is listed all the same
      if faults.lost offset.part_number ∨ (part_files offset.part_number).isNone then range_files
      else Function.update range_files target (part_files offset.part_number)
    let compressed_size :=
      if faults.stat offset.part_number then part_info.size.toNat
      else (moved target).elim part_info.size.toNat completion.file_len
    ok (completion.range_spec part_info offset compressed_size, moved)

/-- The loop that moves the part files. The numbers differ, so no part is asked for again once it
has been moved. -/
def move_parts (sorted_parts : List CachedPartInfo) (part_files : UInt32 → Option β) :
    List ByteOffset → (φ → Option β) → Outcome String (List RangeSpec × (φ → Option β))
  | [], range_files => ok ([], range_files)
  | offset :: rest, range_files => do
    let (range_spec, range_files) ←
      completion.move_part place faults sorted_parts offset part_files range_files
    let (range_specs, range_files) ← move_parts sorted_parts part_files rest range_files
    ok (range_spec :: range_specs, range_files)

def published_record (sorted_parts : List CachedPartInfo) (offsets : List ByteOffset)
    (range_specs : List RangeSpec) (total_size : UInt64) : NewCacheMetadata where
  object_metadata :=
    { etag := s3_wire_etag completion.etag
      last_modified :=
        ((completion.response_headers.find? fun h => h.1 = "last-modified").or
          (completion.response_headers.find? fun h => h.1 = "Last-Modified")).elim "" Prod.snd
      content_length := total_size.toNat
      response_headers := completion.response_headers.filter fun h =>
        h.1.toLower ≠ "content-type" ∧ h.1.toLower ≠ "content-length"
      parts_count := some (sorted_parts.length % 2 ^ 32)
      part_ranges := offsets.map fun offset =>
        (offset.part_number.toNat, offset.start.toNat, offset.end_.toNat)
      is_write_cached := true
      write_cache_expires_at := some (completion.now + 86400)
      write_cache_created_at := some completion.now
      write_cache_last_accessed := some completion.now
      graduation_accounted := false }
  ranges := range_specs.map fun range_spec =>
    { range_spec with
      staged := some (Metadata.classify_new_range_as_staged completion.in_progress
        range_spec.file_path true) }
  created_at := completion.now
  expires_at := completion.now + 86400
  head_expires_at := none
  head_last_accessed := none
  head_access_count := 0
  head_cached_at := none

/-- The files of the record that the invalidation has left are deleted. -/
def delete_old_files (disk : Disk φ β) (range_files : φ → Option β) : φ → Option β :=
  if faults.unreadable_at_deletion then range_files
  else
    match disk.metadata_file with
    | none => range_files
    | some old => unlink_range_files place faults.unlink_at_deletion old.ranges range_files

/-- The rest of a finalization once the parts are moved: the number of parts is compared with what
the etag says, the old files are deleted, and the record is written. -/
def publish (sorted_parts : List CachedPartInfo) (offsets : List ByteOffset) (disk : Disk φ β)
    (range_specs : List RangeSpec) (range_files : φ → Option β) :
    Outcome String (Option (NewCacheMetadata × Disk φ β)) :=
  if (s3_part_count (s3_wire_etag completion.etag)).any (· ≠ sorted_parts.length) then ok none
  else do
    let total_size ← sum completion.overflow_checks (sorted_parts.map size)
    match faults.publish with
    | some error => err error
    | none =>
      let record := completion.published_record sorted_parts offsets range_specs total_size
      ok (some (record,
        { range_files := delete_old_files place faults disk range_files
          metadata_file := some record }))

/-- `finalize_multipart_upload`: the published record and the disk at that moment, or `none` where
finalization is skipped. -/
def finalize_multipart_upload (upload : Upload β) (disk : Disk φ β) :
    Outcome String (Option (NewCacheMetadata × Disk φ β)) :=
  match select_parts completion.overflow_checks upload completion.requested_parts with
  | none => ok none
  | some sorted_parts =>
    byte_offsets completion.overflow_checks 0 sorted_parts >>= fun offsets =>
      if faults.lock_unavailable then ok none
      else
        completion.move_parts place faults sorted_parts upload.part_files offsets
          (invalidate place faults disk).range_files >>= fun moved =>
          completion.publish place faults sorted_parts offsets (invalidate place faults disk)
            moved.1 moved.2

end Completion

end FileSystem

/-! ## The selected parts -/

section Selection

variable {β : Type}

/-- The recorded parts the request names, in order of their numbers. -/
def Upload.requested_in_order (upload : Upload β) (requested_parts : List RequestedPart) :
    List CachedPartInfo :=
  (sort_by_key (fun part : CachedPartInfo => part.part_number.toNat) upload.recorded).filter
    (Requested requested_parts)

variable {tracker tracker' : MultipartUploadTracker} {overflow_checks : Bool} {upload : Upload β}

theorem add_part_parts {part_info : CachedPartInfo}
    (h : tracker.add_part overflow_checks part_info = ok tracker') :
    tracker'.parts = insert_row part_number tracker.parts part_info := by
  obtain ⟨total, -, h⟩ := bind_eq_ok.mp h
  obtain ⟨total', -, h⟩ := bind_eq_ok.mp h
  injection h with h
  rw [← h]

theorem next_part_is_new {info : CachedPartInfo} {rest : List CachedPartInfo}
    (hnodup : ((tracker.parts ++ info :: rest).map part_number).Nodup) :
    ∀ part ∈ tracker.parts, part.part_number ≠ info.part_number := by
  intro part hpart heq
  rw [map_append, nodup_append] at hnodup
  exact hnodup.2.2 _ (List.mem_map_of_mem hpart) _ (List.mem_map_of_mem mem_cons_self) heq

theorem foldlM_add_part_parts {infos : List CachedPartInfo}
    (hnodup : ((tracker.parts ++ infos).map part_number).Nodup)
    (h : infos.foldlM (add_part overflow_checks) tracker = ok tracker') :
    tracker'.parts = tracker.parts ++ infos := by
  induction infos generalizing tracker with
  | nil =>
    injection h with h
    rw [← h, append_nil]
  | cons info rest ih =>
    obtain ⟨next, hnext, h⟩ := bind_eq_ok.mp h
    have hparts : next.parts = tracker.parts ++ [info] := by
      rw [add_part_parts hnext, insert_row_of_new (next_part_is_new hnodup)]
    rw [ih (by rwa [hparts, append_assoc]) h, hparts, append_assoc]
    rfl

theorem load_tracker_parts (h : load_tracker overflow_checks upload.records = ok tracker) :
    tracker.parts = upload.recorded :=
  foldlM_add_part_parts upload.nodup h

variable {requested_parts : List RequestedPart}

/-- What is selected is the recorded parts that were asked for, in order, and each has its file. -/
theorem select_parts_eq_some {parts : List CachedPartInfo}
    (h : select_parts overflow_checks upload requested_parts = some parts) :
    parts = upload.requested_in_order requested_parts ∧
      ∀ part ∈ parts, (upload.part_files part.part_number).isSome := by
  unfold select_parts at h
  split at h
  case h_2 => cases h
  case h_1 tracker hload =>
    have hparts := load_tracker_parts hload
    simp only [Option.ite_none_left_eq_some, Option.some.injEq] at h
    obtain ⟨-, -, hfiles, -, h⟩ := h
    rw [get_sorted_parts, hparts] at h hfiles
    refine ⟨h.symm, ?_⟩
    intro part hpart
    rw [← h] at hpart
    by_contra hnone
    exact hfiles ⟨part, hpart, by simpa using hnone⟩

/-- A part number is recorded once, so the order is strict. -/
theorem requested_in_order_ascending (upload : Upload β) (requested_parts : List RequestedPart) :
    (upload.requested_in_order requested_parts).Pairwise
      fun a b => a.part_number < b.part_number := by
  have hperm := sort_by_key_perm (fun part : CachedPartInfo => part.part_number.toNat)
    upload.recorded
  have hnodup : ((sort_by_key (fun part : CachedPartInfo => part.part_number.toNat)
      upload.recorded).map part_number).Nodup :=
    (hperm.map _).nodup_iff.mpr upload.nodup
  have hle := sort_by_key_ascending (fun part : CachedPartInfo => part.part_number.toNat)
    upload.recorded
  refine List.Pairwise.filter _ ?_
  refine (hle.and (pairwise_map.mp hnodup)).imp ?_
  rintro a b ⟨hab, hne⟩
  exact lt_of_le_of_ne hab fun heq => hne (UInt32.toNat_inj.mp heq)

theorem mem_requested_in_order {part : CachedPartInfo} :
    part ∈ upload.requested_in_order requested_parts ↔
      part ∈ upload.recorded ∧ Requested requested_parts part = true := by
  rw [Upload.requested_in_order, mem_filter, mem_sort_by_key]

theorem requested_in_order_perm :
    (upload.requested_in_order requested_parts).Perm
      (upload.recorded.filter (Requested requested_parts)) :=
  (sort_by_key_perm _ _).filter _

end Selection

/-! ## The layout -/

section Layout

variable {ε : Type} {overflow_checks : Bool}

variable {a b c : UInt64}

/-- A sum that is returned is the sum modulo `2 ^ 64`, whatever the build. -/
theorem add_eq_ok (h : (add overflow_checks a b : Outcome ε UInt64) = ok c) : c = a + b := by
  unfold add at h
  split_ifs at h
  injection h with h
  exact h.symm

theorem add_of_allowed (h : overflow_checks = true → a.toNat + b.toNat < 2 ^ 64) :
    (add overflow_checks a b : Outcome ε UInt64) = ok (a + b) := by
  unfold add
  rw [if_neg fun hover => absurd hover.2 (not_le.mpr (h hover.1))]

theorem add_of_fits (h : a.toNat + b.toNat < 2 ^ 64) :
    (add overflow_checks a b : Outcome ε UInt64) = ok (a + b) :=
  add_of_allowed fun _ => h

theorem sub_eq_ok (h : (sub overflow_checks a b : Outcome ε UInt64) = ok c) : c = a - b := by
  unfold sub at h
  split_ifs at h
  injection h with h
  exact h.symm

theorem sub_of_le (h : b ≤ a) : (sub overflow_checks a b : Outcome ε UInt64) = ok (a - b) := by
  unfold sub
  rw [if_neg fun hover => absurd hover.2 (UInt64.not_lt.mpr h)]

theorem toNat_add_of_fits (h : a.toNat + b.toNat < 2 ^ 64) : (a + b).toNat = a.toNat + b.toNat := by
  rw [UInt64.toNat_add, Nat.mod_eq_of_lt h]

def Laid (offset : ℕ) : List CachedPartInfo → List ByteOffset → Prop
  | [], [] => True
  | part :: parts, byte_offset :: offsets =>
    byte_offset.part_number = part.part_number ∧ byte_offset.start.toNat = offset ∧
      byte_offset.end_.toNat + 1 = offset + part.size.toNat ∧
      Laid (offset + part.size.toNat) parts offsets
  | _, _ => False

def total_bytes (parts : List CachedPartInfo) : ℕ :=
  (parts.map fun part => part.size.toNat).sum

theorem total_bytes_cons {part : CachedPartInfo} {rest : List CachedPartInfo} :
    total_bytes (part :: rest) = part.size.toNat + total_bytes rest := by
  simp [total_bytes]

variable {current_offset : UInt64} {parts : List CachedPartInfo} {offsets : List ByteOffset}

/-- The layout of parts that fit is end to end. The end of a part is one less than the start of the
next, so the very first part must not be empty. -/
theorem byte_offsets_laid (hfits : current_offset.toNat + total_bytes parts < 2 ^ 64)
    (hfirst : current_offset ≠ 0 ∨ ∀ part ∈ parts.head?, part.size ≠ 0) :
    ∃ offsets, byte_offsets overflow_checks current_offset parts = ok offsets ∧
      Laid current_offset.toNat parts offsets := by
  induction parts generalizing current_offset with
  | nil => exact ⟨[], rfl, trivial⟩
  | cons part rest ih =>
    rw [total_bytes_cons] at hfits
    have hsum : current_offset.toNat + part.size.toNat < 2 ^ 64 := by omega
    have hnat := toNat_add_of_fits hsum
    -- the first byte past the part is not byte zero
    have hpos : 0 < (current_offset + part.size).toNat := by
      rcases hfirst with hcurrent | hsize
      · have hne : current_offset.toNat ≠ 0 := fun h => hcurrent (UInt64.toNat_inj.mp h)
        omega
      · have hne : part.size.toNat ≠ 0 := fun h => hsize part rfl (UInt64.toNat_inj.mp h)
        omega
    have hone : (1 : UInt64) ≤ current_offset + part.size := UInt64.le_iff_toNat_le.mpr hpos
    have hnext : current_offset + part.size ≠ 0 := by
      intro hzero
      rw [hzero] at hpos
      exact absurd hpos (lt_irrefl 0)
    obtain ⟨offsets, hoffsets, hlaid⟩ := @ih (current_offset + part.size) (by omega) (.inl hnext)
    refine ⟨⟨part.part_number, current_offset, current_offset + part.size - 1⟩ :: offsets, ?_, ?_⟩
    · unfold byte_offsets
      simp only [add_of_fits hsum, sub_of_le hone, hoffsets, bind_ok]
    · refine ⟨rfl, rfl, ?_, hnat ▸ hlaid⟩
      rw [UInt64.toNat_sub_of_le _ _ hone, hnat]
      show current_offset.toNat + part.size.toNat - 1 + 1 = _
      omega

/-- **Inversion** of one round of the layout. -/
theorem byte_offsets_cons {part : CachedPartInfo} {rest : List CachedPartInfo}
    (h : byte_offsets overflow_checks current_offset (part :: rest) = ok offsets) :
    ∃ later, byte_offsets overflow_checks (current_offset + part.size) rest = ok later ∧
      offsets = ⟨part.part_number, current_offset, current_offset + part.size - 1⟩ :: later := by
  obtain ⟨past, hpast, h⟩ := bind_eq_ok.mp h
  obtain ⟨end_, hend, h⟩ := bind_eq_ok.mp h
  obtain ⟨next, hnext, h⟩ := bind_eq_ok.mp h
  obtain ⟨later, hlater, h⟩ := bind_eq_ok.mp h
  injection h with h
  rw [add_eq_ok hpast] at hend
  rw [add_eq_ok hnext] at hlater
  rw [sub_eq_ok hend] at h
  exact ⟨later, hlater, h.symm⟩

theorem byte_offsets_numbers (h : byte_offsets overflow_checks current_offset parts = ok offsets) :
    offsets.map ByteOffset.part_number = parts.map part_number := by
  induction parts generalizing current_offset offsets with
  | nil =>
    injection h with h
    rw [← h]
    rfl
  | cons part rest ih =>
    obtain ⟨later, hlater, rfl⟩ := byte_offsets_cons h
    rw [map_cons, map_cons, ih hlater]

variable {sizes : List UInt64} {acc : UInt64}

/-- A total is the sum of the sizes modulo `2 ^ 64`. -/
theorem foldlM_add_toNat {total : UInt64}
    (h : sizes.foldlM (add overflow_checks) acc = (ok total : Outcome ε UInt64)) :
    total.toNat = (acc.toNat + (sizes.map UInt64.toNat).sum) % 2 ^ 64 := by
  induction sizes generalizing acc with
  | nil =>
    injection h with h
    rw [← h, map_nil, sum_nil, Nat.add_zero, Nat.mod_eq_of_lt (UInt64.toNat_lt acc)]
  | cons size rest ih =>
    obtain ⟨next, hnext, h⟩ := bind_eq_ok.mp h
    rw [ih h, add_eq_ok hnext, UInt64.toNat_add, map_cons, sum_cons, Nat.mod_add_mod, Nat.add_assoc]

theorem foldlM_add_of_fits (h : acc.toNat + (sizes.map UInt64.toNat).sum < 2 ^ 64) :
    ∃ total, sizes.foldlM (add overflow_checks) acc = (ok total : Outcome ε UInt64) := by
  induction sizes generalizing acc with
  | nil => exact ⟨acc, rfl⟩
  | cons size rest ih =>
    rw [map_cons, sum_cons] at h
    have hsum : acc.toNat + size.toNat < 2 ^ 64 := by omega
    rw [foldlM_cons, add_of_fits hsum]
    apply ih
    rw [toNat_add_of_fits hsum]
    omega

end Layout

/-! ## What is published -/

open Completion

section Published

variable {φ β : Type} [DecidableEq φ] {place : FilePath → φ} {completion : Completion β}
  {faults : Faults} {upload : Upload β} {disk disk' : Disk φ β} {record : NewCacheMetadata}

variable {sorted_parts : List CachedPartInfo} {part_files : UInt32 → Option β}
  {range_files range_files' : φ → Option β} {offset : ByteOffset}

/-- A part that is moved has the extent and the path of its offset. Its file is there unless the
rename was lost. -/
theorem move_part_spec {spec : RangeSpec}
    (h : completion.move_part place faults sorted_parts offset part_files range_files =
      ok (spec, range_files')) :
    spec.start = offset.start.toNat ∧ spec.end_ = offset.end_.toNat ∧
      spec.file_path = completion.new_range_file_path offset ∧
      range_files' =
        if faults.lost offset.part_number = true ∨
            (part_files offset.part_number).isNone = true then
          range_files
        else Function.update range_files (place (completion.new_range_file_path offset))
          (part_files offset.part_number) := by
  unfold move_part at h
  split at h
  case h_1 => cases h
  case h_2 => cases h
  case h_3 =>
    injection h with h
    injection h with hspec hfiles
    rw [← hspec, ← hfiles]
    exact ⟨rfl, rfl, rfl, rfl⟩

variable {specs : List RangeSpec}

theorem move_parts_cons {rest : List ByteOffset}
    (h : completion.move_parts place faults sorted_parts part_files (offset :: rest) range_files =
      ok (specs, range_files')) :
    ∃ spec moved later,
      completion.move_part place faults sorted_parts offset part_files range_files =
        ok (spec, moved) ∧
      completion.move_parts place faults sorted_parts part_files rest moved =
        ok (later, range_files') ∧
      specs = spec :: later := by
  obtain ⟨⟨spec, moved⟩, hmove, h⟩ := bind_eq_ok.mp h
  obtain ⟨⟨later, files⟩, hlater, h⟩ := bind_eq_ok.mp h
  injection h with h
  injection h with hspecs hfiles
  exact ⟨spec, moved, later, hmove, hfiles ▸ hlater, hspecs.symm⟩

theorem move_parts_specs {offsets : List ByteOffset}
    (h : completion.move_parts place faults sorted_parts part_files offsets range_files =
      ok (specs, range_files')) :
    List.Forall₂ (fun (spec : RangeSpec) (offset : ByteOffset) =>
      spec.start = offset.start.toNat ∧ spec.end_ = offset.end_.toNat ∧
        spec.file_path = completion.new_range_file_path offset) specs offsets := by
  induction offsets generalizing range_files specs with
  | nil =>
    injection h with h
    injection h with hspecs _
    rw [← hspecs]
    exact .nil
  | cons offset rest ih =>
    obtain ⟨spec, moved, later, hmove, hlater, rfl⟩ := move_parts_cons h
    obtain ⟨hstart, hend, hpath, -⟩ := move_part_spec hmove
    exact .cons ⟨hstart, hend, hpath⟩ (ih hlater)

theorem publish_eq_published {parts : List CachedPartInfo} {offsets : List ByteOffset}
    (h : completion.publish place faults parts offsets disk specs range_files =
      ok (some (record, disk'))) :
    ∃ total_size,
      sum completion.overflow_checks (parts.map size) =
        (ok total_size : Outcome String UInt64) ∧
      record = completion.published_record parts offsets specs total_size ∧
      disk'.range_files = delete_old_files place faults disk range_files := by
  unfold publish at h
  split at h
  case isTrue => cases h
  case isFalse =>
    obtain ⟨total_size, htotal, h⟩ := bind_eq_ok.mp h
    split at h
    case h_1 => cases h
    case h_2 =>
      injection h with h
      injection h with h
      injection h with hrecord hdisk
      exact ⟨total_size, htotal, hrecord.symm, by rw [← hdisk]⟩

/-- **Inversion.** A record is published only by the way through every step. -/
theorem finalize_eq_published
    (h : completion.finalize_multipart_upload place faults upload disk =
      ok (some (record, disk'))) :
    ∃ parts offsets specs range_files total_size,
      select_parts completion.overflow_checks upload completion.requested_parts = some parts ∧
      byte_offsets completion.overflow_checks 0 parts = ok offsets ∧
      completion.move_parts place faults parts upload.part_files offsets
        (invalidate place faults disk).range_files = ok (specs, range_files) ∧
      sum completion.overflow_checks (parts.map size) =
        (ok total_size : Outcome String UInt64) ∧
      record = completion.published_record parts offsets specs total_size ∧
      disk'.range_files =
        delete_old_files place faults (invalidate place faults disk) range_files := by
  unfold finalize_multipart_upload at h
  split at h
  case h_1 => cases h
  case h_2 parts hselect =>
    obtain ⟨offsets, hoffsets, h⟩ := bind_eq_ok.mp h
    split at h
    case isTrue => cases h
    case isFalse =>
      obtain ⟨⟨specs, range_files⟩, hmove, h⟩ := bind_eq_ok.mp h
      obtain ⟨total_size, htotal, hrecord, hdisk⟩ := publish_eq_published h
      exact ⟨parts, offsets, specs, range_files, total_size, hselect, hoffsets, hmove, htotal,
        hrecord, hdisk⟩

/-- The ranges of a record lay its parts end to end, in their order, and its length and part map
agree with them. An empty part has the extent `[s, s - 1]`. -/
structure Lawful (record : NewCacheMetadata) (parts : List CachedPartInfo) : Prop where
  covers : ∀ x, (∃ range ∈ record.ranges, range.start ≤ x ∧ x ≤ range.end_) ↔
    x < record.object_metadata.content_length
  ascending : record.ranges.Pairwise fun a b => a.end_ < b.start
  lengths : List.Forall₂ (fun (range : RangeSpec) (part : CachedPartInfo) =>
    range.end_ + 1 = range.start + part.size.toNat) record.ranges parts
  content_length : record.object_metadata.content_length = total_bytes parts
  part_ranges : record.object_metadata.part_ranges = List.zipWith
    (fun (part : CachedPartInfo) (range : RangeSpec) =>
      (part.part_number.toNat, range.start, range.end_)) parts record.ranges

/-- Each range is as long as its part. -/
def AsLong (ranges : List RangeSpec) (parts : List CachedPartInfo) : Prop :=
  List.Forall₂ (fun range part => range.end_ + 1 = range.start + part.size.toNat) ranges parts

/-- Ranges with the extents of a layout. -/
def OfLayout (ranges : List RangeSpec) (offsets : List ByteOffset) : Prop :=
  List.Forall₂ (fun (range : RangeSpec) (offset : ByteOffset) =>
    range.start = offset.start.toNat ∧ range.end_ = offset.end_.toNat) ranges offsets

section Ranges

variable {offset : ℕ} {parts : List CachedPartInfo} {offsets : List ByteOffset}
  {ranges : List RangeSpec}

/-- The ranges of a layout partition the bytes from its start to its end. -/
theorem Laid.partition (h : Laid offset parts offsets) (hranges : OfLayout ranges offsets) :
    (∀ range ∈ ranges, offset ≤ range.start) ∧
    (∀ x, (∃ range ∈ ranges, range.start ≤ x ∧ x ≤ range.end_) ↔
      offset ≤ x ∧ x < offset + total_bytes parts) ∧
    ranges.Pairwise (fun a b => a.end_ < b.start) ∧
    AsLong ranges parts ∧
    (offsets.map fun byte_offset =>
      (byte_offset.part_number.toNat, byte_offset.start.toNat, byte_offset.end_.toNat)) =
    List.zipWith (fun (part : CachedPartInfo) (range : RangeSpec) =>
      (part.part_number.toNat, range.start, range.end_)) parts ranges := by
  induction parts generalizing offset offsets ranges with
  | nil =>
    cases offsets with
    | nil =>
      cases hranges
      simp [total_bytes, AsLong]
    | cons _ _ => exact h.elim
  | cons part rest ih =>
    cases offsets with
    | nil => exact h.elim
    | cons byte_offset later =>
      obtain ⟨hnumber, hstart, hend, hlater⟩ := h
      cases hranges with
      | @cons range _ ranges _ hhead htail =>
        obtain ⟨hafter, hcovers, hpairwise, hlengths, hmap⟩ := ih hlater htail
        refine ⟨?_, ?_, .cons ?_ hpairwise, .cons ?_ hlengths, ?_⟩
        · rw [forall_mem_cons, hhead.1, hstart]
          exact ⟨le_rfl, fun range' hrange' => (Nat.le_add_right _ _).trans (hafter range' hrange')⟩
        · -- the first range ends where the rest begins
          intro x
          simp only [exists_mem_cons_iff, hcovers x, total_bytes_cons]
          omega
        · intro range' hrange'
          have hle := hafter range' hrange'
          omega
        · rw [hhead.1, hhead.2, hend, hstart]
        · rw [map_cons, zipWith_cons_cons, hmap, hnumber, hhead.1, hhead.2]

/-- An empty first part is given the extent `[0, u64::MAX]`, which is as long as no part. -/
theorem first_nonempty_of_lengths {overflow_checks : Bool}
    (hoffsets : byte_offsets overflow_checks 0 parts = ok offsets)
    (hranges : OfLayout ranges offsets) (hlengths : AsLong ranges parts) :
    ∀ first ∈ parts.head?, first.size ≠ 0 := by
  intro first hfirst hempty
  cases parts with
  | nil => cases hfirst
  | cons part rest =>
    obtain rfl : part = first := Option.some.inj hfirst
    obtain ⟨later, -, rfl⟩ := byte_offsets_cons hoffsets
    cases hranges with
    | cons hhead _ =>
      cases hlengths with
      | cons hlength _ =>
        rw [hhead.1, hhead.2, hempty] at hlength
        exact absurd (show (0 + 0 - 1 : UInt64).toNat + 1 = (0 : UInt64).toNat + (0 : UInt64).toNat
          from hlength) (by decide)

end Ranges

/-- The requested part with the lowest number is not empty, and the sizes of the requested parts
add up within `u64`. -/
structure Sound (upload : Upload β) (requested_parts : List RequestedPart) : Prop where
  first_nonempty : ∀ first ∈ upload.recorded, Requested requested_parts first = true →
    (∀ part ∈ upload.recorded, Requested requested_parts part = true →
      first.part_number ≤ part.part_number) → first.size ≠ 0
  fits : total_bytes (upload.recorded.filter (Requested requested_parts)) < 2 ^ 64

variable {requested_parts : List RequestedPart}

theorem total_bytes_requested_in_order :
    total_bytes (upload.requested_in_order requested_parts) =
      total_bytes (upload.recorded.filter (Requested requested_parts)) :=
  (requested_in_order_perm.map _).sum_eq

/-- The same of the parts in order, as the code walks them. -/
theorem sound_iff :
    Sound upload requested_parts ↔
      (∀ part ∈ (upload.requested_in_order requested_parts).head?, part.size ≠ 0) ∧
        total_bytes (upload.requested_in_order requested_parts) < 2 ^ 64 := by
  have hascending := requested_in_order_ascending upload requested_parts
  have hmem : ∀ part, part ∈ upload.requested_in_order requested_parts ↔ _ :=
    fun part => mem_requested_in_order
  rw [total_bytes_requested_in_order]
  cases hparts : upload.requested_in_order requested_parts with
  | nil =>
    constructor
    · intro h
      exact ⟨by simp, h.fits⟩
    · intro h
      refine ⟨?_, h.2⟩
      intro first hfirst hreq _
      have := (hmem first).mpr ⟨hfirst, hreq⟩
      rw [hparts] at this
      cases this
  | cons head rest =>
    rw [hparts] at hascending hmem
    have hhead := (hmem head).mp mem_cons_self
    have hleast : ∀ part ∈ upload.recorded, Requested requested_parts part = true →
        head.part_number ≤ part.part_number := by
      intro part hpart hreq
      rcases mem_cons.mp ((hmem part).mpr ⟨hpart, hreq⟩) with rfl | hrest
      · exact UInt32.le_refl _
      · exact UInt32.le_of_lt ((pairwise_cons.mp hascending).1 part hrest)
    constructor
    · intro h
      refine ⟨?_, h.fits⟩
      intro part hpart
      rw [← Option.some.inj hpart]
      exact h.first_nonempty head hhead.1 hhead.2 hleast
    · intro h
      refine ⟨?_, h.2⟩
      intro first hfirst hreq hle
      -- the lowest number belongs to one part
      rcases mem_cons.mp ((hmem first).mpr ⟨hfirst, hreq⟩) with rfl | hrest
      · exact h.1 first rfl
      · have hlt := (pairwise_cons.mp hascending).1 first hrest
        exact absurd (hle head hhead.1 hhead.2) (UInt32.not_le.mpr hlt)

/-! ## When a record is published -/

/-- The request matches what is recorded: it names recorded parts with their etags, their files are
there, and their number is the one the object's etag gives. -/
structure Matches (upload : Upload β) (completion : Completion β) : Prop where
  nonempty : upload.recorded ≠ []
  recorded : ∀ requested ∈ completion.requested_parts, ∃ part ∈ upload.recorded,
    part.part_number = requested.part_number ∧
      normalize_etag requested.etag = normalize_etag part.etag
  files : ∀ part ∈ upload.recorded, Requested completion.requested_parts part = true →
    (upload.part_files part.part_number).isSome
  count : ∀ n ∈ s3_part_count (s3_wire_etag completion.etag),
    n = (upload.recorded.filter (Requested completion.requested_parts)).length

structure Faults.Quiet (faults : Faults) : Prop where
  lock : faults.lock_unavailable = false
  move : ∀ part_number, faults.move part_number = none
  publish : faults.publish = none

/-- Loading the records does not overflow if their sizes fit, or if overflows are not checked. -/
theorem foldlM_add_part_of_allowed {overflow_checks : Bool} {infos : List CachedPartInfo}
    {tracker : MultipartUploadTracker}
    (hnodup : ((tracker.parts ++ infos).map part_number).Nodup)
    (hfits : overflow_checks = true → tracker.total_size.toNat + total_bytes infos < 2 ^ 64) :
    ∃ tracker', infos.foldlM (add_part overflow_checks) tracker = ok tracker' := by
  induction infos generalizing tracker with
  | nil => exact ⟨tracker, rfl⟩
  | cons info rest ih =>
    rw [total_bytes_cons] at hfits
    -- no part is replaced, so nothing is subtracted
    have hnew := next_part_is_new hnodup
    have hsum : overflow_checks = true →
        tracker.total_size.toNat + info.size.toNat < 2 ^ 64 := by
      intro hchecks
      have := hfits hchecks
      omega
    have hstep : tracker.add_part overflow_checks info =
        ok ⟨tracker.parts ++ [info], tracker.total_size + info.size⟩ := by
      unfold add_part
      rw [add_of_allowed hsum, lookup_eq_none.mpr hnew, insert_row_of_new hnew]
      rfl
    rw [foldlM_cons, hstep]
    apply ih
    · rwa [append_assoc]
    · intro hchecks
      have := hfits hchecks
      rw [toNat_add_of_fits (hsum hchecks)]
      omega

/-- A request that matches passes every check. -/
theorem select_parts_of_matches (h : Matches upload completion)
    (hload : completion.overflow_checks = true → total_bytes upload.recorded < 2 ^ 64) :
    select_parts completion.overflow_checks upload completion.requested_parts =
      some (upload.requested_in_order completion.requested_parts) := by
  obtain ⟨tracker, htracker⟩ : ∃ tracker,
      load_tracker completion.overflow_checks upload.records = ok tracker := by
    refine foldlM_add_part_of_allowed upload.nodup ?_
    intro hchecks
    rw [show ((⟨[], 0⟩ : MultipartUploadTracker).total_size).toNat = 0 from rfl, Nat.zero_add]
    exact hload hchecks
  have hparts := load_tracker_parts htracker
  have hsorted : tracker.get_sorted_parts.filter (Requested completion.requested_parts) =
      upload.requested_in_order completion.requested_parts := by
    rw [get_sorted_parts, hparts]
    rfl
  have hnodup : ((upload.requested_in_order completion.requested_parts).map
      part_number).Nodup := by
    rw [List.Nodup, pairwise_map]
    refine (requested_in_order_ascending _ _).imp ?_
    intro a b hlt heq
    rw [heq] at hlt
    exact UInt32.lt_irrefl _ hlt
  -- the three checks of the request, the last one first
  unfold select_parts
  simp only [htracker, hsorted, hparts, if_neg h.nonempty]
  rw [if_neg, if_neg, if_neg]
  · rintro ⟨requested, hrequested, hmismatch⟩
    obtain ⟨part, hpart, hnumber, hetag⟩ := h.recorded requested hrequested
    have hin : part ∈ upload.requested_in_order completion.requested_parts := by
      refine mem_requested_in_order.mpr ⟨hpart, ?_⟩
      exact List.any_eq_true.mpr ⟨requested, hrequested, by simp [hnumber]⟩
    have hfound := lookup_of_mem hnodup hin
    rw [hnumber] at hfound
    simp [etag_mismatch, hfound, hetag] at hmismatch
  · rintro ⟨part, hpart, hnone⟩
    obtain ⟨hrecorded, hrequested⟩ := mem_requested_in_order.mp hpart
    have hsome := h.files part hrecorded hrequested
    rw [Option.isNone_iff_eq_none.mp hnone] at hsome
    cases hsome
  · rintro ⟨requested, hrequested, hmissing⟩
    obtain ⟨part, hpart, hnumber, -⟩ := h.recorded requested hrequested
    exact hmissing part hpart hnumber

/-- Without faults every part is moved. -/
theorem move_parts_of_quiet (hquiet : faults.Quiet) {offsets : List ByteOffset}
    (hnumbers : ∀ offset ∈ offsets, offset.part_number ∈ sorted_parts.map part_number)
    (range_files : φ → Option β) :
    ∃ moved, completion.move_parts place faults sorted_parts part_files offsets range_files =
      ok moved := by
  induction offsets generalizing range_files with
  | nil => exact ⟨_, rfl⟩
  | cons offset rest ih =>
    obtain ⟨spec, hspec⟩ : ∃ moved,
        completion.move_part place faults sorted_parts offset part_files range_files =
          ok moved := by
      obtain ⟨part, hpart, hnumber⟩ := List.mem_map.mp (hnumbers offset mem_cons_self)
      have hfound : lookup part_number sorted_parts offset.part_number ≠ none := by
        intro hnone
        exact lookup_eq_none.mp hnone part hpart hnumber
      obtain ⟨info, hinfo⟩ := Option.ne_none_iff_exists'.mp hfound
      unfold move_part
      rw [hinfo, hquiet.move offset.part_number]
      exact ⟨_, rfl⟩
    obtain ⟨moved, hmoved⟩ :=
      ih (fun offset hoffset => hnumbers offset (mem_cons_of_mem _ hoffset)) spec.2
    unfold move_parts
    rw [hspec]
    simp only [hmoved, bind_ok]
    exact ⟨_, rfl⟩

/-- A sound request that matches is published. -/
theorem finalize_publishes (h : Matches upload completion) (hquiet : faults.Quiet)
    (hsound : Sound upload completion.requested_parts)
    (hload : completion.overflow_checks = true → total_bytes upload.recorded < 2 ^ 64) :
    ∃ record disk', completion.finalize_multipart_upload place faults upload disk =
      ok (some (record, disk')) := by
  obtain ⟨hfirst, hfits⟩ := sound_iff.mp hsound
  obtain ⟨offsets, hoffsets, -⟩ :=
    @byte_offsets_laid completion.overflow_checks 0
      (upload.requested_in_order completion.requested_parts) (by simpa using hfits) (.inr hfirst)
  have hnumbers := byte_offsets_numbers hoffsets
  obtain ⟨moved, hmoved⟩ := @move_parts_of_quiet φ β _ place completion faults
    (upload.requested_in_order completion.requested_parts) upload.part_files hquiet offsets
    (fun offset hoffset => hnumbers ▸ List.mem_map_of_mem hoffset)
    (invalidate place faults disk).range_files
  obtain ⟨total_size, htotal⟩ := @foldlM_add_of_fits String completion.overflow_checks
    ((upload.requested_in_order completion.requested_parts).map size) 0
    (by simpa [total_bytes, Function.comp_def] using hfits)
  have hcount : ((s3_part_count (s3_wire_etag completion.etag)).any fun n =>
      decide (n ≠ (upload.requested_in_order completion.requested_parts).length)) = false := by
    rw [requested_in_order_perm.length_eq, Option.any_eq_false]
    intro n hn
    simpa using h.count n hn
  unfold finalize_multipart_upload
  rw [select_parts_of_matches h hload]
  simp only [hoffsets, bind_ok, hquiet.lock, Bool.false_eq_true, if_false, hmoved]
  unfold publish
  simp only [hcount, Bool.false_eq_true, if_false]
  rw [sum, htotal, bind_ok, hquiet.publish]
  exact ⟨_, _, rfl⟩

/-! ## The published record -/

/-- **The layout of a completed upload.** In either build, a published record lays its parts end
to end, with the length and the part map that go with them, exactly if the first part is not empty
and the sizes add up within `u64`; and then a request that matches is published. -/
theorem published_record_lawful_iff (place : FilePath → φ) (completion : Completion β)
    (faults : Faults) (upload : Upload β) (disk : Disk φ β) :
    (∀ record disk', completion.finalize_multipart_upload place faults upload disk =
        ok (some (record, disk')) →
      (Lawful record (upload.requested_in_order completion.requested_parts) ↔
        Sound upload completion.requested_parts)) ∧
    (Matches upload completion → faults.Quiet → Sound upload completion.requested_parts →
      (completion.overflow_checks = true → total_bytes upload.recorded < 2 ^ 64) →
      ∃ record disk', completion.finalize_multipart_upload place faults upload disk =
        ok (some (record, disk'))) := by
  refine ⟨?_, finalize_publishes⟩
  intro record disk' h
  obtain ⟨parts, offsets, specs, range_files, total_size, hselect, hoffsets, hmove, htotal, rfl,
    -⟩ := finalize_eq_published h
  obtain ⟨rfl, -⟩ := select_parts_eq_some hselect
  generalize hparts : upload.requested_in_order completion.requested_parts = parts at *
  have hspecs := move_parts_specs hmove
  have hlayout : OfLayout (completion.published_record parts offsets specs total_size).ranges
      offsets := by
    unfold OfLayout published_record
    rw [forall₂_map_left_iff]
    exact hspecs.imp fun spec offset hspec => ⟨hspec.1, hspec.2.1⟩
  have hlength : total_size.toNat = total_bytes parts % 2 ^ 64 := by
    have := foldlM_add_toNat htotal
    simpa [total_bytes, Function.comp_def] using this
  rw [sound_iff, hparts]
  constructor
  · intro hlawful
    -- the recorded length is a `u64`, so a sum that wraps is not it
    have hfits : total_bytes parts < 2 ^ 64 := by
      have hcontent : total_size.toNat = total_bytes parts := hlawful.content_length
      rw [← hcontent]
      exact UInt64.toNat_lt total_size
    exact ⟨first_nonempty_of_lengths hoffsets hlayout hlawful.lengths, hfits⟩
  · rintro ⟨hfirst, hfits⟩
    obtain ⟨offsets', hoffsets', hlaid⟩ :=
      @byte_offsets_laid completion.overflow_checks 0 parts (by simpa using hfits) (.inr hfirst)
    obtain rfl : offsets' = offsets := by
      rw [hoffsets] at hoffsets'
      injection hoffsets' with heq
      exact heq.symm
    obtain ⟨-, hcovers, hascending, hlengths, hmap⟩ := hlaid.partition hlayout
    have hcontent : total_size.toNat = total_bytes parts := by
      rw [hlength, Nat.mod_eq_of_lt hfits]
    refine ⟨?_, hascending, hlengths, hcontent, hmap⟩
    intro x
    rw [hcovers x]
    show _ ↔ x < total_size.toNat
    rw [hcontent]
    simp

/-! ## An upload of two parts -/

def two_parts (first second : UInt64) : Upload String where
  records := [some ⟨2, second, "b", .Lz4⟩, none, some ⟨1, first, "\"a\"", .Lz4⟩]
  nodup := by
    show [2, 1].Nodup
    decide
  part_files := fun part_number =>
    if part_number = 1 then some "part 1" else if part_number = 2 then some "part 2" else none

def both_parts (overflow_checks : Bool) : Completion String where
  overflow_checks := overflow_checks
  now := 7
  etag := "e-2"
  response_headers := []
  requested_parts := [⟨1, "a"⟩, ⟨2, "b"⟩]
  base := fun _ _ => ['o']
  object_version_id := fun etag => etag.toList
  in_progress := fun _ => false
  file_len := String.length

def no_faults : Faults where
  lock_unavailable := false
  not_invalidated := false
  unreadable_at_invalidation := false
  unlink_at_invalidation := fun _ => false
  metadata_unlink := false
  lost := fun _ => false
  move := fun _ => none
  stat := fun _ => false
  unreadable_at_deletion := false
  unlink_at_deletion := fun _ => false
  publish := none

def empty_disk : Disk FilePath String :=
  ⟨fun _ => none, none⟩

def record_of : Outcome String (Option (NewCacheMetadata × Disk φ β)) → Option NewCacheMetadata
  | ok (some published) => some published.1
  | _ => none

omit [DecidableEq φ] in
theorem record_of_eq_some {outcome : Outcome String (Option (NewCacheMetadata × Disk φ β))}
    (h : record_of outcome = some record) : ∃ disk', outcome = ok (some (record, disk')) := by
  match outcome, h with
  | ok (some (_, disk')), rfl => exact ⟨disk', rfl⟩

/-- The release build publishes an empty first part as a range of the whole type. -/
theorem empty_first_part_is_published :
    ∃ record disk', (both_parts false).finalize_multipart_upload id no_faults (two_parts 0 5)
        empty_disk = ok (some (record, disk')) ∧
      record.ranges.map RangeSpec.extent = [(0, 18446744073709551615), (0, 4)] ∧
      record.object_metadata.content_length = 5 ∧
      ¬ Lawful record ((two_parts 0 5).requested_in_order (both_parts false).requested_parts) := by
  have hvalue : (record_of ((both_parts false).finalize_multipart_upload id no_faults
      (two_parts 0 5) empty_disk)).map (fun record =>
        (record.ranges.map RangeSpec.extent, record.object_metadata.content_length)) =
      some ([(0, 18446744073709551615), (0, 4)], 5) := by decide +kernel
  obtain ⟨record, hrecord, hfields⟩ := Option.map_eq_some_iff.mp hvalue
  obtain ⟨disk', hpublished⟩ := record_of_eq_some hrecord
  injection hfields with hextents hlength
  refine ⟨record, disk', hpublished, hextents, hlength, ?_⟩
  intro hlawful
  have hordered : (record.ranges.map RangeSpec.extent).Pairwise fun a b => a.2 < b.1 :=
    pairwise_map.mpr hlawful.ascending
  rw [hextents] at hordered
  exact absurd hordered (by decide)

theorem two_full_parts_are_laid_out :
    ∃ record disk', (both_parts false).finalize_multipart_upload id no_faults (two_parts 3 5)
        empty_disk = ok (some (record, disk')) ∧
      record.ranges.map RangeSpec.extent = [(0, 2), (3, 7)] ∧
      Lawful record ((two_parts 3 5).requested_in_order (both_parts false).requested_parts) := by
  have hsound : Sound (two_parts 3 5) (both_parts false).requested_parts := by
    refine ⟨?_, by decide⟩
    intro first hfirst _ _
    have hsizes : ∀ part ∈ (two_parts 3 5).recorded, part.size ≠ 0 := by decide
    exact hsizes first hfirst
  have hvalue : (record_of ((both_parts false).finalize_multipart_upload id no_faults
      (two_parts 3 5) empty_disk)).map (fun record => record.ranges.map RangeSpec.extent) =
      some [(0, 2), (3, 7)] := by decide +kernel
  obtain ⟨record, hrecord, hextents⟩ := Option.map_eq_some_iff.mp hvalue
  obtain ⟨disk', hpublished⟩ := record_of_eq_some hrecord
  refine ⟨record, disk', hpublished, hextents, ?_⟩
  exact ((published_record_lawful_iff id (both_parts false) no_faults (two_parts 3 5)
    empty_disk).1 record disk' hpublished).mpr hsound

end Published

end HybridCache.Multipart
