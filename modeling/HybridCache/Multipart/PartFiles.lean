/-
The files a completed multipart upload names.

After the move, finalization deletes the files of whatever record it still finds. If a record
survived the invalidation and names one of the new files (an upload of the same bytes has the same
names), the deletion takes the file that was just moved there. A part file that is gone by the time
it is moved is logged, and listed nevertheless.
-/
import HybridCache.Multipart.Finalize

namespace HybridCache.Multipart

open Lib CacheTypes Outcome List

variable {φ β : Type} [DecidableEq φ] {place : FilePath → φ} {completion : Completion β}
  {faults : Faults} {upload : Upload β} {disk disk' : Disk φ β}

/-! ## The two walks -/

/-- One of the unlinks of a walk that succeed is of the place. -/
def Unlinked (place : FilePath → φ) (fails : ℕ → Bool) (ranges : List RangeSpec) (target : φ) :
    Prop :=
  ∃ k range, ranges[k]? = some range ∧ fails k = false ∧ place range.file_path = target

variable {fails : ℕ → Bool}

omit [DecidableEq φ] in
theorem unlinked_cons {range : RangeSpec} {rest : List RangeSpec} {target : φ} :
    Unlinked place fails (range :: rest) target ↔
      (fails 0 = false ∧ place range.file_path = target) ∨
        Unlinked place (fun i => fails (i + 1)) rest target := by
  constructor
  · rintro ⟨k, range', hrange', hunlinked⟩
    cases k with
    | zero =>
      rw [← Option.some.inj hrange'] at hunlinked
      exact .inl hunlinked
    | succ k => exact .inr ⟨k, range', hrange', hunlinked⟩
  · rintro (hunlinked | ⟨k, range', hrange', hunlinked⟩)
    · exact ⟨0, range, rfl, hunlinked⟩
    · exact ⟨k + 1, range', hrange', hunlinked⟩

variable {range_files : φ → Option β} {bytes : β} {ranges : List RangeSpec}

theorem unlink_range_files_eq_some {target : φ} :
    unlink_range_files place fails ranges range_files target = some bytes ↔
      range_files target = some bytes ∧ ¬ Unlinked place fails ranges target := by
  induction ranges generalizing fails range_files with
  | nil => simp [unlink_range_files, Unlinked]
  | cons range rest ih =>
    have hfirst : (if fails 0 then range_files
        else Function.update range_files (place range.file_path) none) target = some bytes ↔
        range_files target = some bytes ∧ ¬ (fails 0 = false ∧ place range.file_path = target) := by
      by_cases hfails : fails 0 = true
      · simp [hfails]
      · by_cases hplace : place range.file_path = target
        · simp [hfails, hplace]
        · simp [hfails, hplace, Function.update_of_ne (Ne.symm hplace)]
    rw [unlink_range_files, ih, hfirst, unlinked_cons, not_or, and_assoc]

theorem invalidate_range_files_eq_some {target : φ} :
    (invalidate place faults disk).range_files target = some bytes ↔
      disk.range_files target = some bytes ∧
        (faults.not_invalidated = false → faults.unreadable_at_invalidation = false →
          ∀ old ∈ disk.metadata_file,
            ¬ Unlinked place faults.unlink_at_invalidation old.ranges target) := by
  unfold invalidate
  by_cases hskipped : faults.not_invalidated ∨ faults.unreadable_at_invalidation
  · rw [if_pos hskipped]
    refine (and_iff_left ?_).symm
    intro hreached hreadable
    rw [hreached, hreadable] at hskipped
    rcases hskipped with h | h <;> cases h
  · rw [if_neg hskipped]
    rw [not_or, Bool.not_eq_true, Bool.not_eq_true] at hskipped
    cases disk.metadata_file with
    | none => simp
    | some old =>
      simp only [unlink_range_files_eq_some]
      simp [hskipped]

theorem invalidate_metadata_file_eq_some {old : NewCacheMetadata} :
    (invalidate place faults disk).metadata_file = some old ↔
      disk.metadata_file = some old ∧ (faults.not_invalidated = true ∨
        faults.unreadable_at_invalidation = true ∨ faults.metadata_unlink = true) := by
  unfold invalidate
  by_cases hskipped : faults.not_invalidated ∨ faults.unreadable_at_invalidation
  · rw [if_pos hskipped, ← or_assoc]
    exact (and_iff_left (.inl hskipped)).symm
  · rw [if_neg hskipped, ← or_assoc, or_iff_right hskipped]
    cases hfile : disk.metadata_file with
    | none => simp [hfile]
    | some record =>
      cases faults.metadata_unlink with
      | false | true => simp

variable {offsets : List ByteOffset} {specs : List RangeSpec}

theorem move_parts_files {sorted_parts : List CachedPartInfo} {part_files : UInt32 → Option β}
    {range_files range_files' : φ → Option β}
    (hfiles : ∀ offset ∈ offsets, (part_files offset.part_number).isSome)
    (h : completion.move_parts place faults sorted_parts part_files offsets range_files =
      ok (specs, range_files'))
    (target : φ) :
    (∃ offset ∈ offsets, place (completion.new_range_file_path offset) = target ∧
      faults.lost offset.part_number = false ∧
      range_files' target = part_files offset.part_number) ∨
    ((∀ offset ∈ offsets, place (completion.new_range_file_path offset) = target →
      faults.lost offset.part_number = true) ∧ range_files' target = range_files target) := by
  induction offsets generalizing range_files specs with
  | nil =>
    injection h with h
    injection h with _ hsame
    refine .inr ⟨?_, by rw [hsame]⟩
    intro offset hoffset
    cases hoffset
  | cons offset rest ih =>
    obtain ⟨spec, moved, later, hmove, hlater, rfl⟩ := move_parts_cons h
    obtain ⟨-, -, -, hmoved⟩ := move_part_spec hmove
    have hsome := hfiles offset mem_cons_self
    rcases ih (fun o ho => hfiles o (mem_cons_of_mem _ ho)) hlater with
      ⟨o, ho, hplace, hlost, hbytes⟩ | ⟨hnone, hsame⟩
    · exact .inl ⟨o, mem_cons_of_mem _ ho, hplace, hlost, hbytes⟩
    · -- no later part goes there, so this one decides
      by_cases hlost : faults.lost offset.part_number = true
      · rw [if_pos (.inl hlost)] at hmoved
        refine .inr ⟨?_, by rw [hsame, hmoved]⟩
        intro o ho hplace
        rcases mem_cons.mp ho with rfl | ho
        · exact hlost
        · exact hnone o ho hplace
      · have hpresent : ¬ (faults.lost offset.part_number = true ∨
            (part_files offset.part_number).isNone = true) := by
          rintro (hl | hn)
          · exact hlost hl
          · rw [Option.isNone_iff_eq_none.mp hn] at hsome
            cases hsome
        rw [if_neg hpresent] at hmoved
        by_cases hplace : place (completion.new_range_file_path offset) = target
        · -- the last part that goes to the place is the one found there
          refine .inl ⟨offset, mem_cons_self, hplace, by simpa using hlost, ?_⟩
          rw [hsame, hmoved, hplace, Function.update_self]
        · refine .inr ⟨?_, ?_⟩
          · intro o ho hto
            rcases mem_cons.mp ho with rfl | ho
            · exact absurd hto hplace
            · exact hnone o ho hto
          · rw [hsame, hmoved, Function.update_of_ne (Ne.symm hplace)]

/-! ## The condition -/

/-- The place a part's file is moved to. -/
def target (place : FilePath → φ) (completion : Completion β) (offset : ByteOffset) : φ :=
  place (completion.new_range_file_path offset)

/-- Every part reaches its place, and stays. -/
structure Undisturbed (place : FilePath → φ) (completion : Completion β) (faults : Faults)
    (upload : Upload β) (disk : Disk φ β) (offsets : List ByteOffset) : Prop where
  /-- Parts that are given one place hold the same bytes. -/
  agree : ∀ a ∈ offsets, ∀ b ∈ offsets,
    target place completion a = target place completion b →
      upload.part_files a.part_number = upload.part_files b.part_number
  /-- A part's file is still there when it is moved, or its place has the bytes already and the
  invalidation leaves them there. -/
  present : ∀ a ∈ offsets,
    (∃ b ∈ offsets, target place completion b = target place completion a ∧
      faults.lost b.part_number = false) ∨
    (disk.range_files (target place completion a) = upload.part_files a.part_number ∧
      (faults.not_invalidated = false → faults.unreadable_at_invalidation = false →
        ∀ old ∈ disk.metadata_file,
          ¬ Unlinked place faults.unlink_at_invalidation old.ranges (target place completion a)))
  /-- A record that outlasts the invalidation, and can be read, does not name a new place that
  could be unlinked. -/
  spared : ∀ old ∈ disk.metadata_file,
    (faults.not_invalidated = true ∨ faults.unreadable_at_invalidation = true ∨
      faults.metadata_unlink = true) → faults.unreadable_at_deletion = false →
    ∀ a ∈ offsets,
      ¬ Unlinked place faults.unlink_at_deletion old.ranges (target place completion a)

/-- Every range of the record names a file with the bytes of its part. -/
def Backed (place : FilePath → φ) (upload : Upload β) (parts : List CachedPartInfo)
    (record : NewCacheMetadata) (disk' : Disk φ β) : Prop :=
  List.Forall₂ (fun (range : RangeSpec) (part : CachedPartInfo) =>
    ∃ bytes, upload.part_files part.part_number = some bytes ∧
      disk'.range_files (place range.file_path) = some bytes) record.ranges parts

theorem delete_old_files_eq_some {place' : φ} :
    Completion.delete_old_files place faults disk range_files place' = some bytes ↔
      range_files place' = some bytes ∧
        ∀ old, disk.metadata_file = some old → faults.unreadable_at_deletion = false →
          ¬ Unlinked place faults.unlink_at_deletion old.ranges place' := by
  unfold Completion.delete_old_files
  split
  case isTrue hunreadable => simp [hunreadable]
  case isFalse hreadable =>
    cases hold : disk.metadata_file with
    | none => simp
    | some old =>
      simp only [unlink_range_files_eq_some]
      simp [hreadable]

variable {parts : List CachedPartInfo}

theorem backed_offset_iff
    (hfiles : ∀ offset ∈ offsets, (upload.part_files offset.part_number).isSome)
    (hmove : completion.move_parts place faults parts upload.part_files offsets
      (invalidate place faults disk).range_files = ok (specs, range_files)) :
    (∀ a ∈ offsets, ∃ bytes, upload.part_files a.part_number = some bytes ∧
      Completion.delete_old_files place faults (invalidate place faults disk) range_files
        (target place completion a) = some bytes) ↔
      Undisturbed place completion faults upload disk offsets := by
  have hplaces := move_parts_files hfiles hmove
  constructor
  · intro hbacked
    have hheld : ∀ a ∈ offsets,
        range_files (target place completion a) = upload.part_files a.part_number := by
      intro a ha
      obtain ⟨bytes, hpart, hfile⟩ := hbacked a ha
      rw [hpart]
      exact (delete_old_files_eq_some.mp hfile).1
    refine ⟨?_, ?_, ?_⟩
    · -- one place cannot hold two parts that differ
      intro a ha b hb hsame
      rw [← hheld a ha, ← hheld b hb, hsame]
    · intro a ha
      rcases hplaces (target place completion a) with ⟨b, hb, hplace, hlost, -⟩ | ⟨-, hsame⟩
      · exact .inl ⟨b, hb, hplace, hlost⟩
      · -- nothing was moved there, so the bytes are those the invalidation left
        obtain ⟨bytes, hpart⟩ := Option.isSome_iff_exists.mp (hfiles a ha)
        have hthere := (hsame.symm.trans (hheld a ha)).trans hpart
        rw [hpart]
        exact .inr (invalidate_range_files_eq_some.mp hthere)
    · intro old hold houtlasts hreadable a ha
      obtain ⟨bytes, -, hfile⟩ := hbacked a ha
      exact (delete_old_files_eq_some.mp hfile).2 old
        (invalidate_metadata_file_eq_some.mpr ⟨hold, houtlasts⟩) hreadable
  · intro hcond a ha
    obtain ⟨bytes, hpart⟩ := Option.isSome_iff_exists.mp (hfiles a ha)
    refine ⟨bytes, hpart, delete_old_files_eq_some.mpr ⟨?_, ?_⟩⟩
    · rcases hplaces (target place completion a) with ⟨b, hb, hplace, -, hbytes⟩ | ⟨hall, hsame⟩
      · rw [hbytes, ← hpart]
        exact hcond.agree b hb a ha hplace
      · rcases hcond.present a ha with ⟨b, hb, hplace, hlost⟩ | hthere
        · rw [hall b hb hplace] at hlost
          cases hlost
        · rw [hpart] at hthere
          rw [hsame]
          exact invalidate_range_files_eq_some.mpr hthere
    · intro old hold hreadable
      obtain ⟨hbefore, houtlasts⟩ := invalidate_metadata_file_eq_some.mp hold
      exact hcond.spared old hbefore houtlasts hreadable a ha

omit [DecidableEq φ] in
theorem backed_iff_offsets {record : NewCacheMetadata} (hranges : record.ranges = ranges)
    (hspecs : List.Forall₂ (fun (range : RangeSpec) (offset : ByteOffset) =>
      range.file_path = completion.new_range_file_path offset) ranges offsets)
    (hnumbers : offsets.map ByteOffset.part_number = parts.map CachedPartInfo.part_number) :
    Backed place upload parts record disk' ↔
      ∀ a ∈ offsets, ∃ bytes, upload.part_files a.part_number = some bytes ∧
        disk'.range_files (target place completion a) = some bytes := by
  unfold Backed
  rw [hranges]
  clear hranges
  induction hspecs generalizing parts with
  | nil =>
    obtain rfl : parts = [] := by simpa using hnumbers.symm
    simp
  | @cons range offset ranges offsets hpath _ ih =>
    cases parts with
    | nil => cases hnumbers
    | cons part parts =>
      injection hnumbers with hnumber hnumbers
      rw [forall₂_cons, forall_mem_cons, ih hnumbers, hpath, hnumber]
      rfl

/-- **The files behind a published record.** Every range of a published record names a file that
holds the bytes of its part, exactly if every part reaches its place and stays. -/
theorem published_ranges_backed_iff (place : FilePath → φ) (completion : Completion β)
    (faults : Faults) (upload : Upload β) (disk disk' : Disk φ β) (record : NewCacheMetadata)
    (parts : List CachedPartInfo) (offsets : List ByteOffset)
    (hparts : select_parts completion.overflow_checks upload completion.requested_parts =
      some parts)
    (hoffsets : byte_offsets completion.overflow_checks 0 parts = ok offsets)
    (hpublished : completion.finalize_multipart_upload place faults upload disk =
      ok (some (record, disk'))) :
    Backed place upload parts record disk' ↔
      Undisturbed place completion faults upload disk offsets := by
  obtain ⟨parts', offsets', specs, range_files, total_size, hselect, hlaid, hmove, -, rfl, hdisk⟩ :=
    finalize_eq_published hpublished
  obtain rfl : parts = parts' := Option.some.inj (hparts.symm.trans hselect)
  obtain rfl : offsets = offsets' := by
    rw [hoffsets] at hlaid
    injection hlaid
  have hnumbers := byte_offsets_numbers hoffsets
  have hfiles : ∀ offset ∈ offsets, (upload.part_files offset.part_number).isSome := by
    intro offset hoffset
    have hmem : offset.part_number ∈ parts.map CachedPartInfo.part_number :=
      hnumbers ▸ List.mem_map_of_mem hoffset
    obtain ⟨part, hpart, heq⟩ := List.mem_map.mp hmem
    rw [← heq]
    exact (select_parts_eq_some hparts).2 part hpart
  have hspecs : List.Forall₂ (fun (range : RangeSpec) (offset : ByteOffset) =>
      range.file_path = completion.new_range_file_path offset)
      (completion.published_record parts offsets specs total_size).ranges offsets := by
    unfold Completion.published_record
    rw [forall₂_map_left_iff]
    exact (move_parts_specs hmove).imp fun spec offset hspec => hspec.2.2
  rw [backed_iff_offsets rfl hspecs hnumbers, ← backed_offset_iff hfiles hmove, hdisk]

/-! ## The same bytes uploaded again -/

def listed_files (place : FilePath → φ) :
    Outcome String (Option (NewCacheMetadata × Disk φ β)) → Option (List (Option β))
  | ok (some (record, disk)) =>
    some (record.ranges.map fun range => disk.range_files (place range.file_path))
  | _ => none

omit [DecidableEq φ] in
theorem listed_files_eq_some {outcome : Outcome String (Option (NewCacheMetadata × Disk φ β))}
    {files : List (Option β)} (h : listed_files place outcome = some files) :
    ∃ record disk', outcome = ok (some (record, disk')) ∧
      record.ranges.map (fun range => disk'.range_files (place range.file_path)) = files := by
  match outcome, h with
  | ok (some (record, disk')), rfl => exact ⟨record, disk', rfl, rfl⟩

def earlier_upload : Disk FilePath String where
  range_files := fun path =>
    if path = (both_parts false).new_range_file_path ⟨1, 0, 2⟩ then some "part 1"
    else if path = (both_parts false).new_range_file_path ⟨2, 3, 7⟩ then some "part 2"
    else none
  metadata_file := some
    ((both_parts false).published_record [⟨1, 3, "a", .Lz4⟩, ⟨2, 5, "b", .Lz4⟩]
      [⟨1, 0, 2⟩, ⟨2, 3, 7⟩]
      [(both_parts false).range_spec ⟨1, 3, "a", .Lz4⟩ ⟨1, 0, 2⟩ 3,
        (both_parts false).range_spec ⟨2, 5, "b", .Lz4⟩ ⟨2, 3, 7⟩ 5] 8)

/-- The invalidation fails before it reaches the disk, and the deletion of the old files takes the
new ones: the published record names no file that is there. -/
theorem repeated_upload_loses_its_files :
    ∃ record disk', (both_parts false).finalize_multipart_upload id
        { no_faults with not_invalidated := true } (two_parts 3 5) earlier_upload =
        ok (some (record, disk')) ∧
      record.ranges.map (fun range => disk'.range_files range.file_path) = [none, none] ∧
      ¬ Backed id (two_parts 3 5) [⟨1, 3, "\"a\"", .Lz4⟩, ⟨2, 5, "b", .Lz4⟩] record disk' := by
  have hvalue : listed_files id ((both_parts false).finalize_multipart_upload id
      { no_faults with not_invalidated := true } (two_parts 3 5) earlier_upload) =
      some [none, none] := by decide +kernel
  obtain ⟨record, disk', hpublished, hlost⟩ := listed_files_eq_some hvalue
  refine ⟨record, disk', hpublished, hlost, ?_⟩
  intro hbacked
  unfold Backed at hbacked
  generalize record.ranges = ranges at hlost hbacked
  cases hbacked with
  | cons hfirst _ =>
    obtain ⟨bytes, -, hfile⟩ := hfirst
    rw [map_cons] at hlost
    injection hlost with hgone _
    rw [hgone] at hfile
    cases hfile

/-- With an invalidation that works, the same upload keeps its files. -/
theorem repeated_upload_keeps_its_files :
    ∃ record disk', (both_parts false).finalize_multipart_upload id no_faults (two_parts 3 5)
        earlier_upload = ok (some (record, disk')) ∧
      Backed id (two_parts 3 5) [⟨1, 3, "\"a\"", .Lz4⟩, ⟨2, 5, "b", .Lz4⟩] record disk' := by
  have hvalue : listed_files id ((both_parts false).finalize_multipart_upload id no_faults
      (two_parts 3 5) earlier_upload) = some [some "part 1", some "part 2"] := by decide +kernel
  obtain ⟨record, disk', hpublished, -⟩ := listed_files_eq_some hvalue
  refine ⟨record, disk', hpublished, ?_⟩
  refine (published_ranges_backed_iff id (both_parts false) no_faults (two_parts 3 5)
    earlier_upload disk' record [⟨1, 3, "\"a\"", .Lz4⟩, ⟨2, 5, "b", .Lz4⟩] [⟨1, 0, 2⟩, ⟨2, 3, 7⟩]
    (by decide +kernel) (by decide +kernel) hpublished).mpr ⟨?_, ?_, ?_⟩
  · decide +kernel
  · intro a ha
    exact .inl ⟨a, ha, rfl, rfl⟩
  · intro old _ houtlasts
    rcases houtlasts with h | h | h <;> cases h

end HybridCache.Multipart
