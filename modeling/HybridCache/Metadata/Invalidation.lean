/-
Invalidation of a cached object (`invalidate_cache_hierarchy` in `cache.rs`) against its sibling
that retires the ranges of a record (`remove_range_files` and `debit_removed_ranges`).

Both unlink the files that are there. The sibling debits the ranges it removed; invalidation
forgets what each unlink said, debits every range of the record, and then deletes the `.meta`. A key
that is uploaded again retires its old ranges, unless the new body is empty. `π` are the resolved
paths of range files.
-/
import HybridCache.Metadata.Record
import HybridCache.SizeTracking.Accumulator

namespace HybridCache.Metadata

open SizeTracking List

variable {ω π : Type} [DecidableEq π]

/-! ## The unlinks -/

inductive UnlinkAttempt where
  | removed
  | taken
  | failed
deriving DecidableEq, Repr

/-- What a walk over range files leaves behind. -/
structure Unlinked (π : Type) where
  removed : List (RangeSpec π)
  failed : ℕ
  on_disk : Finset π

/-- Unlink the files of some ranges in order; `attempt i` is what the unlink at position `i`
meets, should its file be there. -/
def unlink_range_files (attempt : ℕ → UnlinkAttempt) (ranges : List (RangeSpec π))
    (on_disk : Finset π) : Unlinked π :=
  match ranges with
  | [] => ⟨[], 0, on_disk⟩
  | range_spec :: rest =>
    if range_spec.file_path ∉ on_disk then
      unlink_range_files (fun i => attempt (i + 1)) rest on_disk
    else
      match attempt 0 with
      | .removed =>
        let out := unlink_range_files (fun i => attempt (i + 1)) rest
          (on_disk.erase range_spec.file_path)
        { out with removed := range_spec :: out.removed }
      | .taken =>
        let out := unlink_range_files (fun i => attempt (i + 1)) rest
          (on_disk.erase range_spec.file_path)
        { out with failed := out.failed + 1 }
      | .failed =>
        let out := unlink_range_files (fun i => attempt (i + 1)) rest on_disk
        { out with failed := out.failed + 1 }

/-- Every file is there, no two ranges share one, and every unlink succeeds. -/
def AllRemovable (attempt : ℕ → UnlinkAttempt) (ranges : List (RangeSpec π))
    (on_disk : Finset π) : Prop :=
  (∀ range ∈ ranges, range.file_path ∈ on_disk) ∧ (ranges.map RangeSpec.file_path).Nodup ∧
    ∀ i < ranges.length, attempt i = .removed

instance (attempt : ℕ → UnlinkAttempt) (ranges : List (RangeSpec π)) (on_disk : Finset π) :
    Decidable (AllRemovable attempt ranges on_disk) :=
  inferInstanceAs (Decidable (_ ∧ _ ∧ _))

section Walk

variable {attempt : ℕ → UnlinkAttempt} {range : RangeSpec π} {ranges : List (RangeSpec π)}
  {on_disk : Finset π}

theorem unlink_range_files_cons_of_removed (hmem : range.file_path ∈ on_disk)
    (h : attempt 0 = .removed) :
    (unlink_range_files attempt (range :: ranges) on_disk).removed =
      range :: (unlink_range_files (fun i => attempt (i + 1)) ranges
        (on_disk.erase range.file_path)).removed := by
  rw [unlink_range_files, if_neg (not_not.mpr hmem), h]

theorem unlink_range_files_within (attempt : ℕ → UnlinkAttempt) (ranges : List (RangeSpec π))
    (on_disk : Finset π) :
    (unlink_range_files attempt ranges on_disk).on_disk ⊆ on_disk ∧
      (unlink_range_files attempt ranges on_disk).removed.Sublist ranges := by
  induction ranges generalizing attempt on_disk with
  | nil => exact ⟨Finset.Subset.refl _, .refl _⟩
  | cons range rest ih =>
    unfold unlink_range_files
    split
    · exact (ih _ _).imp_right (.cons _)
    · split
      · exact (ih _ _).imp (·.trans (Finset.erase_subset _ _)) (.cons_cons _)
      · exact (ih _ _).imp (·.trans (Finset.erase_subset _ _)) (.cons _)
      · exact (ih _ _).imp_right (.cons _)

theorem notMem_on_disk_of_failed_eq_zero
    (h : (unlink_range_files attempt ranges on_disk).failed = 0) (hr : range ∈ ranges) :
    range.file_path ∉ (unlink_range_files attempt ranges on_disk).on_disk := by
  induction ranges generalizing attempt on_disk with
  | nil => cases hr
  | cons head rest ih =>
    unfold unlink_range_files at h ⊢
    split at h
    · rename_i habsent
      rw [if_pos habsent]
      rcases mem_cons.mp hr with rfl | hr
      · exact fun hmem => habsent ((unlink_range_files_within _ _ _).1 hmem)
      · exact ih h hr
    · rename_i hthere
      rw [if_neg hthere]
      split at h
      · rcases mem_cons.mp hr with rfl | hr
        · intro hmem
          exact Finset.notMem_erase _ _ ((unlink_range_files_within _ _ _).1 hmem)
        · exact ih h hr
      all_goals exact absurd h (Nat.succ_ne_zero _)

theorem removed_ne_of_skipped :
    (unlink_range_files attempt ranges on_disk).removed ≠ range :: ranges := by
  intro h
  have hlen := (unlink_range_files_within attempt ranges on_disk).2.length_le
  rw [h, length_cons] at hlen
  omega

theorem allRemovable_cons_iff :
    AllRemovable attempt (range :: ranges) on_disk ↔
      range.file_path ∈ on_disk ∧ attempt 0 = .removed ∧
        AllRemovable (fun i => attempt (i + 1)) ranges (on_disk.erase range.file_path) := by
  unfold AllRemovable
  rw [map_cons, nodup_cons, length_cons, Nat.forall_lt_succ_left, forall_mem_cons]
  constructor
  · rintro ⟨⟨hmem, hall⟩, ⟨hfirst, hnodup⟩, hzero, hsucc⟩
    refine ⟨hmem, hzero, fun r hr => Finset.mem_erase.mpr ⟨?_, hall r hr⟩, hnodup, hsucc⟩
    exact fun heq => hfirst (heq ▸ mem_map_of_mem hr)
  · rintro ⟨hmem, hzero, hall, hnodup, hsucc⟩
    refine ⟨⟨hmem, fun r hr => Finset.mem_of_mem_erase (hall r hr)⟩, ⟨?_, hnodup⟩, hzero, hsucc⟩
    intro hin
    obtain ⟨r, hr, heq⟩ := List.mem_map.mp hin
    exact Finset.ne_of_mem_erase (hall r hr) heq

theorem removed_eq_iff_allRemovable :
    (unlink_range_files attempt ranges on_disk).removed = ranges ↔
      AllRemovable attempt ranges on_disk := by
  induction ranges generalizing attempt on_disk with
  | nil => simp [unlink_range_files, AllRemovable]
  | cons range rest ih =>
    rw [allRemovable_cons_iff]
    by_cases hmem : range.file_path ∈ on_disk
    · cases hattempt : attempt 0 with
      | removed =>
        rw [unlink_range_files_cons_of_removed hmem hattempt, cons_inj_right, ih]
        simp [hmem]
      | taken | failed =>
        rw [unlink_range_files, if_neg (not_not.mpr hmem), hattempt]
        simp [removed_ne_of_skipped]
    · rw [unlink_range_files, if_pos hmem]
      simp [removed_ne_of_skipped, hmem]

theorem failed_eq_zero_of_removed (h : ∀ i < ranges.length, attempt i = .removed) :
    (unlink_range_files attempt ranges on_disk).failed = 0 := by
  induction ranges generalizing attempt on_disk with
  | nil => rfl
  | cons range rest ih =>
    rw [length_cons, Nat.forall_lt_succ_left] at h
    rw [unlink_range_files, h.1]
    split <;> exact ih h.2

end Walk

/-! ## The two callers -/

section Callers

variable (range_file_id : RangeSpec π → RangeId) (in_progress : π → Bool)

omit [DecidableEq π] in
/-- `subtract_range_file`, and `subtract_write_cache` for a staged range. -/
def debit_range (is_write_cached : Bool) (a : SizeAccumulator) (range_spec : RangeSpec π) :
    SizeAccumulator :=
  let a := (a.subtract_range_id (range_file_id range_spec) range_spec.compressed_size).1
  if is_staged_range_spec in_progress range_spec is_write_cached then
    a.subtract_write_cache range_spec.compressed_size
  else a

/-- What an invalidation leaves behind. -/
structure Invalidated (π : Type) where
  removed : List (RangeSpec π)
  debited : List (RangeSpec π)
  size_accumulator : SizeAccumulator
  meta_deleted : Bool
  on_disk : Finset π

/-- What an invalidation meets: the unlinks of the range files and that of the `.meta`. -/
structure InvalidationRun where
  attempt : ℕ → UnlinkAttempt
  meta_unlinked : Bool

/-- `invalidate_cache_hierarchy` for a whole object; `file` is `none` for a `.meta` that is absent
or cannot be read. -/
def invalidate_cache_hierarchy (run : InvalidationRun) (file : Option (NewCacheMetadata ω π))
    (on_disk : Finset π) (a : SizeAccumulator) : Invalidated π :=
  match file with
  | none => ⟨[], [], a, false, on_disk⟩
  | some new_metadata =>
    -- a failed unlink is logged and forgotten
    let out := unlink_range_files run.attempt new_metadata.ranges on_disk
    { removed := out.removed
      debited := new_metadata.ranges
      size_accumulator := new_metadata.ranges.foldl
        (debit_range range_file_id in_progress new_metadata.is_write_cached) a
      meta_deleted := run.meta_unlinked
      on_disk := out.on_disk }

/-- `remove_range_files` followed by `debit_removed_ranges`: the walk's own result is debited,
and the number of failures handed to the caller. -/
def retire_range_files (attempt : ℕ → UnlinkAttempt) (metadata : NewCacheMetadata ω π)
    (on_disk : Finset π) (a : SizeAccumulator) : Invalidated π × ℕ :=
  let out := unlink_range_files attempt metadata.ranges on_disk
  ({ removed := out.removed
     debited := out.removed
     size_accumulator := out.removed.foldl
       (debit_range range_file_id in_progress metadata.is_write_cached) a
     meta_deleted := false
     on_disk := out.on_disk }, out.failed)

end Callers

/-- Accounts and disk agree: what was subtracted is what was removed, and a deleted `.meta`
leaves no file behind that it named. -/
def Invalidated.InStep (out : Invalidated π) (file : Option (NewCacheMetadata ω π)) : Prop :=
  out.debited = out.removed ∧
    (out.meta_deleted = true → ∀ metadata ∈ file, ∀ range ∈ metadata.ranges,
      range.file_path ∉ out.on_disk)

section Results

variable (range_file_id : RangeSpec π → RangeId) (in_progress : π → Bool)

omit [DecidableEq π] in
theorem foldl_debit_range_delta (is_write_cached : Bool) (a : SizeAccumulator)
    (ranges : List (RangeSpec π)) :
    (ranges.foldl (debit_range range_file_id in_progress is_write_cached) a).delta =
      a.delta - (ranges.map RangeSpec.compressed_size).sum := by
  apply SizeAccumulator.delta_foldl_debit
  intro a range
  unfold debit_range
  split <;> rfl

/-- **Invalidation and disk.** An invalidation keeps accounts and disk in step exactly if every
file its record names is there, is named once, and can be unlinked. -/
theorem invalidation_in_step_iff (run : InvalidationRun) (file : Option (NewCacheMetadata ω π))
    (on_disk : Finset π) (a : SizeAccumulator) :
    (invalidate_cache_hierarchy range_file_id in_progress run file on_disk a).InStep file ↔
      ∀ metadata ∈ file, AllRemovable run.attempt metadata.ranges on_disk := by
  cases file with
  | none => simp [invalidate_cache_hierarchy, Invalidated.InStep]
  | some metadata =>
    simp only [Option.mem_some_iff, forall_eq']
    constructor
    · rintro ⟨hdebited, -⟩
      exact removed_eq_iff_allRemovable.mp hdebited.symm
    · intro h
      refine ⟨(removed_eq_iff_allRemovable.mpr h).symm, fun _ m hm range hr => ?_⟩
      cases hm
      exact notMem_on_disk_of_failed_eq_zero (failed_eq_zero_of_removed h.2.2) hr

end Results

/-- One unlink fails: its 10 bytes are subtracted, and the `.meta` goes while the file stays. -/
theorem invalidation_orphans_a_file :
    let out := invalidate_cache_hierarchy (fun _ => (0, 0, 9)) (fun _ => false)
      ⟨fun _ => .failed, true⟩ (some (uploaded "a" 10)) {"a"} SizeAccumulator.new
    out.removed = [] ∧ out.size_accumulator.delta = -10 ∧ out.meta_deleted = true ∧
      out.on_disk = {"a"} ∧ ¬ out.InStep (some (uploaded "a" 10)) := by
  refine ⟨by decide, by decide, rfl, by decide, ?_⟩
  rintro ⟨h, -⟩
  exact absurd h (by decide)

/-! ## Uploading a key again -/

section Reupload

variable (range_file_id : RangeSpec π → RangeId) (in_progress : π → Bool)

/-- `store_put_as_write_cached_range_with_ttl`, up to the new record, where every unlink succeeds:
the ranges of that record, and what became of the old one, `file`. The credit of the new range is
left out. -/
def store_put_as_write_cached_range_with_ttl (content_length : ℕ) (range_spec : RangeSpec π)
    (file : Option (NewCacheMetadata ω π)) (on_disk : Finset π) (a : SizeAccumulator) :
    List (RangeSpec π) × Invalidated π :=
  -- an empty body returns before the old ranges are looked at
  if content_length = 0 then ([], ⟨[], [], a, false, on_disk⟩)
  else
    let out := file.elim ⟨[], [], a, false, on_disk⟩ fun existing_metadata =>
      (retire_range_files range_file_id in_progress (fun _ => .removed) existing_metadata
        on_disk a).1
    ([range_spec], { out with on_disk := insert range_spec.file_path out.on_disk })

/-- Every range file of the old record that the new one does not name is gone, and has been
subtracted once. -/
def Released (file : Option (NewCacheMetadata ω π)) (on_disk : Finset π)
    (out : List (RangeSpec π) × Invalidated π) : Prop :=
  ∀ metadata ∈ file, ∀ range ∈ metadata.ranges, range.file_path ∈ on_disk →
    range.file_path ∉ out.1.map RangeSpec.file_path →
      range.file_path ∉ out.2.on_disk ∧
        (out.2.debited.map RangeSpec.file_path).count range.file_path = 1

theorem count_removed (ranges : List (RangeSpec π)) (on_disk : Finset π) (path : π) :
    ((unlink_range_files (fun _ => .removed) ranges on_disk).removed.map
      RangeSpec.file_path).count path =
        if path ∈ on_disk ∧ path ∈ ranges.map RangeSpec.file_path then 1 else 0 := by
  induction ranges generalizing on_disk with
  | nil => simp [unlink_range_files]
  | cons range rest ih =>
    rw [unlink_range_files]
    by_cases hthere : range.file_path ∈ on_disk
    · rw [if_neg (not_not.mpr hthere)]
      grind
    · rw [if_pos hthere, ih]
      grind

/-- **A re-upload releases what it replaces** if and only if it has a body, or none of the files of
the old record is there. The debits are those of the accumulator. -/
theorem reupload_releases_iff (content_length : ℕ) (range_spec : RangeSpec π)
    (file : Option (NewCacheMetadata ω π)) (on_disk : Finset π) (a : SizeAccumulator) :
    let out := store_put_as_write_cached_range_with_ttl range_file_id in_progress content_length
      range_spec file on_disk a
    (Released file on_disk out ↔ content_length ≠ 0 ∨
      ∀ metadata ∈ file, ∀ range ∈ metadata.ranges, range.file_path ∉ on_disk) ∧
    out.2.size_accumulator.delta =
      a.delta - (out.2.debited.map RangeSpec.compressed_size).sum := by
  intro out
  by_cases hempty : content_length = 0
  · have hout : out = ([], ⟨[], [], a, false, on_disk⟩) := if_pos hempty
    rw [hout]
    simp [Released, hempty]
  · have hout : out = _ := if_neg hempty
    rw [hout, iff_true_right (.inl hempty)]
    cases file with
    | none => simp [Released]
    | some metadata =>
      refine ⟨?_, foldl_debit_range_delta _ _ _ _ _⟩
      rintro _ ⟨⟩ range hr hthere hother
      have hcount := count_removed metadata.ranges on_disk range.file_path
      rw [if_pos ⟨hthere, mem_map_of_mem hr⟩] at hcount
      refine ⟨?_, hcount⟩
      rw [Finset.mem_insert, not_or]
      exact ⟨by simpa using hother,
        notMem_on_disk_of_failed_eq_zero (failed_eq_zero_of_removed fun _ _ => rfl) hr⟩

end Reupload

/-- An object of 10 bytes is uploaded again without a body: its file stays, and so do its bytes. -/
theorem empty_reupload_keeps_old_file :
    let out := store_put_as_write_cached_range_with_ttl (fun _ => (0, 0, 9)) (fun _ => false) 0
      ⟨0, 0, "b", 0, none⟩ (some (uploaded "a" 10)) {"a"} SizeAccumulator.new
    out.1 = [] ∧ out.2.on_disk = {"a"} ∧ out.2.size_accumulator.delta = 0 := by
  exact ⟨rfl, rfl, rfl⟩

end HybridCache.Metadata
