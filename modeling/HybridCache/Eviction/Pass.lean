/-
The deletions of an eviction pass and their accounting (`perform_eviction_with_lock` and
`batch_evict_range_files` in `cache.rs`, `batch_delete_ranges` in `disk_cache.rs`,
`write_eviction_journal_entries` in `journal_consolidator.rs`).

All chosen objects are deleted concurrently. One loop then goes over the results as they arrived
and stops once enough bytes are freed or the fence is lost; only what it has seen is debited and
journaled. What the file system and the other instances do is an input. `κ` are cache keys and `π`
file paths.
-/
import HybridCache.Eviction.Candidates
import HybridCache.Metadata.Record
import HybridCache.SizeTracking.Accumulator

namespace HybridCache.Eviction

open Lib Metadata SizeTracking List

variable {κ π : Type}

/-! ## Deleting the ranges of one object -/

/-- What a `.meta` file says about its ranges. -/
structure ObjectRecord (π : Type) where
  is_write_cached : Bool
  ranges : List (RangeSpec π)

inductive RangeUnlinkOutcome where
  | Unlinked
  | AlreadyAbsent
  | Failed
deriving DecidableEq, Repr

/-- `BatchRangeDeletion`, without the paths it hands on for directory cleanup. -/
structure BatchRangeDeletion (π : Type) where
  bytes_freed : ℕ
  all_ranges_evicted : Bool
  unlinked_ranges : List (RangeSpec π)
  retained_extents : List (ℕ × ℕ)
deriving DecidableEq, Repr

/-- What one object's deletion meets. -/
structure ObjectRun (π : Type) where
  fence_held : Bool
  in_use : Bool
  write_lock_acquired : Bool
  metadata_exists : Bool
  metadata_lock_acquired : Bool
  record : Option (ObjectRecord π)
  file_size : RangeSpec π → Option ℕ
  unlink : RangeSpec π → RangeUnlinkOutcome
  /-- The order in which the unlinks of this object complete. -/
  completion : List (RangeSpec π × RangeUnlinkOutcome) → List (RangeSpec π × RangeUnlinkOutcome)
  metadata_written : Bool
  completion_perm : ∀ results, (completion results).Perm results

section Deletion

variable (in_progress is_safe_relative_file_path : π → Bool)

def delete_task (run : ObjectRun π) (record : ObjectRecord π) (range : RangeSpec π) :
    RangeSpec π × RangeUnlinkOutcome :=
  ({ range with
      staged := some (is_staged_range_spec in_progress range record.is_write_cached)
      compressed_size := (run.file_size range).getD 0 }, run.unlink range)

def delete_results (run : ObjectRun π) (record : ObjectRecord π) (extents : List (ℕ × ℕ)) :
    List (RangeSpec π × RangeUnlinkOutcome) :=
  run.completion ((record.ranges.filter fun r =>
    decide ((r.start, r.end_) ∈ extents) && is_safe_relative_file_path r.file_path).map
      (delete_task in_progress run record))

def with_outcome (results : List (RangeSpec π × RangeUnlinkOutcome))
    (outcome : RangeUnlinkOutcome) : List (RangeSpec π) :=
  (results.filter fun r => r.2 = outcome).map Prod.fst

def extent (range : RangeSpec π) : ℕ × ℕ :=
  (range.start, range.end_)

/-- `batch_delete_ranges`: the files that left the disk, and what it returns (`none` for an
error). An error after the unlinks forgets them. -/
def batch_delete_ranges (run : ObjectRun π) (ranges_to_delete : List (ℕ × ℕ)) :
    List (RangeSpec π) × Option (BatchRangeDeletion π) :=
  if ranges_to_delete = [] ∨ run.metadata_exists = false then ([], some ⟨0, false, [], []⟩)
  else if run.metadata_lock_acquired = false then ([], none)
  else
    match run.record with
    | none => ([], none)
    | some record =>
      let results := delete_results in_progress is_safe_relative_file_path
        run record ranges_to_delete
      let unlinked_ranges := with_outcome results .Unlinked
      let ranges_deleted := (unlinked_ranges ++ with_outcome results .AlreadyAbsent).map extent
      let retained_extents := (with_outcome results .Failed).map extent
      let remaining := record.ranges.filter fun r => extent r ∉ ranges_deleted
      let all_ranges_evicted := remaining.isEmpty && retained_extents.isEmpty
      (unlinked_ranges,
        if all_ranges_evicted || run.metadata_written then
          some ⟨(unlinked_ranges.map RangeSpec.compressed_size).sum, all_ranges_evicted,
            unlinked_ranges, retained_extents⟩
        else none)

/-! ## One object of a pass -/

/-- `EvictedRange`: one debit and one journal entry to make. -/
structure EvictedRange (κ π : Type) where
  cache_key : κ
  start : ℕ
  end_ : ℕ
  size : ℕ
  bin_path : π
  compressed_size : ℕ
  staged : Option Bool
deriving DecidableEq, Repr

def EvictedRange.of (cache_key : κ) (range : RangeSpec π) : EvictedRange κ π :=
  ⟨cache_key, range.start, range.end_, range.compressed_size, range.file_path,
    range.compressed_size, range.staged⟩

/-- An object's deletion, once it is over: what left the disk, and the result it hands back. -/
structure ObjectOutcome (κ π : Type) where
  unlinked : List (EvictedRange κ π)
  result : Option (ℕ × List (EvictedRange κ π))
deriving DecidableEq, Repr

def evict_object (run : ObjectRun π) (cache_key : κ) (ranges : List (RangeEvictionCandidate κ)) :
    ObjectOutcome κ π :=
  if run.fence_held = false then ⟨[], none⟩
  else if run.in_use then ⟨[], none⟩
  else if ranges = [] then ⟨[], some (0, [])⟩
  else if run.write_lock_acquired = false then ⟨[], none⟩
  else
    let (unlinked, deletion) := batch_delete_ranges in_progress
      is_safe_relative_file_path run (ranges.map fun r => (r.range_start, r.range_end))
    ⟨unlinked.map (EvictedRange.of cache_key),
      deletion.map fun d => (d.bytes_freed, d.unlinked_ranges.map (EvictedRange.of cache_key))⟩

end Deletion

/-! ## The loop over the results -/

/-- The aggregation loop: the bytes freed and the ranges to account for. The fence is
verified once for each result looked at; `seen` counts them. -/
def aggregate (bytes_to_free : ℕ) (fence : ℕ → Bool) :
    ℕ → ℕ → List (ℕ × List (EvictedRange κ π)) → ℕ × List (EvictedRange κ π)
  | _, total_bytes_freed, [] => (total_bytes_freed, [])
  | seen, total_bytes_freed, (bytes_freed, unlinked_ranges) :: rest =>
    if total_bytes_freed ≥ bytes_to_free then (total_bytes_freed, [])
    else if fence seen = false then (total_bytes_freed, [])
    else
      let (freed, evicted) :=
        aggregate bytes_to_free fence (seen + 1) (total_bytes_freed + bytes_freed) rest
      (freed, unlinked_ranges ++ evicted)

def debit_range (in_progress : π → Bool) (range_file_id : EvictedRange κ π → RangeId)
    (a : SizeAccumulator) (evicted : EvictedRange κ π) : SizeAccumulator :=
  let a := (a.subtract_range_id (range_file_id evicted) evicted.compressed_size).1
  if is_staged_range_parts in_progress evicted.staged evicted.bin_path false then
    a.subtract_write_cache evicted.compressed_size
  else a

structure RemoveEntry (κ π : Type) where
  cache_key : κ
  start : ℕ
  end_ : ℕ
  size : ℕ
  bin_file_path : π
deriving DecidableEq, Repr

def EvictedRange.remove_entry (evicted : EvictedRange κ π) : RemoveEntry κ π :=
  ⟨evicted.cache_key, evicted.start, evicted.end_, evicted.size, evicted.bin_path⟩

open ObjectOutcome

section Pass

variable [DecidableEq κ]

/-- `write_eviction_journal_entries`: one append for each key, which may fail. -/
def write_eviction_journal_entries (append_succeeds : κ → Bool)
    (evicted_ranges : List (EvictedRange κ π)) : List (RemoveEntry κ π) :=
  (group_by RemoveEntry.cache_key (evicted_ranges.map EvictedRange.remove_entry)).flatMap
    fun g => if append_succeeds g.1 then g.2 else []

/-- What a pass meets. -/
structure PassRun (κ π : Type) where
  objects : κ → ObjectRun π
  /-- The order in which the deletions of the objects complete. -/
  arrival : List (ObjectOutcome κ π) → List (ObjectOutcome κ π)
  fence : ℕ → Bool
  append_succeeds : κ → Bool
  arrival_perm : ∀ outcomes, (arrival outcomes).Perm outcomes

/-- What a pass does: the files that left the disk, the debits and the journal entries it
made, and the bytes it reports. -/
structure PassResult (κ π : Type) where
  unlinked : List (EvictedRange κ π)
  debited : List (EvictedRange κ π)
  accumulator : SizeAccumulator
  journal : List (RemoveEntry κ π)
  total_bytes_freed : ℕ

variable (in_progress is_safe_relative_file_path : π → Bool)
  (range_file_id : EvictedRange κ π → RangeId)

def outcomes (run : PassRun κ π) (candidates : List (RangeEvictionCandidate κ))
    (bytes_to_free : ℕ) : List (ObjectOutcome κ π) :=
  run.arrival ((group_candidates_by_object candidates bytes_to_free).map fun g =>
    evict_object in_progress is_safe_relative_file_path (run.objects g.1) g.1 g.2)

/-- `perform_eviction_with_lock`, from the sorted candidates on. -/
def perform_eviction_with_lock (run : PassRun κ π) (a : SizeAccumulator)
    (candidates : List (RangeEvictionCandidate κ)) (bytes_to_free : ℕ) : PassResult κ π :=
  let object_outcomes := outcomes in_progress is_safe_relative_file_path run
    candidates bytes_to_free
  let (freed, evicted) :=
    aggregate bytes_to_free run.fence 0 0 (object_outcomes.filterMap result)
  { unlinked := object_outcomes.flatMap unlinked
    debited := evicted
    accumulator := evicted.foldl (debit_range in_progress range_file_id) a
    journal := write_eviction_journal_entries run.append_succeeds evicted
    total_bytes_freed := freed }

end Pass

/-! ## What the loop sees -/

/-- The ranges an object hands back are those that left the disk. -/
def ObjectOutcome.Consistent (o : ObjectOutcome κ π) : Prop :=
  ∀ bytes_freed ranges, o.result = some (bytes_freed, ranges) → ranges = o.unlinked

def freed (outcomes : List (ObjectOutcome κ π)) : ℕ :=
  (outcomes.map fun o => o.result.elim 0 Prod.fst).sum

def returned (outcomes : List (ObjectOutcome κ π)) : ℕ :=
  (outcomes.filterMap result).length

/-- Every object that lost a file handed back a result, and the loop gets to it: the results
before it free less than the target, and the fence holds up to it. -/
def AllSeen (bytes_to_free : ℕ) (fence : ℕ → Bool) (seen total : ℕ)
    (outcomes : List (ObjectOutcome κ π)) : Prop :=
  ∀ before o after, outcomes = before ++ o :: after → o.unlinked ≠ [] →
    o.result ≠ none ∧ total + freed before < bytes_to_free ∧
      ∀ n ≤ returned before, fence (seen + n) = true

section Loop

variable {bytes_to_free : ℕ} {fence : ℕ → Bool} {rest : List (ObjectOutcome κ π)}
  {o : ObjectOutcome κ π} {seen total : ℕ}

theorem allSeen_cons :
    AllSeen bytes_to_free fence seen total (o :: rest) ↔
      (o.unlinked ≠ [] → o.result ≠ none ∧ total < bytes_to_free ∧ fence seen = true) ∧
      ∀ before p after, rest = before ++ p :: after → p.unlinked ≠ [] →
        p.result ≠ none ∧ total + freed (o :: before) < bytes_to_free ∧
          ∀ n ≤ returned (o :: before), fence (seen + n) = true := by
  constructor
  · intro h
    refine ⟨fun hne => ?_, fun before p after hsplit hne => ?_⟩
    · obtain ⟨hres, hlt, hfence⟩ := h [] o rest rfl hne
      exact ⟨hres, by simpa [freed] using hlt, by simpa using hfence 0 (Nat.zero_le _)⟩
    · exact h (o :: before) p after (by rw [hsplit, cons_append]) hne
  · rintro ⟨hhead, htail⟩ before p after hsplit hne
    cases before with
    | nil =>
      obtain ⟨rfl, rfl⟩ : o = p ∧ rest = after := by simpa using hsplit
      obtain ⟨hres, hlt, hfence⟩ := hhead hne
      refine ⟨hres, by simpa [freed] using hlt, fun n hn => ?_⟩
      obtain rfl : n = 0 := by simpa [returned] using hn
      exact hfence
    | cons q before =>
      obtain ⟨rfl, hrest⟩ : o = q ∧ rest = before ++ p :: after := by simpa using hsplit
      exact htail before p after hrest hne

variable {outcomes : List (ObjectOutcome κ π)}

theorem forall_unlinked_eq_nil :
    outcomes.flatMap unlinked = [] ↔
      ∀ before p after, outcomes = before ++ p :: after → p.unlinked = [] := by
  rw [flatMap_eq_nil_iff]
  constructor
  · intro h before p after hsplit
    exact h p (by rw [hsplit]; simp)
  · intro h o ho
    obtain ⟨before, after, hsplit⟩ := append_of_mem ho
    exact h before o after hsplit

theorem aggregate_sublist (bytes_to_free : ℕ) (fence : ℕ → Bool) (seen total : ℕ)
    (hcons : ∀ o ∈ outcomes, o.Consistent) :
    ((aggregate bytes_to_free fence seen total
      (outcomes.filterMap result)).2).Sublist
      (outcomes.flatMap unlinked) := by
  induction outcomes generalizing seen total with
  | nil => exact List.Sublist.refl _
  | cons o rest ih =>
    have hrest : ∀ o ∈ rest, o.Consistent := fun o ho => hcons o (mem_cons_of_mem _ ho)
    cases hres : o.result with
    | none =>
      rw [filterMap_cons_none hres]
      exact (ih seen total hrest).trans (sublist_append_right _ _)
    | some r =>
      obtain ⟨bytes_freed, ranges⟩ := r
      rw [filterMap_cons_some hres, aggregate]
      split
      · exact nil_sublist _
      · split
        · exact nil_sublist _
        · rw [hcons o mem_cons_self bytes_freed ranges hres]
          exact (List.Sublist.refl _).append (ih _ _ hrest)

theorem freed_cons : freed (o :: outcomes) = o.result.elim 0 Prod.fst + freed outcomes := by
  rw [freed, map_cons, sum_cons, freed]

theorem stopped_iff (hstop : bytes_to_free ≤ total ∨ fence seen = false) :
    [] = o.unlinked ++ rest.flatMap unlinked ↔
      AllSeen bytes_to_free fence seen total (o :: rest) := by
  have hnot : ¬ (total < bytes_to_free ∧ fence seen = true) := by
    rintro ⟨hlt, hfence⟩
    rcases hstop with hle | hfalse
    · omega
    · rw [hfence] at hfalse
      cases hfalse
  rw [allSeen_cons, eq_comm, append_eq_nil_iff, forall_unlinked_eq_nil]
  refine and_congr ?_ ?_
  · exact ⟨fun hnil hne => absurd hnil hne, fun h => by_contra fun hne => hnot (h hne).2⟩
  · refine forall_congr' fun before => forall_congr' fun p => forall_congr' fun after =>
      imp_congr_right fun _ => ?_
    refine ⟨fun hnil hne => absurd hnil hne, fun h => by_contra fun hne => ?_⟩
    obtain ⟨-, hlt, hfence⟩ := h hne
    exact hnot ⟨by omega, by simpa using hfence 0 (Nat.zero_le _)⟩

theorem allSeen_cons_none (hres : o.result = none) :
    AllSeen bytes_to_free fence seen total (o :: rest) ↔
      o.unlinked = [] ∧ AllSeen bytes_to_free fence seen total rest := by
  have hfreed : ∀ before : List (ObjectOutcome κ π), freed (o :: before) = freed before := by
    intro before
    rw [freed_cons, hres, Option.elim_none, zero_add]
  have hreturned : ∀ before : List (ObjectOutcome κ π),
      returned (o :: before) = returned before := by
    intro before
    rw [returned, filterMap_cons_none hres, returned]
  rw [allSeen_cons]
  simp only [hfreed, hreturned, hres]
  refine and_congr ?_ Iff.rfl
  exact ⟨fun h => by_contra fun hne => (h hne).1 rfl, fun hnil hne => absurd hnil hne⟩

theorem allSeen_cons_some {seen total bytes_freed : ℕ} {ranges : List (EvictedRange κ π)}
    (hres : o.result = some (bytes_freed, ranges)) (hlt : total < bytes_to_free)
    (hfence : fence seen = true) :
    AllSeen bytes_to_free fence seen total (o :: rest) ↔
      AllSeen bytes_to_free fence (seen + 1) (total + bytes_freed) rest := by
  have hfreed : ∀ before : List (ObjectOutcome κ π),
      total + freed (o :: before) = total + bytes_freed + freed before := by
    intro before
    rw [freed_cons, hres, Option.elim_some]
    omega
  have hreturned : ∀ before : List (ObjectOutcome κ π),
      returned (o :: before) = returned before + 1 := by
    intro before
    rw [returned, filterMap_cons_some hres, length_cons, returned]
  have hverified : ∀ k, (∀ n ≤ k + 1, fence (seen + n) = true) ↔
      ∀ n ≤ k, fence (seen + 1 + n) = true := by
    intro k
    constructor
    · intro h n hn
      have := h (n + 1) (by omega)
      rwa [show seen + 1 + n = seen + (n + 1) by omega]
    · intro h n hn
      cases n with
      | zero => exact hfence
      | succ n =>
        rw [show seen + (n + 1) = seen + 1 + n by omega]
        exact h n (by omega)
  rw [allSeen_cons, and_iff_right fun _ => ⟨by simp [hres], hlt, hfence⟩]
  simp only [hfreed, hreturned, hverified]
  rfl

/-- **The loop accounts for every file exactly if it sees every object that lost one.** -/
theorem aggregate_eq_iff (seen total : ℕ) (hcons : ∀ o ∈ outcomes, o.Consistent) :
    (aggregate bytes_to_free fence seen total (outcomes.filterMap result)).2 =
        outcomes.flatMap unlinked ↔
      AllSeen bytes_to_free fence seen total outcomes := by
  induction outcomes generalizing seen total with
  | nil =>
    refine iff_of_true rfl ?_
    intro before o after hsplit
    simp at hsplit
  | cons o rest ih =>
    have hrest : ∀ o ∈ rest, o.Consistent := fun o ho => hcons o (mem_cons_of_mem _ ho)
    rw [flatMap_cons]
    cases hres : o.result with
    | none =>
      rw [filterMap_cons_none hres, allSeen_cons_none hres, ← ih seen total hrest]
      have hsub := (aggregate_sublist bytes_to_free fence seen total hrest).length_le
      constructor
      · intro heq
        have hlen := congrArg List.length heq
        rw [length_append] at hlen
        have hnil : o.unlinked = [] := length_eq_zero_iff.mp (by omega)
        rw [hnil, nil_append] at heq
        exact ⟨hnil, heq⟩
      · rintro ⟨hnil, heq⟩
        rw [hnil, nil_append, heq]
    | some r =>
      obtain ⟨bytes_freed, ranges⟩ := r
      rw [filterMap_cons_some hres, aggregate]
      by_cases hle : total ≥ bytes_to_free
      · rw [if_pos hle]
        exact stopped_iff (.inl hle)
      · rw [if_neg hle]
        by_cases hfence : fence seen = false
        · rw [if_pos hfence]
          exact stopped_iff (.inr hfence)
        · rw [if_neg hfence, allSeen_cons_some hres (by omega) (by simpa using hfence),
            ← ih (seen + 1) (total + bytes_freed) hrest,
            hcons o mem_cons_self bytes_freed ranges hres]
          exact append_right_inj _

end Loop

/-! ## Accounting for a pass -/

variable {in_progress safe : π → Bool} {run : ObjectRun π} {evicted : List (EvictedRange κ π)}

theorem batch_delete_ranges_unlinked {extents : List (ℕ × ℕ)} {d : BatchRangeDeletion π}
    (h : (batch_delete_ranges in_progress safe run extents).2 = some d) :
    d.unlinked_ranges = (batch_delete_ranges in_progress safe run extents).1 := by
  unfold batch_delete_ranges at h ⊢
  split_ifs at h ⊢
  · cases h
    rfl
  · cases hrec : run.record with
    | none => simp only [hrec] at h; cases h
    | some record =>
      simp only [hrec] at h ⊢
      split at h <;> cases h
      rfl

theorem evict_object_consistent (cache_key : κ) (ranges : List (RangeEvictionCandidate κ)) :
    (evict_object in_progress safe run cache_key ranges).Consistent := by
  intro bytes_freed returned_ranges h
  unfold evict_object at h ⊢
  split_ifs at h ⊢
  · cases h
    rfl
  · obtain ⟨d, hd, hmap⟩ := Option.map_eq_some_iff.mp h
    rw [← (Prod.mk.inj hmap).2, batch_delete_ranges_unlinked hd]

theorem foldl_debit_range_delta (in_progress : π → Bool)
    (range_file_id : EvictedRange κ π → RangeId) (evicted : List (EvictedRange κ π))
    (a : SizeAccumulator) :
    (evicted.foldl (debit_range in_progress range_file_id) a).delta =
      a.delta - (evicted.map fun e => (e.compressed_size : ℤ)).sum := by
  have hone : ∀ (a : SizeAccumulator) (e : EvictedRange κ π),
      (debit_range in_progress range_file_id a e).delta = a.delta - e.compressed_size := by
    intro a e
    unfold debit_range
    split <;> rfl
  rw [SizeAccumulator.delta_foldl_debit hone, Nat.cast_list_sum, List.map_map]
  rfl

variable [DecidableEq κ]

theorem write_eviction_journal_entries_perm_iff {append_succeeds : κ → Bool} :
    (write_eviction_journal_entries append_succeeds evicted).Perm
        (evicted.map EvictedRange.remove_entry) ↔
      ∀ e ∈ evicted, append_succeeds e.cache_key = true := by
  have hkept := kept_groups_perm RemoveEntry.cache_key
    (evicted.map EvictedRange.remove_entry) append_succeeds
  have hperm : ∀ l : List (RemoveEntry κ π),
      (l.filter fun e => append_succeeds e.cache_key).Perm l ↔
        ∀ e ∈ l, append_succeeds e.cache_key = true := by
    intro l
    rw [← filter_eq_self]
    exact ⟨fun h => filter_sublist.eq_of_length h.length_eq, fun h => by rw [h]⟩
  have hstep : (write_eviction_journal_entries append_succeeds evicted).Perm
      (evicted.map EvictedRange.remove_entry) ↔
      ((evicted.map EvictedRange.remove_entry).filter fun e => append_succeeds e.cache_key).Perm
        (evicted.map EvictedRange.remove_entry) :=
    ⟨fun h => hkept.symm.trans h, fun h => hkept.trans h⟩
  rw [hstep, hperm, List.forall_mem_map]
  rfl

section Pass

variable (in_progress is_safe_relative_file_path : π → Bool)
  (range_file_id : EvictedRange κ π → RangeId)

/-- **Accounting for what a pass unlinks.** Every file a pass takes off the disk is debited
once and journaled once if and only if every object that lost a file handed back a result,
the results that arrived before it free less than the target, the fence holds up to it, and
the journal append for its key succeeds. The debits are those of the accumulator. -/
theorem eviction_pass_accounts_for_unlinked_files_iff (run : PassRun κ π) (a : SizeAccumulator)
    (candidates : List (RangeEvictionCandidate κ)) (bytes_to_free : ℕ) :
    let arrived := outcomes in_progress is_safe_relative_file_path run candidates
      bytes_to_free
    let pass := perform_eviction_with_lock in_progress is_safe_relative_file_path
      range_file_id run a candidates bytes_to_free
    (pass.debited.Perm pass.unlinked ∧
        pass.journal.Perm (pass.unlinked.map EvictedRange.remove_entry) ↔
      AllSeen bytes_to_free run.fence 0 0 arrived ∧
        ∀ o ∈ arrived, ∀ e ∈ o.unlinked, run.append_succeeds e.cache_key = true) ∧
    pass.accumulator.delta =
      a.delta - (pass.debited.map fun e => (e.compressed_size : ℤ)).sum := by
  intro arrived pass
  have hcons : ∀ o ∈ arrived, o.Consistent := by
    intro o ho
    obtain ⟨g, -, rfl⟩ := List.mem_map.mp ((run.arrival_perm _).mem_iff.mp ho)
    exact evict_object_consistent _ _
  have hsub : pass.debited.Sublist pass.unlinked :=
    aggregate_sublist bytes_to_free run.fence 0 0 hcons
  have hdebited : pass.debited.Perm pass.unlinked ↔ pass.debited = pass.unlinked :=
    ⟨fun h => hsub.eq_of_length h.length_eq, fun h => by rw [h]⟩
  have hseen : pass.debited = pass.unlinked ↔ AllSeen bytes_to_free run.fence 0 0 arrived :=
    aggregate_eq_iff 0 0 hcons
  have hjournal : pass.journal = write_eviction_journal_entries run.append_succeeds pass.debited :=
    rfl
  refine ⟨?_, foldl_debit_range_delta in_progress range_file_id pass.debited a⟩
  rw [hdebited, ← hseen]
  refine and_congr_right fun heq => ?_
  rw [hjournal, heq, write_eviction_journal_entries_perm_iff]
  constructor
  · intro h o ho e he
    exact h e (mem_flatMap.mpr ⟨o, ho, he⟩)
  · intro h e he
    obtain ⟨o, ho, he⟩ := mem_flatMap.mp he
    exact h o ho e he

end Pass

def one_range (size : ℕ) : ObjectRun Unit where
  fence_held := true
  in_use := false
  write_lock_acquired := true
  metadata_exists := true
  metadata_lock_acquired := true
  record := some ⟨false, [⟨0, size - 1, (), size, some false⟩]⟩
  file_size := fun _ => some size
  unlink := fun _ => .Unlinked
  completion := id
  metadata_written := true
  completion_perm := List.Perm.refl

/-- Two objects, of 10 and of 100 bytes; the second one's deletion completes first. -/
def second_completes_first : PassRun Bool Unit where
  objects := fun second => one_range (if second then 100 else 10)
  arrival := List.reverse
  fence := fun _ => true
  append_succeeds := fun _ => true
  arrival_perm := reverse_perm

/-- To free 100 bytes both objects are chosen and deleted. The second one's 100 bytes are
seen first, and the 10 bytes of the other are neither debited nor journaled. -/
theorem eviction_pass_forgets_an_unlinked_file :
    let pass := perform_eviction_with_lock (fun _ => false) (fun _ => true) (fun _ => (0, 0, 0))
      second_completes_first .new [⟨false, 0, 9, 0, 10, 0⟩, ⟨true, 0, 99, 1, 100, 0⟩] 100
    pass.unlinked.map EvictedRange.size = [100, 10] ∧
      pass.debited.map EvictedRange.size = [100] ∧ pass.accumulator.delta = -100 ∧
      pass.journal.map RemoveEntry.size = [100] := by
  decide

/-! ## What a deletion leaves -/

section Leaves

variable (in_progress safe on_disk : π → Bool) (run : ObjectRun π) (extents : List (ℕ × ℕ))
  (record : ObjectRecord π)

/-- A range whose file is to be unlinked. -/
def Chosen (range : RangeSpec π) : Prop :=
  extent range ∈ extents ∧ safe range.file_path = true

/-- An extent of which a file was unlinked or not there. -/
def Cleared (e : ℕ × ℕ) : Prop :=
  ∃ r ∈ record.ranges, Chosen safe extents r ∧ run.unlink r ≠ .Failed ∧ extent r = e

/-- Nothing of the record is left. -/
def AllCleared : Prop :=
  ∀ r ∈ record.ranges, Cleared safe run extents record (extent r) ∧
    (Chosen safe extents r → run.unlink r ≠ .Failed)

/-- The file is there, and still is after the unlinks. -/
def Survives (path : π) : Prop :=
  on_disk path = true ∧
    ∀ r ∈ record.ranges, Chosen safe extents r → r.file_path = path → run.unlink r = .Failed

def ranges_deleted : List (ℕ × ℕ) :=
  let results := delete_results in_progress safe run record extents
  (with_outcome results .Unlinked ++ with_outcome results .AlreadyAbsent).map extent

/-- The ranges that the `.meta` of the record names after the call, or `none` if it is gone. If it
is to be removed, `metadata_written` says whether it could be. -/
def metadata_after : Option (List (RangeSpec π)) :=
  match (batch_delete_ranges in_progress safe run extents).2 with
  | none => some record.ranges
  | some deletion =>
    if deletion.all_ranges_evicted then
      if run.metadata_written then none else some record.ranges
    else some (record.ranges.filter fun r =>
      extent r ∉ ranges_deleted in_progress safe run extents record)

/-- The `.meta` stays, and names each range whose file is still there, and the caller is told of
each file that was unlinked. -/
def Faithful : Prop :=
  (∀ r ∈ record.ranges, Survives safe on_disk run extents record r.file_path →
    ∃ ranges, metadata_after in_progress safe run extents record = some ranges ∧ r ∈ ranges) ∧
  ∀ r ∈ (batch_delete_ranges in_progress safe run extents).1, ∃ deletion,
    (batch_delete_ranges in_progress safe run extents).2 = some deletion ∧
      r ∈ deletion.unlinked_ranges

variable {in_progress safe run extents record}

theorem mem_with_outcome {outcome : RangeUnlinkOutcome} {r : RangeSpec π} :
    r ∈ with_outcome (delete_results in_progress safe run record extents) outcome ↔
      ∃ s ∈ record.ranges, Chosen safe extents s ∧ run.unlink s = outcome ∧
        (delete_task in_progress run record s).1 = r := by
  simp only [with_outcome, delete_results, mem_map, mem_filter, (run.completion_perm _).mem_iff,
    Bool.and_eq_true, decide_eq_true_eq]
  constructor
  · rintro ⟨_, ⟨⟨s, ⟨hs, hchosen⟩, rfl⟩, houtcome⟩, rfl⟩
    exact ⟨s, hs, hchosen, houtcome, rfl⟩
  · rintro ⟨s, hs, hchosen, houtcome, rfl⟩
    exact ⟨_, ⟨⟨s, ⟨hs, hchosen⟩, rfl⟩, houtcome⟩, rfl⟩

theorem mem_ranges_deleted {e : ℕ × ℕ} :
    e ∈ ranges_deleted in_progress safe run extents record ↔ Cleared safe run extents record e := by
  simp only [ranges_deleted, mem_map, mem_append, mem_with_outcome]
  constructor
  · rintro ⟨_, ⟨s, hs, hchosen, houtcome, rfl⟩ | ⟨s, hs, hchosen, houtcome, rfl⟩, hextent⟩ <;>
      exact ⟨s, hs, hchosen, by simp [houtcome], hextent⟩
  · rintro ⟨s, hs, hchosen, houtcome, hextent⟩
    refine ⟨(delete_task in_progress run record s).1, ?_, hextent⟩
    cases hunlink : run.unlink s with
    | Unlinked => exact .inl ⟨s, hs, hchosen, hunlink, rfl⟩
    | AlreadyAbsent => exact .inr ⟨s, hs, hchosen, hunlink, rfl⟩
    | Failed => exact absurd hunlink houtcome

theorem batch_delete_ranges_eq (hextents : extents ≠ []) (hexists : run.metadata_exists = true)
    (hlock : run.metadata_lock_acquired = true) (hrecord : run.record = some record) :
    let results := delete_results in_progress safe run record extents
    let unlinked := with_outcome results .Unlinked
    ∃ evicted : Bool, (evicted = true ↔ AllCleared safe run extents record) ∧
      batch_delete_ranges in_progress safe run extents = (unlinked,
        if evicted || run.metadata_written then
          some ⟨(unlinked.map RangeSpec.compressed_size).sum, evicted, unlinked,
            (with_outcome results .Failed).map extent⟩
        else none) := by
  simp only [batch_delete_ranges, hextents, hexists, hlock, hrecord, Bool.true_eq_false, or_self,
    if_false]
  refine ⟨_ && _, ?_, rfl⟩
  rw [Bool.and_eq_true, List.isEmpty_iff, List.isEmpty_iff, map_eq_nil_iff, filter_eq_nil_iff,
    eq_nil_iff_forall_not_mem]
  simp only [mem_with_outcome, decide_not, Bool.not_eq_true', decide_eq_false_iff_not, not_not]
  constructor
  · rintro ⟨hcleared, hfailed⟩ r hr
    exact ⟨mem_ranges_deleted.mp (hcleared r hr),
      fun hchosen hunlink => hfailed _ ⟨r, hr, hchosen, hunlink, rfl⟩⟩
  · intro h
    refine ⟨fun r hr => (@mem_ranges_deleted _ in_progress).mpr (h r hr).1, ?_⟩
    rintro _ ⟨r, hr, hchosen, hunlink, -⟩
    exact (h r hr).2 hchosen hunlink

variable (in_progress safe run extents record)

/-- **What a deletion leaves and reports.** The deletion of ranges of a record is faithful if and
only if, where it gets the lock, no file survives whose extent the `.meta` loses for another file,
and a file is unlinked only if the `.meta` is then written or nothing of the record is left. -/
theorem deletion_faithful_iff :
    let read := { run with metadata_exists := true, record := some record }
    Faithful in_progress safe on_disk read extents record ↔
      (read.metadata_lock_acquired = true →
        (∀ r ∈ record.ranges, Survives safe on_disk read extents record r.file_path →
          Cleared safe read extents record (extent r) → read.metadata_written = false) ∧
        ∀ r ∈ record.ranges, Chosen safe extents r → read.unlink r = .Unlinked →
          read.metadata_written = true ∨ AllCleared safe read extents record) := by
  intro read
  obtain ⟨hexists, hrecord⟩ : read.metadata_exists = true ∧ read.record = some record := ⟨rfl, rfl⟩
  clear_value read
  by_cases hextents : extents = []
  · subst hextents
    refine iff_of_true ⟨fun r hr _ => ⟨_, rfl, mem_filter.mpr ⟨hr, ?_⟩⟩, ?_⟩ ?_
    · simp [mem_ranges_deleted, Cleared, Chosen]
    · simp [batch_delete_ranges]
    · simp [Cleared, Chosen]
  by_cases hlock : read.metadata_lock_acquired = true
  · obtain ⟨evicted, hall, hbatch⟩ :=
      @batch_delete_ranges_eq _ in_progress safe read extents record hextents hexists hlock hrecord
    rw [Faithful, metadata_after, hbatch, forall_prop_of_true hlock]
    refine and_congr (forall₃_congr fun r hr hsurvives => ?_) ?_
    · cases hwritten : read.metadata_written with
      | false => cases evicted <;> simp [hr]
      | true =>
        cases evicted with
        | true => simpa using (hall.mp rfl r hr).1
        | false => simp [hr, mem_ranges_deleted]
    · rw [← hall, or_comm, ← Bool.or_eq_true]
      split_ifs with hreturns
      · exact iff_of_true (fun r hr => ⟨_, rfl, hr⟩) fun _ _ _ _ => hreturns
      · simp only [reduceCtorEq, false_and, exists_false, hreturns, mem_with_outcome]
        exact ⟨fun h r hr hchosen hunlink => h _ ⟨r, hr, hchosen, hunlink, rfl⟩,
          fun h _ ⟨r, hr, hchosen, hunlink, _⟩ => h r hr hchosen hunlink⟩
  · have hbatch : batch_delete_ranges in_progress safe read extents = ([], none) := by
      simp [batch_delete_ranges, hextents, hexists, hlock]
    refine iff_of_true ?_ (absurd · hlock)
    rw [Faithful, metadata_after, hbatch]
    exact ⟨fun r hr _ => ⟨_, rfl, hr⟩, by simp⟩

end Leaves

/-- Of the two ranges of a record, the first one is unlinked and the `.meta` cannot be written: the
caller learns of no file. -/
theorem unlinked_file_is_unreported :
    let ranges : List (RangeSpec Unit) := [⟨0, 9, (), 10, none⟩, ⟨10, 19, (), 10, none⟩]
    let run := { one_range 10 with record := some ⟨false, ranges⟩, metadata_written := false }
    let (unlinked, deletion) := batch_delete_ranges (fun _ => false) (fun _ => true) run [(0, 9)]
    unlinked.map extent = [(0, 9)] ∧ deletion = none := by
  decide

end HybridCache.Eviction
