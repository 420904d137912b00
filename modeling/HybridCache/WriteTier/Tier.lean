/-
The write tier: how bytes enter it, how they leave it, and what is journaled for the ones that
leave by being read (`cache.rs`, `journal_consolidator.rs`).

A staged range is credited to `write_cache_size`, and debited when it is removed while staged. An
object that is read graduates instead: the record is rewritten, a `Graduation` entry is journaled,
and a consolidation cycle charges the entry's bytes once, guarded by the token
`graduation_accounted`. A graduation is three steps: the read, the write of the record, the append.

`κ` are the cache keys, `τ` the graduating tasks, `ι` and `σ` the instances and the flush tasks of
`Tracking`. The state keeps a ledger: every upload that publishes a new file opens a new episode of
its key.
-/
import HybridCache.Lib.Ledger
import HybridCache.Metadata.Graduation
import HybridCache.SizeTracking.Totals

namespace HybridCache.WriteTier

open Lib Metadata SizeTracking

variable {ω π κ ι τ σ : Type}

/-! ## Credits and debits -/

def credit_staged_range (in_progress : π → Bool) (is_write_cached range_already_existed : Bool)
    (a : SizeAccumulator) (range_spec : RangeSpec π) : SizeAccumulator :=
  if range_already_existed then a
  else if is_staged_range_spec in_progress range_spec is_write_cached then
    a.add_write_cache range_spec.compressed_size
  else a

def debit_removed_ranges (in_progress : π → Bool) (is_write_cached : Bool)
    (a : SizeAccumulator) (removed : List (RangeSpec π)) : SizeAccumulator :=
  removed.foldl (fun a range =>
    if is_staged_range_spec in_progress range is_write_cached then
      a.subtract_write_cache range.compressed_size
    else a) a

section Figures

variable (in_progress : π → Bool) (is_write_cached : Bool) {a : SizeAccumulator}
  {removed ranges : List (RangeSpec π)} {range_already_existed : Bool}

theorem debit_removed_ranges_write_cache_delta :
    (debit_removed_ranges in_progress is_write_cached a removed).write_cache_delta =
      a.write_cache_delta - staged_bytes in_progress removed is_write_cached := by
  unfold debit_removed_ranges
  induction removed generalizing a with
  | nil => simp [staged_bytes]
  | cons r rest ih =>
    rw [List.foldl_cons, ih]
    by_cases hr : is_staged_range_spec in_progress r is_write_cached = true
    · simp [staged_bytes, hr, SizeAccumulator.subtract_write_cache, sub_sub]
    · simp [staged_bytes, hr]

theorem debit_removed_ranges_flush_sequence :
    (debit_removed_ranges in_progress is_write_cached a removed).flush_sequence =
      a.flush_sequence := by
  unfold debit_removed_ranges
  induction removed generalizing a with
  | nil => rfl
  | cons r rest ih =>
    rw [List.foldl_cons, ih]
    split <;> rfl

theorem credit_staged_ranges_write_cache_delta :
    (ranges.foldl (credit_staged_range in_progress is_write_cached range_already_existed)
      a).write_cache_delta = a.write_cache_delta +
        if range_already_existed then 0
        else (staged_bytes in_progress ranges is_write_cached : ℤ) := by
  induction ranges generalizing a with
  | nil => simp [staged_bytes]
  | cons r rest ih =>
    rw [List.foldl_cons, ih]
    cases range_already_existed with
    | true => simp [credit_staged_range]
    | false =>
      by_cases hr : is_staged_range_spec in_progress r is_write_cached = true
      · simp [credit_staged_range, staged_bytes, hr, SizeAccumulator.add_write_cache, add_assoc]
      · simp [credit_staged_range, staged_bytes, hr]

theorem credit_staged_ranges_flush_sequence :
    (ranges.foldl (credit_staged_range in_progress is_write_cached range_already_existed)
      a).flush_sequence = a.flush_sequence := by
  induction ranges generalizing a with
  | nil => rfl
  | cons r rest ih =>
    rw [List.foldl_cons, ih]
    unfold credit_staged_range
    split
    · rfl
    · split <;> rfl

end Figures

/-- The record of an upload with a body: in the write tier, its one range staged. -/
def upload_record (in_progress : π → Bool) (object : NewCacheMetadata ω π)
    (range_spec : RangeSpec π) : NewCacheMetadata ω π :=
  { object with
    is_write_cached := true
    graduation_accounted := false
    ranges := [{ range_spec with
      staged := some (classify_new_range_as_staged in_progress range_spec.file_path true) }] }

@[simp] theorem staged_compressed_size_upload_record (in_progress : π → Bool)
    (object : NewCacheMetadata ω π) (range_spec : RangeSpec π) :
    (upload_record in_progress object range_spec).staged_compressed_size in_progress =
      range_spec.compressed_size := by
  simp [upload_record, NewCacheMetadata.staged_compressed_size, staged_bytes, is_staged_range_spec,
    is_staged_range_parts, classify_new_range_as_staged]

def empty_record (object : NewCacheMetadata ω π) : NewCacheMetadata ω π :=
  { object with is_write_cached := true, graduation_accounted := false, ranges := [] }

/-! ## Consolidation -/

/-- A `Graduation` entry: the key, and `range_spec.compressed_size`. The entry itself names no
version; `episode` remembers which upload's bytes it carries. -/
structure GraduationEntry (κ : Type) where
  cache_key : κ
  compressed_size : ℕ
  episode : ℕ
deriving DecidableEq, Repr

/-- `apply_journal_entries` on one `Graduation` entry. -/
def apply_graduation (m : NewCacheMetadata ω π × ℕ) (entry : GraduationEntry κ) :
    NewCacheMetadata ω π × ℕ :=
  if m.1.graduation_accounted then m
  else ({ m.1 with graduation_accounted := true }, m.2 + entry.compressed_size)

def apply_journal_entries (metadata : NewCacheMetadata ω π) (entries : List (GraduationEntry κ)) :
    NewCacheMetadata ω π × ℕ :=
  entries.foldl apply_graduation (metadata, 0)

/-- The entry that is charged. -/
def charged (metadata : NewCacheMetadata ω π) (entries : List (GraduationEntry κ)) :
    Option (GraduationEntry κ) :=
  if metadata.graduation_accounted then none else entries.head?

/-- The first graduation is charged, unless the record has been accounted for. -/
theorem apply_journal_entries_eq (metadata : NewCacheMetadata ω π)
    (entries : List (GraduationEntry κ)) :
    apply_journal_entries metadata entries = (charged metadata entries).elim (metadata, 0)
      fun entry => ({ metadata with graduation_accounted := true }, entry.compressed_size) := by
  -- once the token is set nothing changes any more
  have hskip : ∀ (entries : List (GraduationEntry κ)) (m : NewCacheMetadata ω π × ℕ),
      m.1.graduation_accounted = true → entries.foldl apply_graduation m = m := by
    intro entries m hm
    induction entries with
    | nil => rfl
    | cons entry rest ih =>
      rw [List.foldl_cons, apply_graduation, if_pos hm, ih]
  unfold apply_journal_entries charged
  by_cases htoken : metadata.graduation_accounted = true
  · rw [hskip _ _ htoken, if_pos htoken]
    rfl
  · rw [if_neg htoken]
    cases entries with
    | nil => rfl
    | cons entry rest =>
      rw [List.foldl_cons, apply_graduation, if_neg htoken, hskip _ _ rfl]
      simp

/-! ## The state -/

/-- Where a graduating task stands. -/
inductive Task (ω π κ : Type) where
  /-- `refresh_write_cache_ttl` has read the record and not yet taken the lock. -/
  | refresh (cache_key : κ) (g : Graduation ω π)
  /-- `backfill_write_cache_last_modified` has read the record and not yet stored it. -/
  | backfill (cache_key : κ) (read : NewCacheMetadata ω π) (last_modified : String)
  | published (entry : GraduationEntry κ)

def Task.entry? : Task ω π κ → Option (GraduationEntry κ)
  | published entry => some entry
  | _ => none

/-- The key and the read of a task that is about to take the lock. -/
def Task.refreshing? : Task ω π κ → Option (κ × Graduation ω π)
  | refresh k g => some (k, g)
  | _ => none

/-- The key and the read of a task that is about to store without a lock. -/
def Task.backfilling? : Task ω π κ → Option (κ × NewCacheMetadata ω π)
  | backfill k read _ => some (k, read)
  | _ => none

/-- The records, the graduations under way, the journals, and the consolidation cycle. -/
structure Tier (ω π κ ι τ σ : Type) where
  records : Directory κ (NewCacheMetadata ω π)
  tasks : τ → Option (Task ω π κ)
  journal : List (GraduationEntry κ)
  /-- `all_consolidated_entries` of the running cycle. -/
  consolidated : List (GraduationEntry κ)
  /-- `-total_write_cache_delta` of the running cycle. -/
  graduated_bytes : ℕ
  tracking : Tracking ι σ
  episode : κ → ℕ
  ledger : Ledger (κ × ℕ)

inductive TierEvent (ω π κ ι τ σ : Type) where
  | put_buffered (i : ι) (k : κ) (object : NewCacheMetadata ω π) (range_spec : RangeSpec π)
  | put_streamed (i : ι) (k : κ) (object : NewCacheMetadata ω π) (range_spec : RangeSpec π)
  | put_empty (i : ι) (k : κ) (object : NewCacheMetadata ω π)
  | remove (i : ι) (k : κ) (removed : RangeSpec π → Bool)
  | refresh_read (t : τ) (k : κ) (now get_ttl : ℕ)
  | refresh_publish (t : τ)
  | backfill_read (t : τ) (k : κ) (last_modified : String) (validated_etag : Option String)
  | backfill_store (t : τ)
  | append (t : τ)
  | consolidate (k : κ) (entries : List (GraduationEntry κ)) (stale : GraduationEntry κ → Bool)
  | apply_graduations
  | cleanup
  | consolidate_before_eviction (k : κ) (entries : List (GraduationEntry κ))
  | track (e : Event ι σ)

namespace Tier

variable [DecidableEq κ] [DecidableEq ι] [DecidableEq τ] [DecidableEq σ]

def init : Tier ω π κ ι τ σ where
  records := .empty
  tasks := fun _ => none
  journal := []
  consolidated := []
  graduated_bytes := 0
  tracking := .init ⟨0, 0⟩
  episode := fun _ => 0
  ledger := []

def ranges (s : Tier ω π κ ι τ σ) (k : κ) : List (RangeSpec π) :=
  (s.records.get? k).elim [] NewCacheMetadata.ranges

def flag (s : Tier ω π κ ι τ σ) (k : κ) : Bool :=
  (s.records.get? k).any NewCacheMetadata.is_write_cached

def staged (in_progress : π → Bool) (s : Tier ω π κ ι τ σ) (k : κ) : ℕ :=
  s.records.measure (NewCacheMetadata.staged_compressed_size in_progress) k

/-- The tail common to all uploads: debit the superseded ranges, store the record, and credit
its ranges unless the file already existed. -/
def store_upload (in_progress : π → Bool) (s : Tier ω π κ ι τ σ) (i : ι) (k : κ)
    (superseded : List (RangeSpec π)) (record : NewCacheMetadata ω π)
    (range_already_existed : Bool) : Tier ω π κ ι τ σ :=
  let a := debit_removed_ranges in_progress (s.flag k) (s.tracking.acc i) superseded
  let a := record.ranges.foldl
    (credit_staged_range in_progress record.is_write_cached range_already_existed) a
  let debit : ℤ := staged_bytes in_progress superseded (s.flag k)
  let credit : ℤ :=
    if range_already_existed then 0 else record.staged_compressed_size in_progress
  -- bytes that stay where they are stay in their episode
  let n := if range_already_existed then s.episode k else s.episode k + 1
  { s with
    records := s.records.put k record
    tracking := s.tracking.set_acc i a
    episode := Function.update s.episode k n
    ledger := ((k, n), credit) :: ((k, s.episode k), -debit) :: s.ledger }

/-- The ranges of a key that an upload to a file path leaves in place. -/
def republished (s : Tier ω π κ ι τ σ) (k : κ) (file_path : π) [DecidableEq π] :
    List (RangeSpec π) :=
  (s.ranges k).filter fun r => r.file_path = file_path

/-- The removal of some of an object's ranges; the record goes with the last of them. -/
def remove_ranges (in_progress : π → Bool) (s : Tier ω π κ ι τ σ) (i : ι) (k : κ)
    (m : NewCacheMetadata ω π) (removed : RangeSpec π → Bool) : Tier ω π κ ι τ σ :=
  let gone := m.ranges.filter removed
  let kept := m.ranges.filter fun r => !removed r
  { s with
    records := if kept = [] then s.records.erase k else s.records.put k { m with ranges := kept }
    tracking := s.tracking.set_acc i
      (debit_removed_ranges in_progress m.is_write_cached (s.tracking.acc i) gone)
    ledger := ((k, s.episode k), -(staged_bytes in_progress gone m.is_write_cached : ℤ)) ::
      s.ledger }

def set_task (s : Tier ω π κ ι τ σ) (t : τ) (task : Option (Task ω π κ)) : Tier ω π κ ι τ σ :=
  { s with tasks := Function.update s.tasks t task }

/-- Store a graduated record; the task keeps the entry with the bytes that were staged in
what it read. -/
def publish (in_progress : π → Bool) (s : Tier ω π κ ι τ σ) (t : τ) (k : κ)
    (read record : NewCacheMetadata ω π) : Tier ω π κ ι τ σ :=
  { s.set_task t (some (.published
      ⟨k, read.staged_compressed_size in_progress, s.episode k⟩)) with
    records := s.records.put k record }

/-- `consolidate_object` of a record: what it leaves, and the entries for the cycle to clean up. -/
def consolidate (s : Tier ω π κ ι τ σ) (k : κ) (m : NewCacheMetadata ω π)
    (entries : List (GraduationEntry κ)) : Tier ω π κ ι τ σ :=
  { s with
    records := s.records.put k (apply_journal_entries m entries).1
    consolidated := s.consolidated ++ entries
    graduated_bytes := s.graduated_bytes + (apply_journal_entries m entries).2
    ledger := (charged m entries).elim s.ledger fun entry =>
      ((k, entry.episode), -(entry.compressed_size : ℤ)) :: s.ledger }

variable [DecidableEq π]

def step (in_progress : π → Bool) (s : Tier ω π κ ι τ σ) :
    TierEvent ω π κ ι τ σ → Option (Tier ω π κ ι τ σ)
  | .put_buffered i k object range_spec =>
    -- the old files are gone before the new one is published
    some (s.store_upload in_progress i k (s.ranges k)
      (upload_record in_progress object range_spec) false)
  | .put_streamed i k object range_spec =>
    -- the new file is published first, over one of the same path if there is one
    some (s.store_upload in_progress i k
      ((s.ranges k).filter fun r => r.file_path ≠ range_spec.file_path)
      (upload_record in_progress object range_spec)
      ((s.ranges k).any fun r => r.file_path = range_spec.file_path))
  | .put_empty i k object =>
    some (s.store_upload in_progress i k [] (empty_record object) false)
  | .remove i k removed =>
    (s.records.get? k).map fun m => s.remove_ranges in_progress i k m removed
  | .refresh_read t k now get_ttl =>
    match s.tasks t with
    | none => some (s.set_task t ((refresh_read (s.records.get? k) now get_ttl).map (.refresh k)))
    | some _ => none
  | .refresh_publish t =>
    match s.tasks t with
    | some (.refresh k g) =>
      if s.flag k then some (s.publish in_progress t k g.read g.record)
      else some (s.set_task t none)
    | _ => none
  | .backfill_read t k last_modified validated_etag =>
    match s.tasks t, s.records.get? k with
    | none, some m =>
      if validated_etag.all fun etag => etag = m.etag then
        some (s.set_task t (some (.backfill k m last_modified)))
      else some s
    | _, _ => none
  | .backfill_store t =>
    match s.tasks t with
    | some (.backfill k read last_modified) =>
      let m := read.set_last_modified last_modified
      -- no lock is taken and the file is not read again
      if m.is_write_cached then some (s.publish in_progress t k m (m.graduated m.expires_at))
      else some { s.set_task t none with records := s.records.put k m }
    | _ => none
  | .append t =>
    match s.tasks t with
    | some (.published entry) => some { s.set_task t none with journal := s.journal ++ [entry] }
    | _ => none
  | .consolidate k entries stale =>
    -- a cycle handles a key once, with its entries in the order the journal files yield them
    if entries.Perm (s.journal.filter fun e => e.cache_key = k) ∧
        ∀ e ∈ s.consolidated, e.cache_key ≠ k then
      match s.records.get? k with
      | some m => some (s.consolidate k m entries)
      | none => some { s with consolidated := s.consolidated ++ entries.filter stale }
    else none
  | .apply_graduations =>
    some { s with
      tracking := { s.tracking with
        size_state := atomic_update_size_delta s.tracking.size_state 0 (-s.graduated_bytes) }
      graduated_bytes := 0 }
  | .cleanup => some { s with journal := s.journal.diff s.consolidated, consolidated := [] }
  | .consolidate_before_eviction k entries =>
    -- the record is written; the delta and the entries to clean up are dropped
    if entries.Perm (s.journal.filter fun e => e.cache_key = k) then
      (s.records.get? k).map fun m =>
        { s with records := s.records.put k (apply_journal_entries m entries).1 }
    else none
  | .track e =>
    if Figure.write_cache.recorded e = 0 then
      (s.tracking.step e).map fun tracking => { s with tracking := tracking }
    else none

end Tier

end HybridCache.WriteTier
