/-
Which of several writes of one extent survives a consolidation (`resolve_conflicts` and
`apply_journal_entries` in `journal_consolidator.rs`).

Seen from one extent, a batch is a sequence of writes of one slot (`Lib.Slot`): an `Add` fills it
if it is empty, an `Update` replaces what is there, a `Remove` clears what was made before it. The
first pass lets the newest publication win, but only for an extent the record already has; the
second takes the first `Add` it meets.
-/
import HybridCache.Journal.Consolidate
import HybridCache.Lib.Slot

namespace HybridCache.Journal

open Lib CacheTypes List Option

def fields (range : RangeSpec) : RangeSpec :=
  { range with last_accessed := 0, access_count := 0 }

@[simp] theorem fields_created_at (range : RangeSpec) :
    (fields range).created_at = range.created_at := rfl

def publication (entry : JournalEntry) : ℕ × RangeSpec :=
  (entry.timestamp, fields entry.range_spec)

open RangeSpec

def range_at (x : ℕ × ℕ) (ranges : List RangeSpec) : Option RangeSpec :=
  (lookup extent ranges x).map fields

def write_at (x : ℕ × ℕ) (entry : JournalEntry) : Option (Slot.Timed RangeSpec) :=
  if entry.extent = x then
    match entry.operation with
    | .Add => some ⟨entry.timestamp, .add (fields entry.range_spec)⟩
    | .Update => some ⟨entry.timestamp, .update (fields entry.range_spec)⟩
    | .Remove => some ⟨entry.timestamp, .remove⟩
    | _ => none
  else none

theorem write_at_eq_some {x : ℕ × ℕ} {entry : JournalEntry} {e : Slot.Timed RangeSpec}
    (h : write_at x entry = some e) :
    entry.extent = x ∧
      (entry.operation = .Add ∧ e = ⟨entry.timestamp, .add (fields entry.range_spec)⟩ ∨
        entry.operation = .Update ∧ e = ⟨entry.timestamp, .update (fields entry.range_spec)⟩ ∨
        entry.operation = .Remove ∧ e = ⟨entry.timestamp, .remove⟩) := by
  unfold write_at at h
  split_ifs at h
  cases hop : entry.operation <;> rw [hop] at h <;> simp_all

def writes_at (x : ℕ × ℕ) (batch : List JournalEntry) : List (Slot.Timed RangeSpec) :=
  batch.filterMap (write_at x)

open Slot

/-- Everything published for an extent, with its time: the record's range and the entries of the
batch. -/
def publications_at (x : ℕ × ℕ) (metadata : NewCacheMetadata) (batch : List JournalEntry) :
    List (ℕ × RangeSpec) :=
  ((range_at x metadata.ranges).map fun range => (range.created_at, range)).toList ++
    publications (writes_at x batch)

/-- A batch for one version of the object: the record has one range for each extent, all entries
match its etag, ranges are stamped before they are journaled, and one extent's bytes are in one
file. -/
structure OneVersion (object_version_id : String → FilePath) (metadata : NewCacheMetadata)
    (batch : List JournalEntry) : Prop where
  extents_nodup : (metadata.ranges.map extent).Nodup
  matching : ∀ entry ∈ batch,
    entry.matches_object_version object_version_id metadata.object_metadata.etag = true
  stamped : ∀ entry ∈ batch, entry.publishes = true →
    entry.range_spec.created_at ≤ entry.timestamp
  named : ∃ name : ℕ × ℕ → FilePath,
    (∀ range ∈ metadata.ranges, file_name range.file_path = name range.extent) ∧
    ∀ entry ∈ batch, entry.publishes = true ∨ entry.operation = .Remove →
      file_name entry.range_spec.file_path = name entry.extent

/-! ## The first pass, at one extent -/

section Resolve

variable {x : ℕ × ℕ} {batch : List JournalEntry}

theorem publications_writes_at :
    publications (writes_at x batch) =
      ((batch.filter JournalEntry.publishes).filter fun entry => entry.extent = x).map
        publication := by
  unfold publications writes_at
  rw [filterMap_filterMap, List.filter_filter, ← filterMap_eq_map, filterMap_filter]
  apply filterMap_congr
  intro entry _
  by_cases hx : entry.extent = x
  · cases hop : entry.operation <;>
      simp [write_at, publication, hx, hop, JournalEntry.publishes, Slot.Write.content?]
  · simp [write_at, hx]

/-- What the map of the first pass has for an extent. -/
def newest_at (x : ℕ × ℕ) (journal_ranges : List JournalEntry) : Option (ℕ × RangeSpec) :=
  (lookup JournalEntry.extent journal_ranges x).map publication

variable {entry : JournalEntry}

theorem insert_newest_at (journal_ranges : List JournalEntry) :
    newest_at x (insert_newest journal_ranges entry) =
      if entry.extent = x then newer (newest_at x journal_ranges) (publication entry)
      else newest_at x journal_ranges := by
  have hkey : ∀ row : JournalEntry, row.extent = entry.extent →
      JournalEntry.extent ((fun _ => entry) row) = entry.extent := fun _ _ => rfl
  unfold insert_newest newest_at
  by_cases hx : entry.extent = x
  · subst hx
    cases hfound : lookup JournalEntry.extent journal_ranges entry.extent with
    | none =>
      rw [lookup_append_singleton, hfound]
      simp [newer]
    | some existing =>
      dsimp only
      split
      · rename_i hgt
        rw [lookup_update_first_self hkey, hfound]
        simp [newer, later, publication, hgt]
      · rename_i hle
        rw [hfound]
        simp [newer, later, publication, hle]
  · rw [if_neg hx]
    split
    · split
      · rw [lookup_update_first_ne hkey (Ne.symm hx)]
      · rfl
    · rw [lookup_append_singleton, if_neg hx, or_none]

theorem nodup_insert_newest (journal_ranges : List JournalEntry)
    (h : (journal_ranges.map JournalEntry.extent).Nodup) :
    ((insert_newest journal_ranges entry).map JournalEntry.extent).Nodup := by
  unfold insert_newest
  split
  · split
    · rw [map_key_update_first fun _ _ => rfl]
      exact h
    · exact h
  · rename_i hnone
    exact nodup_map_key_append_singleton h (lookup_eq_none.mp hnone)

theorem journal_ranges_at :
    ((journal_ranges batch).map JournalEntry.extent).Nodup ∧
      newest_at x (journal_ranges batch) = newest (publications (writes_at x batch)) := by
  obtain ⟨hnodup, hread⟩ := read_foldl
    (fun rows : List JournalEntry => (rows.map JournalEntry.extent).Nodup) (newest_at x)
    insert_newest
    (fun s entry => if entry.extent = x then newer s (publication entry) else s)
    (batch.filter JournalEntry.publishes) [] nodup_nil
    (fun rows entry _ h => nodup_insert_newest rows h)
    (fun rows entry _ _ => insert_newest_at rows)
  refine ⟨hnodup, hread.trans (Eq.symm ?_)⟩
  rw [publications_writes_at, newest, foldl_map, foldl_filter]
  simp only [decide_eq_true_eq]
  rfl

theorem range_at_update_first {k : ℕ × ℕ} {f : RangeSpec → RangeSpec}
    (hkey : ∀ range, extent range = k → extent (f range) = k) (ranges : List RangeSpec) :
    range_at x (update_first extent k f ranges) =
      if k = x then (lookup extent ranges x).map (fields ∘ f) else range_at x ranges := by
  unfold range_at
  by_cases hx : k = x
  · subst hx
    rw [if_pos rfl, lookup_update_first_self hkey, Option.map_map]
  · rw [if_neg hx, lookup_update_first_ne hkey (Ne.symm hx)]

theorem resolve_range_at (ranges : List RangeSpec) :
    range_at x (resolve_range ranges entry) =
      if entry.extent = x then (range_at x ranges).map fun range =>
        (later (range.created_at, range) (publication entry)).2
      else range_at x ranges := by
  rw [resolve_range, range_at_update_first, range_at, Option.map_map]
  · congr 2
    funext range
    by_cases hgt : entry.timestamp > range.created_at <;> simp [later, publication, hgt]
  · intro range hrange
    split
    · rfl
    · exact hrange

/-- **The first pass.** Where the record has a range, the newest of all publications takes its
place. -/
theorem resolve_conflicts_at (metadata : NewCacheMetadata) :
    range_at x (resolve_conflicts metadata batch).ranges =
      (range_at x metadata.ranges).bind fun _ =>
        (newest (publications_at x metadata batch)).map Prod.snd := by
  obtain ⟨hnodup, hnewest⟩ := journal_ranges_at
  have hread := (read_foldl (fun _ => True) (range_at x) resolve_range
    (fun s entry => if entry.extent = x then s.map fun range =>
      (later (range.created_at, range) (publication entry)).2 else s)
    (journal_ranges batch) metadata.ranges trivial (fun _ _ _ _ => trivial)
    fun ranges entry _ _ => resolve_range_at ranges).2
  show range_at x ((journal_ranges batch).foldl resolve_range metadata.ranges) = _
  rw [hread, foldl_eq_lookup hnodup (k := x) (fun s entry hne => if_neg hne)]
  unfold newest_at at hnewest
  unfold publications_at
  cases hprior : range_at x metadata.ranges with
  | none =>
    cases hentry : lookup JournalEntry.extent (journal_ranges batch) x with
    | none => rfl
    | some entry =>
      rw [elim_some, if_pos (key_of_lookup hentry)]
      rfl
  | some range =>
    rw [map_some, toList_some, singleton_append, newest_cons, ← hnewest]
    cases hentry : lookup JournalEntry.extent (journal_ranges batch) x with
    | none => rfl
    | some entry =>
      rw [elim_some, if_pos (key_of_lookup hentry)]
      rfl

theorem mem_journal_ranges (h : entry ∈ journal_ranges batch) :
    entry ∈ batch ∧ entry.publishes = true := by
  refine (read_foldl (fun rows : List JournalEntry => ∀ row ∈ rows, row ∈ batch ∧ row.publishes)
    id insert_newest insert_newest (batch.filter JournalEntry.publishes) [] (by simp)
    (fun rows e he hrows row hrow => ?_) fun _ _ _ _ => rfl).1 entry h
  have he := mem_filter.mp he
  unfold insert_newest at hrow
  split at hrow
  · split at hrow
    · rcases mem_update_first hrow with hrow | ⟨_, -, -, rfl⟩
      · exact hrows row hrow
      · exact he
    · exact hrows row hrow
  · rcases mem_append.mp hrow with hrow | hrow
    · exact hrows row hrow
    · rw [mem_singleton.mp hrow]
      exact he

end Resolve

/-! ## The second pass, at one extent -/

/-- One range for each extent, in the file that is named for it. -/
structure WellNamed (name : ℕ × ℕ → FilePath) (ranges : List RangeSpec) : Prop where
  extents_nodup : (ranges.map extent).Nodup
  named : ∀ range ∈ ranges, file_name range.file_path = name range.extent

section Apply

variable {x : ℕ × ℕ} {name : ℕ × ℕ → FilePath} {ranges : List RangeSpec} {f : RangeSpec → RangeSpec}
  {k : ℕ × ℕ}

theorem WellNamed.update_first (h : WellNamed name ranges)
    (hf : ∀ range, range.extent = k → (f range).extent = k)
    (hname : ∀ range ∈ ranges, range.extent = k → file_name (f range).file_path = name k) :
    WellNamed name (update_first extent k f ranges) := by
  refine ⟨by rw [map_key_update_first hf]; exact h.extents_nodup, fun range hrange => ?_⟩
  rcases mem_update_first hrange with hrange | ⟨range', hrange', hk, rfl⟩
  · exact h.named range hrange
  · rw [hf range' hk]
    exact hname range' hrange' hk

theorem WellNamed.filter (h : WellNamed name ranges) (p : RangeSpec → Bool) :
    WellNamed name (ranges.filter p) :=
  ⟨nodup_map_key_filter h.extents_nodup p, fun range hrange =>
    h.named range (mem_of_mem_filter hrange)⟩

theorem WellNamed.append {range : RangeSpec} (h : WellNamed name ranges)
    (hnew : lookup extent ranges range.extent = none)
    (hname : file_name range.file_path = name range.extent) :
    WellNamed name (ranges ++ [range]) :=
  ⟨nodup_map_key_append_singleton h.extents_nodup (lookup_eq_none.mp hnew),
    forall_mem_append.mpr ⟨h.named, forall_mem_singleton.mpr hname⟩⟩

variable {metadata : NewCacheMetadata} {batch : List JournalEntry} {entry : JournalEntry} {now : ℕ}

theorem WellNamed.resolve_conflicts (h : WellNamed name metadata.ranges)
    (hbatch : ∀ entry ∈ batch, entry.publishes = true →
      file_name entry.range_spec.file_path = name entry.extent) :
    WellNamed name (resolve_conflicts metadata batch).ranges := by
  apply (read_foldl (WellNamed name) id resolve_range resolve_range (journal_ranges batch)
    metadata.ranges h ?_ fun _ _ _ _ => rfl).1
  intro ranges entry hentry hranges
  obtain ⟨hmem, hpub⟩ := mem_journal_ranges hentry
  apply hranges.update_first
  · intro range hrange
    split
    · rfl
    · exact hrange
  · intro range hrange hk
    split
    · exact hbatch entry hmem hpub
    · rw [hranges.named range hrange, hk]

theorem same_file_of_fields_eq {a b : RangeSpec} (h : fields a = fields b) :
    a.extent = b.extent ∧ a.file_path = b.file_path := by
  simp only [fields, mk.injEq] at h
  unfold extent
  rw [h.1]
  exact ⟨rfl, rfl⟩

theorem wellNamed_update_stats (h : WellNamed name ranges)
    (hf : ∀ range, fields (f range) = fields range) :
    WellNamed name (update_first extent k f ranges) := by
  refine h.update_first (fun range hk => ?_) fun range hrange hk => ?_
  · rw [(same_file_of_fields_eq (hf range)).1, hk]
  · rw [(same_file_of_fields_eq (hf range)).2, h.named range hrange, hk]

theorem range_at_update_stats (hf : ∀ range, fields (f range) = fields range)
    (ranges : List RangeSpec) :
    range_at x (update_first extent k f ranges) = range_at x ranges := by
  rw [range_at_update_first fun range hrange =>
    (same_file_of_fields_eq (hf range)).1.trans hrange, show fields ∘ f = fields from funext hf]
  exact ite_self _

theorem range_at_append :
    range_at x (ranges ++ [entry.range_spec]) =
      if entry.extent = x then (range_at x ranges).or (some (fields entry.range_spec))
      else range_at x ranges := by
  unfold range_at
  rw [lookup_append_singleton]
  by_cases hx : entry.extent = x
  · subst hx
    simp [JournalEntry.extent]
  · rw [if_neg hx, if_neg (show ¬ entry.range_spec.extent = x from hx), or_none]

theorem range_at_update :
    range_at x (update_first extent entry.extent (fun _ => entry.range_spec) ranges) =
      if entry.extent = x then (range_at x ranges).map fun _ => fields entry.range_spec
      else range_at x ranges := by
  rw [range_at_update_first (k := entry.extent) fun _ _ => rfl, range_at, Option.map_map]
  rfl

theorem range_at_remove (h : WellNamed name ranges) (entry : JournalEntry)
    (hname : file_name entry.range_spec.file_path = name entry.extent) :
    range_at x (ranges.filter (retained_by entry)) =
      if entry.extent = x then
        (range_at x ranges).filter fun range => range.created_at > entry.timestamp
      else range_at x ranges := by
  unfold range_at
  rw [lookup_filter h.extents_nodup]
  cases hfound : lookup extent ranges x with
  | none => split <;> rfl
  | some range =>
    have hx := key_of_lookup hfound
    have hfile := h.named range (mem_of_lookup hfound)
    by_cases heq : entry.extent = x
    · have hretained : retained_by entry range = decide (range.created_at > entry.timestamp) := by
        rw [retained_by]
        rw [hname, hfile, hx, heq]
        simp
      by_cases hnewer : entry.timestamp < range.created_at
      all_goals simp [Option.filter, hretained, heq, hnewer]
    · have hother : range.extent ≠ entry.extent := by
        rw [hx]
        exact Ne.symm heq
      simp [Option.filter, retained_by, hother, heq]

/-- A write that leaves what the slot holds leaves it at every extent. -/
theorem range_at_found {e : Slot.Timed RangeSpec} {found : Option RangeSpec}
    (hfound : lookup extent ranges k = found)
    (hkept : found.map fields = step created_at (found.map fields) e) :
    range_at x ranges = (if k = x then some e else none).elim (range_at x ranges)
      (step created_at (range_at x ranges)) := by
  split
  · rename_i hx
    rw [← hx, range_at, hfound]
    exact hkept
  · rfl

variable {object_version_id : String → FilePath}

/-- **The second pass, one entry.** Every extent sees an entry as its write of the slot. -/
theorem apply_entry_at {s : Applied} (h : WellNamed name s.metadata.ranges)
    (hmatch : entry.matches_object_version object_version_id s.metadata.object_metadata.etag = true)
    (hname : entry.publishes = true ∨ entry.operation = .Remove →
      file_name entry.range_spec.file_path = name entry.extent) :
    WellNamed name (apply_entry object_version_id now s entry).metadata.ranges ∧
      range_at x (apply_entry object_version_id now s entry).metadata.ranges =
        (write_at x entry).elim (range_at x s.metadata.ranges)
          (step created_at (range_at x s.metadata.ranges)) := by
  unfold apply_entry write_at
  cases hop : entry.operation with
  | Add =>
    have hfile := hname (.inl (by simp [JournalEntry.publishes, hop]))
    dsimp only
    cases hfound : lookup extent s.metadata.ranges entry.extent with
    | none =>
      refine ⟨h.append hfound hfile, ?_⟩
      rw [range_at_append]
      split <;> rfl
    | some range => exact ⟨h, range_at_found hfound rfl⟩
  | Update =>
    have hfile := hname (.inl (by simp [JournalEntry.publishes, hop]))
    dsimp only
    cases hfound : lookup extent s.metadata.ranges entry.extent with
    | none => exact ⟨h, range_at_found hfound rfl⟩
    | some range =>
      refine ⟨h.update_first (fun _ _ => rfl) fun _ _ _ => hfile, ?_⟩
      rw [range_at_update]
      split <;> rfl
  | Remove =>
    dsimp only
    rw [if_pos hmatch]
    refine ⟨h.filter _, ?_⟩
    rw [range_at_remove h entry (hname (.inr hop))]
    split <;> rfl
  | TtlRefresh | AccessUpdate =>
    dsimp only
    split
    · refine ⟨wellNamed_update_stats h fun _ => rfl, ?_⟩
      rw [range_at_update_stats]
      · split <;> rfl
      · exact fun _ => rfl
    · exact ⟨h, by split <;> rfl⟩
  | Graduation =>
    dsimp only
    split <;> exact ⟨h, by split <;> rfl⟩

/-- **The second pass.** An extent sees the batch as its writes of the slot, in order. -/
theorem apply_journal_entries_at (now : ℕ) (h : WellNamed name metadata.ranges)
    (hmatch : ∀ entry ∈ batch,
      entry.matches_object_version object_version_id metadata.object_metadata.etag = true)
    (hname : ∀ entry ∈ batch, entry.publishes = true ∨ entry.operation = .Remove →
      file_name entry.range_spec.file_path = name entry.extent) :
    WellNamed name (apply_journal_entries object_version_id now metadata batch).metadata.ranges ∧
      range_at x (apply_journal_entries object_version_id now metadata batch).metadata.ranges =
        (writes_at x batch).foldl (step created_at) (range_at x metadata.ranges) := by
  have hetag : ∀ s : Applied, ∀ entry : JournalEntry,
      (apply_entry object_version_id now s entry).metadata.object_metadata.etag =
        s.metadata.object_metadata.etag := by
    intro s entry
    obtain ⟨_, _, _, hmeta⟩ := apply_entry_metadata object_version_id now s entry
    rw [hmeta]
  obtain ⟨⟨hwell, -⟩, hread⟩ := read_foldl
    (fun s : Applied => WellNamed name s.metadata.ranges ∧
      s.metadata.object_metadata.etag = metadata.object_metadata.etag)
    (fun s => range_at x s.metadata.ranges) (apply_entry object_version_id now)
    (fun s entry => (write_at x entry).elim s (step created_at s)) batch
    ⟨metadata, 0, [], 0⟩ ⟨h, rfl⟩
    (fun s entry hentry hs => ⟨(apply_entry_at (x := x) hs.1 (hs.2 ▸ hmatch entry hentry)
      (hname entry hentry)).1, (hetag s entry).trans hs.2⟩)
    (fun s entry hentry hs => (apply_entry_at hs.1 (hs.2 ▸ hmatch entry hentry)
      (hname entry hentry)).2)
  unfold apply_journal_entries
  rw [infer_content_length_ranges]
  refine ⟨hwell, hread.trans ?_⟩
  unfold writes_at
  rw [foldl_filterMap]
  congr 1
  funext s entry
  cases write_at x entry <;> rfl

end Apply

/-! ## Last writer wins -/

/-- The law, for one extent: a range of the extent in the resulting record has the fields of the
newest publication and no removal is newer; if there is none, nothing was published or a removal
is newer than all of it. -/
def LastWriterWins (x : ℕ × ℕ) (metadata : NewCacheMetadata) (batch : List JournalEntry)
    (result : NewCacheMetadata) : Prop :=
  (∀ range ∈ result.ranges, range.extent = x →
    Slot.IsNewest (publications_at x metadata batch) (fields range) ∧
      ¬ Slot.RemovedLast (publications_at x metadata batch) (writes_at x batch)) ∧
  ((∀ range ∈ result.ranges, range.extent ≠ x) →
    publications_at x metadata batch = [] ∨
      Slot.RemovedLast (publications_at x metadata batch) (writes_at x batch))

/-- What the extent starts with: the newest publication, if the record has a range there. -/
def newest_on_record (x : ℕ × ℕ) (metadata : NewCacheMetadata) (batch : List JournalEntry) :
    Option RangeSpec :=
  (range_at x metadata.ranges).bind fun _ =>
    (newest (publications_at x metadata batch)).map Prod.snd

/-- When the newest publication of an extent is the one that stays. If the record has the extent
and no removal reaches it, the last `Update` after the last `Remove` must be a newest one. If not,
the first `Add` after the last `Remove` must be a newest one, or the last `Update` after that;
and if there is no such `Add`, the last `Remove` must be newer than every publication. -/
def NewestStays (x : ℕ × ℕ) (metadata : NewCacheMetadata) (batch : List JournalEntry) : Prop :=
  let pubs := publications_at x metadata batch
  let es := writes_at x batch
  (Slot.Held created_at (newest_on_record x metadata batch) es →
    ∀ range ∈ (updates (since_remove es)).getLast?, Slot.IsNewest pubs range) ∧
  (¬ Slot.Held created_at (newest_on_record x metadata batch) es →
    (∀ range ∈ kept (since_remove es), Slot.IsNewest pubs range) ∧
    (kept (since_remove es) = none → pubs = [] ∨ Slot.RemovedLast pubs es))

instance (x : ℕ × ℕ) (metadata result : NewCacheMetadata) (batch : List JournalEntry) :
    Decidable (LastWriterWins x metadata batch result) :=
  inferInstanceAs (Decidable (_ ∧ _))

instance (x : ℕ × ℕ) (metadata : NewCacheMetadata) (batch : List JournalEntry) :
    Decidable (NewestStays x metadata batch) :=
  inferInstanceAs (Decidable (_ ∧ _))

section LastWriter

variable {x : ℕ × ℕ} {batch : List JournalEntry}

theorem lastWriterWins_iff_newestWins {metadata result : NewCacheMetadata}
    (hnodup : (result.ranges.map extent).Nodup) :
    LastWriterWins x metadata batch result ↔
      Slot.NewestWins (publications_at x metadata batch) (writes_at x batch)
        (range_at x result.ranges) := by
  unfold LastWriterWins range_at
  cases hfound : lookup extent result.ranges x with
  | none =>
    have hnone := lookup_eq_none.mp hfound
    constructor
    · exact fun h => h.2 hnone
    · exact fun h => ⟨fun range hrange hx => absurd hx (hnone range hrange), fun _ => h⟩
  | some range =>
    have hmem := mem_of_lookup hfound
    have hx := key_of_lookup hfound
    constructor
    · exact fun h => h.1 range hmem hx
    · intro h
      refine ⟨fun range' hrange' hx' => ?_, fun hnone => absurd hx (hnone range hmem)⟩
      have hfound' := lookup_of_mem hnodup hrange'
      rw [hx', hfound] at hfound'
      rw [← Option.some.inj hfound']
      exact h

theorem ordered_writes_at (hasc : batch.Pairwise fun a b => a.timestamp ≤ b.timestamp)
    (hstamped : ∀ entry ∈ batch, entry.publishes = true →
      entry.range_spec.created_at ≤ entry.timestamp) :
    Slot.Ordered created_at (writes_at x batch) := by
  have htime : ∀ entry : JournalEntry, ∀ e ∈ write_at x entry, e.time = entry.timestamp := by
    intro entry e he
    obtain ⟨-, ⟨-, rfl⟩ | ⟨-, rfl⟩ | ⟨-, rfl⟩⟩ := write_at_eq_some he
    all_goals rfl
  constructor
  · unfold writes_at
    rw [pairwise_filterMap]
    refine hasc.imp fun {a b} hab e he e' he' => ?_
    rw [htime a e he, htime b e' he']
    exact hab
  · intro e he c hc
    obtain ⟨entry, hentry, hwrite⟩ := mem_filterMap.mp he
    have hpub := hstamped entry hentry
    obtain ⟨-, ⟨hop, rfl⟩ | ⟨hop, rfl⟩ | ⟨hop, rfl⟩⟩ := write_at_eq_some hwrite
    all_goals
      cases hc
      try exact hpub (by simp [JournalEntry.publishes, hop])

theorem stamped_publications_at {metadata : NewCacheMetadata}
    (h : Slot.Ordered created_at (writes_at x batch)) :
    ∀ p ∈ publications_at x metadata batch, p.2.created_at ≤ p.1 := by
  intro p hp
  rcases mem_append.mp hp with hp | hp
  · obtain ⟨range, -, rfl⟩ := map_eq_some_iff.mp (mem_toList.mp hp)
    exact Nat.le_refl _
  · obtain ⟨e, he, hpub⟩ := mem_filterMap.mp hp
    obtain ⟨c, hc, rfl⟩ := map_eq_some_iff.mp hpub
    exact h.stamped e he c hc

/-- **Last writer wins, when.** For every record, every set of entries of one version in whatever
order the journals hold them, and every extent: consolidation leaves the newest publication of the
extent if and only if it is the one that stays. -/
theorem last_writer_wins_iff (object_version_id : String → FilePath) (now : ℕ)
    (metadata : NewCacheMetadata) (journals : List JournalEntry) (cache_key : String)
    (h : OneVersion object_version_id metadata (get_all_entries_for_cache_key journals cache_key))
    (x : ℕ × ℕ) :
    LastWriterWins x metadata (get_all_entries_for_cache_key journals cache_key)
      (apply_journal_entries object_version_id now
        (resolve_conflicts metadata (get_all_entries_for_cache_key journals cache_key))
        (get_all_entries_for_cache_key journals cache_key)).metadata ↔
      NewestStays x metadata (get_all_entries_for_cache_key journals cache_key) := by
  have hasc := sort_by_key_ascending JournalEntry.timestamp
    (journals.filter fun entry => entry.cache_key = cache_key)
  change (get_all_entries_for_cache_key journals cache_key).Pairwise _ at hasc
  generalize get_all_entries_for_cache_key journals cache_key = batch at h hasc ⊢
  obtain ⟨name, hranges, hentries⟩ := h.named
  have hresolved : WellNamed name (resolve_conflicts metadata batch).ranges :=
    WellNamed.resolve_conflicts ⟨h.extents_nodup, hranges⟩
      fun entry hentry hpub => hentries entry hentry (.inl hpub)
  obtain ⟨hwell, hat⟩ := apply_journal_entries_at (x := x) now hresolved h.matching hentries
  have hordered : Slot.Ordered created_at (writes_at x batch) :=
    ordered_writes_at hasc h.stamped
  rw [lastWriterWins_iff_newestWins hwell.extents_nodup, hat, resolve_conflicts_at]
  apply newestWins_foldl_iff hordered
  · intro c hc
    obtain ⟨_, -, hc⟩ := bind_eq_some_iff.mp hc
    obtain ⟨p, hp, rfl⟩ := map_eq_some_iff.mp hc
    exact isNewest_of_newest hp
  · exact stamped_publications_at hordered
  · exact fun p hp => mem_append_right _ hp

theorem oneVersion_of_adds {ranges : List RangeSpec}
    (hranges : ∀ range ∈ ranges, ∃ t n, range = (add_of_first_ten t n).range_spec)
    (hnodup : (ranges.map extent).Nodup)
    (hbatch : ∀ entry ∈ batch, ∃ t n, entry = add_of_first_ten t n) :
    OneVersion (fun _ => ['v']) (record_of ranges) batch := by
  refine ⟨hnodup, ?_, ?_, fun _ => file_name (versioned_range_file_path ['o'] 0 9 ['v']), ?_, ?_⟩
  · intro entry hentry
    obtain ⟨t, n, rfl⟩ := hbatch entry hentry
    have hbelongs : range_file_belongs_to (add_of_first_ten t n).range_spec ['v'] = true :=
      range_file_belongs_to_iff.mpr ⟨['o'], rfl⟩
    show (range_file_belongs_to (add_of_first_ten t n).range_spec ['v'] && true) = true
    rw [hbelongs]
    rfl
  · intro entry hentry _
    obtain ⟨t, n, rfl⟩ := hbatch entry hentry
    exact Nat.le_refl _
  · intro range hrange
    obtain ⟨t, n, rfl⟩ := hranges range hrange
    rfl
  · intro entry hentry _
    obtain ⟨t, n, rfl⟩ := hbatch entry hentry
    rfl

def two_adds (time size time' size' : ℕ) : List JournalEntry :=
  get_all_entries_for_cache_key [add_of_first_ten time size, add_of_first_ten time' size']
    "bucket/object"

/-- Two `Add`s of an extent the record does not have: the older one stays. -/
theorem older_add_of_a_new_extent_stays :
    OneVersion (fun _ => ['v']) (record_of []) (two_adds 2 7 1 5) ∧
    ¬ LastWriterWins (0, 9) (record_of []) (two_adds 2 7 1 5)
      (apply_journal_entries (fun _ => ['v']) 3
        (resolve_conflicts (record_of []) (two_adds 2 7 1 5)) (two_adds 2 7 1 5)).metadata := by
  refine ⟨oneVersion_of_adds (by simp) (by simp) ?_, by decide⟩
  intro entry hentry
  rcases mem_pair.mp (mem_get_all_entries.mp hentry).1 with rfl | rfl
  · exact ⟨2, 7, rfl⟩
  · exact ⟨1, 5, rfl⟩

/-- Two `Add`s of an extent the record has: the newer one takes the range's place. -/
theorem newer_add_of_a_recorded_extent_wins :
    LastWriterWins (0, 9) (record_of [(add_of_first_ten 1 5).range_spec]) (two_adds 2 7 3 6)
      (apply_journal_entries (fun _ => ['v']) 4
        (resolve_conflicts (record_of [(add_of_first_ten 1 5).range_spec]) (two_adds 2 7 3 6))
        (two_adds 2 7 3 6)).metadata := by
  refine (last_writer_wins_iff (fun _ => ['v']) 4 _ _ _
    (oneVersion_of_adds ?_ (by simp) ?_) (0, 9)).mpr (by decide)
  · intro range hrange
    exact ⟨1, 5, mem_singleton.mp hrange⟩
  · intro entry hentry
    rcases mem_pair.mp (mem_get_all_entries.mp hentry).1 with rfl | rfl
    · exact ⟨2, 7, rfl⟩
    · exact ⟨3, 6, rfl⟩

end LastWriter

end HybridCache.Journal
