/-
Everything that happens to the record of one key.

What holds a lock or writes once is one step; an unlocked update is two, a read and a write. A
buffered refresh goes from a process's buffer to its journal and from there, by a consolidation,
into the record. `refreshes` is for the proofs only: it says which version a buffered refresh was
for.
-/
import HybridCache.CacheManager.Writers
import HybridCache.Journal.Freshness

namespace HybridCache.CacheManager

open Lib CacheTypes Journal DiskCache

inductive UpdateTask where
  | waiting (update : RecordUpdate)
  | holding (update : RecordUpdate) (read : NewCacheMetadata)

/-- The shared files of a key, the processes `ι` and the updates `τ` under way. -/
structure KeyState (ι τ : Type) where
  versions : Versions ι
  tasks : τ → Option UpdateTask
  buffers : ι → List JournalEntry
  refreshes : List (JournalEntry × String)

def KeyState.init {ι τ : Type} : KeyState ι τ :=
  ⟨.init, fun _ => none, fun _ => [], []⟩

def KeyState.file {ι τ : Type} (s : KeyState ι τ) : Option NewCacheMetadata :=
  s.versions.file

inductive KeyEvent (ι τ : Type) where
  /-- A range store, a consolidation, or a process that forgets what it confirmed. -/
  | version (event : VersionEvent ι)
  | head (run : HeadRun) (head : HeadResponse)
  | publish (p : Publication) (kind : PublicationKind) (metadata_written journaled : Bool)
  /-- `store_part_as_range` up to the store; if it succeeds the part map is next. -/
  | part (task : τ) (i : ι) (run : StoreRun) (get_ttl : ℕ) (response : PartResponse)
  /-- A `304` whose refresh goes to the record directly. -/
  | revalidated (task : τ) (refresh : Refresh)
  | read (task : τ)
  | write (task : τ) (metadata_written : Bool)
  /-- A `304` whose refresh goes to the process's buffer (`record_ttl_refresh`). -/
  | buffer (i : ι) (validated : String) (timestamp new_ttl_secs : ℕ)
  | flush (i : ι) (journaled : Bool)

open Function

section Step

variable (env : KeyEnv) {ι τ : Type} [DecidableEq ι] [DecidableEq τ]

def head_step (s : Versions ι) (run : HeadRun) (head : HeadResponse) : Versions ι :=
  let out := store_head_cache_entry_unified env.cache_key run head s.file
  { s with
    file := out.file
    journals := s.journals ++ if run.removals_journaled then
      out.removed.map (remove_entry env.ranges_dir env.cache_key run.now) else [] }

def publish_step (s : Versions ι) (p : Publication) (kind : PublicationKind)
    (metadata_written journaled : Bool) : Versions ι :=
  if metadata_written then
    { s with
      file := some (published_record env.object_version_id env.base env.in_progress p kind)
      journals := s.journals ++ if journaled then
        published_entries env.object_version_id env.base env.in_progress env.cache_key p kind
        else [] }
  else s

def KeyState.step (s : KeyState ι τ) : KeyEvent ι τ → Option (KeyState ι τ)
  | .version event => (s.versions.step env event).map fun versions => { s with versions }
  | .head run head => some { s with versions := head_step env s.versions run head }
  | .publish p kind metadata_written journaled =>
    some { s with versions := publish_step env s.versions p kind metadata_written journaled }
  | .part task i run get_ttl response =>
    let out := store_range env s.versions i run (response.store_request get_ttl)
    some { s with
      versions := out.1
      tasks := if out.2 = none then
          update s.tasks task (some (.waiting (.part response)))
        else s.tasks }
  | .revalidated task refresh =>
    some { s with tasks := update s.tasks task (some (.waiting (.refresh refresh))) }
  | .read task =>
    match s.tasks task with
    | some (.waiting update) =>
      -- without a record there is nothing to update
      some { s with tasks := Function.update s.tasks task (s.file.map fun m => .holding update m) }
    | _ => none
  | .write task metadata_written =>
    match s.tasks task with
    | some (.holding update read) =>
      some { s with
        tasks := Function.update s.tasks task none
        versions := { s.versions with
          file := if metadata_written then (update.apply read).or s.file else s.file } }
    | _ => none
  | .buffer i validated timestamp new_ttl_secs =>
    let entry := ttl_refresh env.cache_key timestamp new_ttl_secs
    some { s with
      buffers := update s.buffers i (s.buffers i ++ [entry])
      refreshes := s.refreshes ++ [(entry, validated)] }
  | .flush i journaled =>
    some { s with
      buffers := update s.buffers i []
      versions := { s.versions with
        journals := s.versions.journals ++ if journaled then s.buffers i else [] } }

end Step

/-! ## What a step does to the record

The record a step leaves is the one that was there, or one made from a response at
the time of the step, or one of three changes to a record: a HEAD response's, a
consolidation's, an unlocked update's. Every result about the record goes through
these cases. -/

open KeyState

section Cases

variable (env : KeyEnv) {ι τ : Type}

def KeyState.batch (s : KeyState ι τ) (valid : JournalEntry → Bool) : List JournalEntry :=
  (get_all_entries_for_cache_key s.versions.journals env.cache_key).filter valid

/-- What was recorded earlier and is applied to the record now. -/
inductive Application where
  | batch (loaded_at applied_at : ℕ) (unlinked : RangeSpec → Bool) (entries : List JournalEntry)
  | update (update : RecordUpdate) (read : NewCacheMetadata)

def KeyState.application (s : KeyState ι τ) : KeyEvent ι τ → Option Application
  | .version (.consolidate loaded_at applied_at valid unlinked true _) =>
    if s.batch env valid = [] then none
    else some (.batch loaded_at applied_at unlinked (s.batch env valid))
  | .write task true =>
    match s.tasks task with
    | some (.holding update read) =>
      if (update.apply read).isSome then some (.update update read) else none
    | _ => none
  | _ => none

variable {event : KeyEvent ι τ} {s s' : KeyState ι τ} {entry : JournalEntry}

variable {env} in
theorem KeyState.application_batch {loaded_at applied_at : ℕ} {unlinked : RangeSpec → Bool}
    {entries : List JournalEntry}
    (h : s.application env event = some (.batch loaded_at applied_at unlinked entries)) :
    ∃ valid retired, event = .version (.consolidate loaded_at applied_at valid unlinked true
      retired) ∧ entries = s.batch env valid := by
  unfold application at h
  split at h
  · split_ifs at h
    obtain ⟨rfl, rfl, rfl, rfl⟩ := Application.batch.inj (Option.some.inj h)
    exact ⟨_, _, rfl, rfl⟩
  · split at h
    · split_ifs at h
      cases h
    · cases h
  · cases h

variable {env} in
theorem KeyState.application_update {update : RecordUpdate} {read : NewCacheMetadata}
    (h : s.application env event = some (.update update read)) :
    ∃ k, event = .write k true ∧ s.tasks k = some (.holding update read) := by
  unfold application at h
  split at h
  · split_ifs at h
    cases h
  · split at h
    · rename_i k _ _ _ htask
      split_ifs at h
      obtain ⟨rfl, rfl⟩ := Application.update.inj (Option.some.inj h)
      exact ⟨k, rfl, htask⟩
    · cases h
  · cases h

def KeyEvent.time : KeyEvent ι τ → Option ℕ
  | .version (.store _ run _) => some run.now
  | .version (.consolidate loaded_at _ _ _ _ _) => some loaded_at
  | .version (.forget _) => none
  | .head run _ => some run.now
  | .publish p _ _ _ => some p.now
  | .part _ _ run _ _ => some run.now
  | .revalidated _ refresh => some refresh.validated_at
  | .buffer _ _ timestamp _ => some timestamp
  | .read _ | .write _ _ | .flush _ _ => none

def KeyEvent.response : KeyEvent ι τ → Option ObjectMetadata
  | .version (.store _ _ request) => some request.object_metadata
  | .part _ _ _ _ response => some response.object_metadata
  | .head run response => some (create_head_only_metadata run response).object_metadata
  | .publish p kind _ _ => some (published_object p kind)
  | _ => none

/-- The record is made from the step's response at the time of the step; its headers may have
been stripped. -/
def KeyEvent.Makes (event : KeyEvent ι τ) (m : NewCacheMetadata) : Prop :=
  event.time = some m.created_at ∧
    ∃ object ∈ event.response, ∃ headers,
      m.object_metadata = { object with response_headers := headers }

inductive KeyState.FileStep (s : KeyState ι τ) (event : KeyEvent ι τ)
    (file' : Option NewCacheMetadata) : Prop where
  | same (h : s.application env event = none) (hfile' : file' = s.file)
      (hhead : ∀ run response, event = .head run response →
        (store_head_cache_entry_unified env.cache_key run response s.file).error ≠ none)
  | made (h : s.application env event = none) (m : NewCacheMetadata) (hfile' : file' = some m)
      (hm : event.Makes m)
      (hhead : ∀ run response, event = .head run response →
        s.file = none ∨ run.metadata_readable = false)
  | head (run : HeadRun) (response : HeadResponse) (m m' : NewCacheMetadata)
      (hevent : event = .head run response) (hfile : s.file = some m)
      (hreadable : run.metadata_readable = true)
      (hstored : (store_head_cache_entry_unified env.cache_key run response s.file).error = none)
      (hetag : response.etag ≠ "") (hdate : response.last_modified ≠ "")
      (hfile' : file' = some m')
      (hobject : m'.object_metadata = head_object_metadata response m.object_metadata)
      (hcreated : m'.created_at = m.created_at)
  | consolidated (loaded_at applied_at : ℕ) (unlinked : RangeSpec → Bool)
      (entries : List JournalEntry)
      (h : s.application env event = some (.batch loaded_at applied_at unlinked entries))
      (hfile' : file' = some (consolidate_object env.object_version_id loaded_at applied_at
        unlinked s.file entries))
  | updated (update : RecordUpdate) (read m : NewCacheMetadata)
      (h : s.application env event = some (.update update read))
      (hm : update.apply read = some m) (hfile' : file' = some m)

variable {env}

def KeyState.Holds (s : KeyState ι τ) (entry : JournalEntry) : Prop :=
  entry ∈ s.versions.journals ∨ ∃ i, entry ∈ s.buffers i

theorem KeyState.holds_of_mem_batch {valid : JournalEntry → Bool} (h : entry ∈ s.batch env valid) :
    s.Holds entry :=
  .inl (mem_get_all_entries.mp (List.mem_filter.mp h).1).1

variable [DecidableEq ι] [DecidableEq τ]

/-- **Inversion.** -/
theorem KeyState.fileStep (h : s.step env event = some s') : s.FileStep env event s'.file := by
  cases event with
  | version event =>
    obtain ⟨versions, hversions, rfl⟩ := Option.map_eq_some_iff.mp h
    cases event with
    | store i run request =>
      cases hversions
      rcases store_range_file s.versions i run request with hsame | ⟨hnew, -⟩
      · exact .same rfl hsame nofun
      · exact .made rfl _ hnew ⟨rfl, _, rfl, _, rfl⟩ nofun
    | consolidate loaded_at applied_at valid unlinked metadata_written retired =>
      unfold Versions.step at hversions
      dsimp only at hversions
      split_ifs at hversions with hempty hwritten
      · cases hversions
        refine .same ?_ rfl nofun
        cases metadata_written with
        | true => exact if_pos hempty
        | false => rfl
      · cases hversions
        obtain rfl := hwritten
        exact .same rfl rfl nofun
      · cases hversions
        obtain rfl := Bool.of_not_eq_false hwritten
        exact .consolidated loaded_at applied_at unlinked _ (if_neg hempty) rfl
    | forget i =>
      cases hversions
      exact .same rfl rfl nofun
  | head run response =>
    cases h
    rcases store_head_cases s.file with ⟨hsame, hfailed⟩ |
      ⟨hstored, hetag, hdate, ⟨hunread, hmade⟩ | ⟨m, m', hfile, hreadable, hm', hobject, hcreated⟩⟩
    · exact .same rfl hsame fun _ _ h => by cases h; exact hfailed
    · exact .made rfl _ hmade ⟨rfl, _, rfl, _, rfl⟩ fun _ _ h => by cases h; exact hunread
    · exact .head run response m m' rfl hfile hreadable hstored hetag hdate hm' hobject hcreated
  | publish p kind metadata_written journaled =>
    cases h
    cases metadata_written with
    | true => exact .made rfl _ rfl ⟨rfl, _, rfl, _, rfl⟩ nofun
    | false => exact .same rfl rfl nofun
  | part task i run get_ttl response =>
    cases h
    rcases store_range_file s.versions i run (response.store_request get_ttl) with hsame | ⟨hnew, -⟩
    · exact .same rfl hsame nofun
    · exact .made rfl _ hnew ⟨rfl, _, rfl, _, rfl⟩ nofun
  | revalidated task refresh | buffer i validated timestamp new_ttl_secs | flush i journaled =>
    cases h
    exact .same rfl rfl nofun
  | read task =>
    unfold step at h
    dsimp only at h
    split at h <;> cases h
    exact .same rfl rfl nofun
  | write task metadata_written =>
    unfold step at h
    dsimp only at h
    split at h <;> cases h
    rename_i update read htask
    cases metadata_written with
    | false => exact .same rfl rfl nofun
    | true =>
      cases hm : update.apply read with
      | none =>
        refine .same ?_ (by simp [file]) nofun
        simp [application, htask, hm]
      | some m =>
        refine .updated update read m ?_ hm (by simp [file])
        simp [application, htask, hm]

/-- The entry is dated by the step and describes its response, if it describes an object. -/
def KeyEvent.Dates (event : KeyEvent ι τ) (entry : JournalEntry) : Prop :=
  event.time = some entry.timestamp ∧ ∀ object ∈ entry.object_metadata, object ∈ event.response

/-- What a process has buffered it had before, or is the step's own. -/
theorem KeyState.buffered_cases {i : ι} (h : s.step env event = some s')
    (hentry : entry ∈ s'.buffers i) : entry ∈ s.buffers i ∨ event.Dates entry := by
  cases event with
  | version event =>
    obtain ⟨versions, -, rfl⟩ := Option.map_eq_some_iff.mp h
    exact .inl hentry
  | head run response | publish p kind metadata_written journaled | revalidated task refresh
  | part task j run get_ttl response =>
    cases h
    exact .inl hentry
  | read task | write task metadata_written =>
    unfold step at h
    dsimp only at h
    split at h <;> cases h
    exact .inl hentry
  | buffer j validated timestamp new_ttl_secs =>
    cases h
    dsimp only at hentry
    rw [update_apply] at hentry
    split_ifs at hentry with hij
    · subst hij
      rcases List.mem_append.mp hentry with hold | hnew
      · exact .inl hold
      · obtain rfl := List.mem_singleton.mp hnew
        exact .inr ⟨rfl, nofun⟩
    · exact .inl hentry
  | flush j journaled =>
    cases h
    dsimp only at hentry
    rw [update_apply] at hentry
    split_ifs at hentry
    · cases hentry
    · exact .inl hentry

/-- What is in the journals was held before, or is the step's own. -/
theorem KeyState.journaled_cases (h : s.step env event = some s')
    (hentry : entry ∈ s'.versions.journals) : s.Holds entry ∨ event.Dates entry := by
  cases event with
  | version event =>
    obtain ⟨versions, hversions, rfl⟩ := Option.map_eq_some_iff.mp h
    cases event with
    | store i run request =>
      cases hversions
      rcases journaled_by_store_range hentry with hold | ⟨htime, hobject⟩
      · exact .inl (.inl hold)
      · exact .inr ⟨congrArg some htime.symm, fun object h => congrArg some (hobject object h).symm⟩
    | consolidate loaded_at applied_at valid unlinked metadata_written retired =>
      unfold Versions.step at hversions
      dsimp only at hversions
      split_ifs at hversions <;> cases hversions
      · exact .inl (.inl hentry)
      · exact .inl (.inl hentry)
      · exact .inl (.inl (List.mem_filter.mp hentry).1)
    | forget i =>
      cases hversions
      exact .inl (.inl hentry)
  | head run response =>
    cases h
    rcases List.mem_append.mp hentry with hold | hnew
    · exact .inl (.inl hold)
    · split_ifs at hnew
      · obtain ⟨range, -, rfl⟩ := List.mem_map.mp hnew
        exact .inr ⟨rfl, nofun⟩
      · cases hnew
  | publish p kind metadata_written journaled =>
    cases h
    unfold publish_step at hentry
    split_ifs at hentry
    · rcases List.mem_append.mp hentry with hold | hnew
      · exact .inl (.inl hold)
      · cases kind with
        | put => cases hnew
        | complete parts | full =>
          obtain ⟨range, -, rfl⟩ := List.mem_map.mp hnew
          exact .inr ⟨rfl, fun _ h => h⟩
    · rw [List.append_nil] at hentry
      exact .inl (.inl hentry)
    · exact .inl (.inl hentry)
  | part task i run get_ttl response =>
    cases h
    rcases journaled_by_store_range hentry with hold | ⟨htime, hobject⟩
    · exact .inl (.inl hold)
    · exact .inr ⟨congrArg some htime.symm, fun object h => congrArg some (hobject object h).symm⟩
  | revalidated task refresh | buffer i validated timestamp new_ttl_secs =>
    cases h
    exact .inl (.inl hentry)
  | read task | write task metadata_written =>
    unfold step at h
    dsimp only at h
    split at h <;> cases h
    exact .inl (.inl hentry)
  | flush i journaled =>
    cases h
    rcases List.mem_append.mp hentry with hold | hnew
    · exact .inl (.inl hold)
    · split_ifs at hnew
      · exact .inl (.inr ⟨i, hnew⟩)
      · cases hnew

theorem KeyState.holds_cases (h : s.step env event = some s') (hentry : s'.Holds entry) :
    s.Holds entry ∨ event.Dates entry := by
  rcases hentry with hjournal | ⟨i, hbuffer⟩
  · exact journaled_cases h hjournal
  · exact (buffered_cases h hbuffer).imp_left fun hold => .inr ⟨i, hold⟩

/-- An update is under way as before, or the step begins it, or takes it from waiting to holding. -/
theorem KeyState.task_cases {k : τ} {task : UpdateTask} (h : s.step env event = some s')
    (htask : s'.tasks k = some task) :
    s.tasks k = some task ∨
      (∃ refresh, event = .revalidated k refresh ∧ task = .waiting (.refresh refresh)) ∨
      (∃ i run get_ttl response, event = .part k i run get_ttl response ∧
        task = .waiting (.part response)) ∨
      (∃ update m, event = .read k ∧ s.tasks k = some (.waiting update) ∧ s.file = some m ∧
        task = .holding update m) := by
  cases event with
  | version event =>
    obtain ⟨versions, -, rfl⟩ := Option.map_eq_some_iff.mp h
    exact .inl htask
  | head run response | publish p kind metadata_written journaled
  | buffer i validated timestamp new_ttl_secs | flush i journaled =>
    cases h
    exact .inl htask
  | part k' i run get_ttl response =>
    cases h
    dsimp only at htask
    split_ifs at htask
    · rw [update_apply] at htask
      split_ifs at htask with hk
      · subst hk
        exact .inr (.inr (.inl ⟨i, run, get_ttl, response, rfl, (Option.some.inj htask).symm⟩))
      · exact .inl htask
    · exact .inl htask
  | revalidated k' refresh =>
    cases h
    dsimp only at htask
    rw [update_apply] at htask
    split_ifs at htask with hk
    · subst hk
      exact .inr (.inl ⟨refresh, rfl, (Option.some.inj htask).symm⟩)
    · exact .inl htask
  | read k' =>
    unfold step at h
    dsimp only at h
    split at h <;> cases h
    rename_i update hwaiting
    dsimp only at htask
    rw [Function.update_apply] at htask
    split_ifs at htask with hk
    · subst hk
      obtain ⟨m, hm, rfl⟩ := Option.map_eq_some_iff.mp htask
      exact .inr (.inr (.inr ⟨update, m, rfl, hwaiting, hm, rfl⟩))
    · exact .inl htask
  | write k' metadata_written =>
    unfold step at h
    dsimp only at h
    split at h <;> cases h
    dsimp only at htask
    rw [update_apply] at htask
    split_ifs at htask
    exact .inl htask

end Cases

/-! ## Sample runs -/

def stored_at (now : ℕ) (etag last_modified : String) : KeyEvent Unit Unit :=
  .version (.store () (undisturbed now) (first_ten_of etag last_modified))

def refreshed_at (validated : String) (now : ℕ) : List (KeyEvent Unit Unit) :=
  [.revalidated () (.expiration validated now 60 60), .read (), .write () true]

def undisturbed_head (now : ℕ) : HeadRun where
  now := now
  effective_head_ttl := 60
  effective_get_ttl := 60
  metadata_lock_acquired := true
  metadata_readable := true
  attempt := fun _ => .removed
  on_disk := ∅
  removals_journaled := true
  metadata_written := true

def consolidated_at (now : ℕ) : KeyEvent Unit Unit :=
  .version (consolidation now)

end HybridCache.CacheManager
