/-
What a revalidation does for freshness (`check_object_expiration` in `disk_cache.rs`).

The check measures age from `created_at`. A refresh moves `expires_at`, and no step moves
`created_at` of a record that stays, so a `304` at time `t` starts a new window only if the record
was made at `t` or later.

`restored` is the latest revalidation that has been applied to the version on record, `reported`
the last version that a HEAD response has put in the place of another.
-/
import HybridCache.CacheManager.KeyState

namespace HybridCache.CacheManager

open Lib CacheTypes Journal DiskCache Option

/-! ## The check -/

inductive ObjectExpirationResult where
  | Fresh
  | Expired (last_modified etag : Option String)
deriving DecidableEq, Repr

def missing_write_cache_last_modified (m : NewCacheMetadata) : Bool :=
  m.object_metadata.is_write_cached && m.effective_last_modified.isNone

def check_object_expiration (file : Option NewCacheMetadata) (current_get_ttl now : ℕ) :
    ObjectExpirationResult :=
  match file with
  | none => .Expired none none
  | some m =>
    -- a record from the future has age 0
    let age := now - m.created_at
    let ttl_expired := current_get_ttl = 0 ∨ age > current_get_ttl
    if ttl_expired ∨ missing_write_cache_last_modified m then
      .Expired m.effective_last_modified
        ((some m.object_metadata.etag).filter fun etag => etag ≠ "")
    else .Fresh

/-- From `t` on, the record passes the check for the whole of every TTL. -/
def FreshFrom (t : ℕ) (file : Option NewCacheMetadata) : Prop :=
  ∀ d > 0, ∀ now, t ≤ now → now ≤ t + d → check_object_expiration file d now = .Fresh

theorem freshFrom_iff {t : ℕ} {m : NewCacheMetadata}
    (hdate : missing_write_cache_last_modified m = false) :
    FreshFrom t (some m) ↔ t ≤ m.created_at := by
  have hcheck : ∀ d now, check_object_expiration (some m) d now = .Fresh ↔
      d ≠ 0 ∧ now ≤ m.created_at + d := by
    intro d now
    unfold check_object_expiration
    dsimp only
    rw [hdate]
    by_cases hexpired : d = 0 ∨ now - m.created_at > d
    · rw [if_pos (.inl hexpired)]
      simp only [reduceCtorEq, false_iff]
      omega
    · rw [if_neg (by simpa using hexpired)]
      simp only [true_iff]
      omega
  constructor
  · intro h
    have hnow := ((hcheck 1 (t + 1)).mp (h 1 Nat.one_pos (t + 1) (Nat.le_succ t) le_rfl)).2
    omega
  · intro h d hd now _ hnow
    exact (hcheck d now).mpr ⟨hd.ne', by omega⟩

/-! ## What leaves a record's age alone -/

theorem find_last_modified_strip (headers : List (String × String)) :
    ((strip_response_scoped_headers headers).find? fun h => h.1.toLower = "last-modified") =
      headers.find? fun h => h.1.toLower = "last-modified" := by
  unfold strip_response_scoped_headers
  rw [List.find?_filter]
  congr 1
  funext h
  by_cases hdate : h.1.toLower = "last-modified" <;> simp [hdate]

open NewCacheMetadata

theorem RecordUpdate.apply_keeps {update : RecordUpdate} {read m : NewCacheMetadata}
    (h : update.apply read = some m) :
    m.created_at = read.created_at ∧ m.object_metadata.etag = read.object_metadata.etag ∧
      missing_write_cache_last_modified m = missing_write_cache_last_modified read := by
  cases update with
  | refresh refresh =>
    obtain ⟨expires_at, head_expires_at, happly⟩ := refresh.apply_eq read
    cases h
    rw [happly]
    exact ⟨rfl, rfl, rfl⟩
  | part response =>
    obtain ⟨part_ranges, rfl, -⟩ := populate_eq h
    refine ⟨rfl, rfl, ?_⟩
    unfold missing_write_cache_last_modified effective_last_modified
      tier Metadata.NewCacheMetadata.effective_last_modified
    rw [find_last_modified_strip]

theorem consolidate_keeps (object_version_id : String → FilePath) (loaded_at applied_at : ℕ)
    (unlinked : RangeSpec → Bool) (m : NewCacheMetadata) (entries : List JournalEntry) :
    let m' := consolidate_object object_version_id loaded_at applied_at unlinked (some m) entries
    m'.created_at = m.created_at ∧ m'.object_metadata.etag = m.object_metadata.etag ∧
      missing_write_cache_last_modified m' = missing_write_cache_last_modified m := by
  obtain ⟨ranges, expires_at, accounted, content_length, hrecord⟩ := consolidate_object_metadata
    object_version_id loaded_at applied_at unlinked (some m) entries
  rw [hrecord]
  exact ⟨rfl, rfl, rfl⟩

theorem missing_of_head {response : HeadResponse} {object : ObjectMetadata} {m : NewCacheMetadata}
    (hdate : response.last_modified ≠ "")
    (hobject : m.object_metadata = head_object_metadata response object) :
    missing_write_cache_last_modified m = false := by
  have hlast : m.object_metadata.last_modified = response.last_modified := by
    rw [hobject]
    exact if_pos hdate
  have heffective : m.effective_last_modified = some response.last_modified := by
    unfold effective_last_modified
      Metadata.NewCacheMetadata.effective_last_modified tier
    rw [hlast, if_pos hdate]
  rw [missing_write_cache_last_modified, heffective]
  exact Bool.and_false _

/-! ## Histories -/

structure History (ι τ : Type) where
  key : KeyState ι τ
  clock : ℕ
  reported : Option (String × ℕ)
  restored : ℕ

def History.init {ι τ : Type} : History ι τ :=
  ⟨.init, 0, none, 0⟩

section Steps

variable (env : KeyEnv) {ι τ : Type} [DecidableEq ι] [DecidableEq τ]

def History.revalidation_times (s : History ι τ) (etag : String) (entries : List JournalEntry) :
    List ℕ :=
  (entries.filter fun entry =>
    (entry.refresh_ttl?.isSome && decide ((entry, etag) ∈ s.key.refreshes)) ||
      (decide (entry.operation = .Add) &&
        entry.matches_object_version env.object_version_id etag &&
        s.reported.any fun r => r.1 = etag ∧ r.2 ≤ entry.timestamp)).map JournalEntry.timestamp

/-- The times of the revalidations that a step applies to a record. -/
def History.applied_times (s : History ι τ) (event : KeyEvent ι τ) (m : NewCacheMetadata) :
    List ℕ :=
  match s.key.application env event with
  | some (.batch _ _ _ entries) => s.revalidation_times env m.object_metadata.etag entries
  | some (.update (.refresh refresh) _) =>
    if refresh.validated = m.object_metadata.etag then [refresh.validated_at] else []
  | _ => []

/-- The latest revalidation of what is recorded after the step. -/
def History.next_restored (s : History ι τ) (event : KeyEvent ι τ)
    (file' : Option NewCacheMetadata) : ℕ :=
  match file' with
  | none => 0
  | some m' =>
    max (if s.key.file.any fun m => m.object_metadata.etag = m'.object_metadata.etag then s.restored
        else 0)
      ((s.applied_times env event m').foldr max ⊥)

def History.next_reported (s : History ι τ) : KeyEvent ι τ → Option (String × ℕ)
  | .head run response =>
    if (s.key.file.any fun m => etag_changed response m || size_changed response m) ∧
        (store_head_cache_entry_unified env.cache_key run response s.key.file).error = none then
      some (response.etag, run.now)
    else s.reported
  | _ => s.reported

def History.step (s : History ι τ) (event : KeyEvent ι τ) : Option (History ι τ) :=
  if event.time.all fun t => s.clock ≤ t then
    (s.key.step env event).map fun key =>
      { key := key
        clock := event.time.getD s.clock
        reported := s.next_reported env event
        restored := s.next_restored env event key.file }
  else none

def History.Restored (s : History ι τ) : Prop :=
  ∀ m ∈ s.key.file, missing_write_cache_last_modified m = false → FreshFrom s.restored s.key.file

/-- What is applied reaches a record that is young enough. -/
def History.Renews (s : History ι τ) (event : KeyEvent ι τ) : Prop :=
  match s.key.application env event with
  -- entries: the record on disk is no older than any revalidation among them
  | some (.batch _ _ _ entries) =>
    ∀ m ∈ s.key.file, missing_write_cache_last_modified m = false →
      ∀ t ∈ s.revalidation_times env m.object_metadata.etag entries, t ≤ m.created_at
  -- an unlocked update: the record it read is no older than its own revalidation and than the
  -- latest one of what it overwrites
  | some (.update update read) =>
    missing_write_cache_last_modified read = false →
      (∀ m ∈ s.key.file, m.object_metadata.etag = read.object_metadata.etag →
        s.restored ≤ read.created_at) ∧
      ∀ refresh, update = .refresh refresh → refresh.validated = read.object_metadata.etag →
        refresh.validated_at ≤ read.created_at
  | none =>
    match event with
    -- a HEAD response that dates a record: it is no older than the latest revalidation
    | .head run response =>
      ∀ m ∈ s.key.file, missing_write_cache_last_modified m = true →
        m.object_metadata.etag = response.etag → run.metadata_readable = true →
        (store_head_cache_entry_unified env.cache_key run response s.key.file).error = none →
        s.restored ≤ m.created_at
    | _ => True

end Steps

open History

section Results

variable {env : KeyEnv} {ι τ : Type}

/-! ## Times

Everything that can still be applied was recorded before now. -/

/-- Nothing is dated after the clock. -/
structure History.Timely (s : History ι τ) : Prop where
  restored : s.restored ≤ s.clock
  entries : ∀ entry, s.key.Holds entry → entry.timestamp ≤ s.clock
  waiting : ∀ k refresh, s.key.tasks k = some (.waiting (.refresh refresh)) →
    refresh.validated_at ≤ s.clock
  holding : ∀ k refresh read, s.key.tasks k = some (.holding (.refresh refresh) read) →
    refresh.validated_at ≤ s.clock

variable {s : History ι τ}

theorem mem_revalidation_times {etag : String} {entries : List JournalEntry} {t : ℕ}
    (h : t ∈ s.revalidation_times env etag entries) :
    ∃ entry ∈ entries, entry.timestamp = t := by
  obtain ⟨entry, hentry, rfl⟩ := List.mem_map.mp h
  exact ⟨entry, (List.mem_filter.mp hentry).1, rfl⟩

variable {event : KeyEvent ι τ}

theorem History.Timely.applied_times_le (hs : s.Timely) {m : NewCacheMetadata} {t : ℕ}
    (ht : t ∈ s.applied_times env event m) : t ≤ s.clock := by
  unfold applied_times at ht
  split at ht
  · rename_i happly
    obtain ⟨valid, -, -, rfl⟩ := KeyState.application_batch happly
    obtain ⟨entry, hentry, rfl⟩ := mem_revalidation_times ht
    exact hs.entries entry (KeyState.holds_of_mem_batch hentry)
  · rename_i happly
    obtain ⟨k, -, htask⟩ := KeyState.application_update happly
    split_ifs at ht
    · obtain rfl := List.mem_singleton.mp ht
      exact hs.holding k _ _ htask
    · cases ht
  · cases ht

theorem History.Timely.next_restored_le (hs : s.Timely) (event : KeyEvent ι τ)
    (file' : Option NewCacheMetadata) : s.next_restored env event file' ≤ s.clock := by
  cases file' with
  | none => exact Nat.zero_le _
  | some m' =>
    refine max_le ?_ (List.max_le_of_forall_le _ _ fun t ht => hs.applied_times_le ht)
    split_ifs
    · exact hs.restored
    · exact Nat.zero_le _

/-- What has been revalidated is on a record that is young enough. -/
def History.Renewed (s : History ι τ) : Prop :=
  ∀ m ∈ s.key.file, missing_write_cache_last_modified m = false → s.restored ≤ m.created_at

theorem History.restored_iff_renewed (s : History ι τ) : s.Restored ↔ s.Renewed := by
  refine forall_congr' fun m => forall_congr' fun hm => forall_congr' fun hdate => ?_
  rw [mem_def.mp hm]
  exact freshFrom_iff hdate

theorem History.next_restored_of_none (happly : s.key.application env event = none)
    (m' : NewCacheMetadata) :
    s.next_restored env event (some m') =
      if s.key.file.any fun m => m.object_metadata.etag = m'.object_metadata.etag then s.restored
      else 0 := by
  unfold next_restored applied_times
  rw [happly]
  exact max_eq_left (Nat.zero_le _)

/-- What has been revalidated is young enough with the record that a step leaves. -/
def History.RenewedWith (env : KeyEnv) (s : History ι τ) (event : KeyEvent ι τ)
    (file' : Option NewCacheMetadata) : Prop :=
  ∀ m ∈ file', missing_write_cache_last_modified m = false →
    s.next_restored env event file' ≤ m.created_at

theorem History.renewedWith_some {m : NewCacheMetadata} :
    s.RenewedWith env event (some m) ↔
      (missing_write_cache_last_modified m = false →
        s.next_restored env event (some m) ≤ m.created_at) := by
  simp only [RenewedWith, mem_def, Option.some.injEq, forall_eq']

/-- A record that stays is as young as it was. -/
theorem History.Renewed.renewedWith_same (hr : s.Renewed)
    (happly : s.key.application env event = none) : s.RenewedWith env event s.key.file := by
  intro m hm hdated
  refine le_trans ?_ (hr m hm hdated)
  rw [mem_def.mp hm, next_restored_of_none happly]
  split_ifs
  · exact le_rfl
  · exact Nat.zero_le _

/-- Where nothing is applied, only a HEAD response that is stored asks for a young record. -/
theorem History.renews_of_none (happly : s.key.application env event = none)
    (hhead : ∀ run response, event = .head run response → ∀ m ∈ s.key.file,
      run.metadata_readable = true →
        (store_head_cache_entry_unified env.cache_key run response s.key.file).error ≠ none) :
    s.Renews env event := by
  unfold History.Renews
  rw [happly]
  cases event with
  | head run response =>
    exact fun m hm _ _ hreadable hstored => absurd hstored (hhead run response rfl m hm hreadable)
  | _ => trivial

/-- A batch keeps the age of the record it is applied to. A record that the entries themselves make
is younger than they are. -/
theorem History.renewedWith_batch_iff {loaded_at applied_at : ℕ} {unlinked : RangeSpec → Bool}
    {entries : List JournalEntry} (hs : s.Timely) (hr : s.Renewed)
    (htime : ∀ t ∈ event.time, s.clock ≤ t)
    (happly : s.key.application env event = some (.batch loaded_at applied_at unlinked entries)) :
    s.RenewedWith env event (some (consolidate_object env.object_version_id loaded_at applied_at
      unlinked s.key.file entries)) ↔ s.Renews env event := by
  unfold History.Renews
  rw [happly, renewedWith_some]
  dsimp only
  cases hfile : s.key.file with
  | none =>
    refine iff_of_true (fun _ => ?_) (fun _ h => by cases h)
    rw [consolidate_object_created_at]
    obtain ⟨valid, retired, rfl, -⟩ := KeyState.application_batch happly
    exact (hs.next_restored_le _ _).trans (htime _ rfl)
  | some m =>
    obtain ⟨hcreated, hetag, hmissing⟩ := consolidate_keeps env.object_version_id loaded_at
      applied_at unlinked m entries
    rw [hmissing, hcreated]
    unfold next_restored applied_times
    dsimp only
    rw [happly, hfile, hetag]
    simp only [any_some, decide_true, if_true, mem_def, Option.some.injEq, forall_eq', max_le_iff]
    refine forall_congr' fun hdated => ⟨fun h t ht => ?_, fun h => ⟨hr m hfile hdated, ?_⟩⟩
    · exact (List.le_max_of_le ht le_rfl).trans h.2
    · exact List.max_le_of_forall_le _ _ h

/-- An unlocked update writes the record that it read, with the age it had. -/
theorem History.renewedWith_update_iff {update : RecordUpdate} {read m : NewCacheMetadata}
    (happly : s.key.application env event = some (.update update read))
    (hm : update.apply read = some m) :
    s.RenewedWith env event (some m) ↔ s.Renews env event := by
  obtain ⟨hcreated, hetag, hmissing⟩ := RecordUpdate.apply_keeps hm
  unfold History.Renews
  rw [happly, renewedWith_some, hmissing, hcreated]
  unfold next_restored applied_times
  dsimp only
  rw [happly, hetag, max_le_iff]
  refine forall_congr' fun _ => and_congr ?_ ?_
  · cases hfile : s.key.file with
    | none => simp
    | some m₀ =>
      simp only [any_some, decide_eq_true_eq, mem_def, Option.some.injEq, forall_eq']
      split_ifs with hsame <;> simp [hsame]
  · cases update with
    | part response => simp
    | refresh refresh =>
      simp only [RecordUpdate.refresh.injEq, forall_eq']
      split_ifs with hsame <;> simp [hsame]

variable [DecidableEq ι] [DecidableEq τ]

theorem History.step_eq_some {s s' : History ι τ} :
    s.step env event = some s' ↔ (∀ t ∈ event.time, s.clock ≤ t) ∧
      ∃ key, s.key.step env event = some key ∧
        s' = ⟨key, event.time.getD s.clock, s.next_reported env event,
          s.next_restored env event key.file⟩ := by
  unfold step
  rw [ite_none_right_eq_some, Option.all_eq_true, map_eq_some_iff]
  simp only [decide_eq_true_eq, eq_comm (a := s'), mem_def]

/-- **Step lemma.** Time goes on. -/
theorem History.Timely.step {s s' : History ι τ} (hs : s.Timely) (h : s.step env event = some s') :
    s'.Timely := by
  obtain ⟨htime, key, hkey, rfl⟩ := step_eq_some.mp h
  have hclock : s.clock ≤ event.time.getD s.clock := by
    cases htimes : event.time with
    | none => exact le_rfl
    | some t => exact htime t htimes
  have hdated : ∀ t, event.time = some t → t ≤ event.time.getD s.clock := by
    intro t ht
    rw [ht]
    exact le_rfl
  refine ⟨(hs.next_restored_le event _).trans hclock, fun entry hentry => ?_,
    fun k refresh hk => ?_, fun k refresh read hk => ?_⟩
  · rcases KeyState.holds_cases hkey hentry with hold | ⟨hnew, -⟩
    · exact (hs.entries entry hold).trans hclock
    · exact hdated _ hnew
  · rcases KeyState.task_cases hkey hk with hold | ⟨r, rfl, heq⟩ | ⟨_, _, _, _, _, heq⟩ |
      ⟨_, _, _, _, _, heq⟩
    · exact (hs.waiting k refresh hold).trans hclock
    · cases heq
      exact hdated _ rfl
    all_goals cases heq
  · rcases KeyState.task_cases hkey hk with hold | ⟨_, _, heq⟩ | ⟨_, _, _, _, _, heq⟩ |
      ⟨update, m, rfl, hwaiting, -, heq⟩
    · exact (hs.holding k refresh read hold).trans hclock
    · cases heq
    · cases heq
    · cases heq
      exact (hs.waiting k refresh hwaiting).trans hclock

/-- **Step lemma.** A step keeps what has been revalidated fresh exactly if what it applies
reaches a record that is young enough. -/
theorem History.renewed_step_iff {s s' : History ι τ} (hs : s.Timely) (hr : s.Renewed)
    (h : s.step env event = some s') :
    s'.Renewed ↔ s.Renews env event := by
  obtain ⟨htime, key, hkey, rfl⟩ := step_eq_some.mp h
  show s.RenewedWith env event key.file ↔ _
  rcases KeyState.fileStep hkey with ⟨happly, hfile', hhead⟩ | ⟨happly, m, hfile', hm, hhead⟩ |
    ⟨run, response, m, m', rfl, hfile, hreadable, hstored, hetag, hdate, hfile', hobject,
      hcreated⟩ |
    ⟨loaded_at, applied_at, unlinked, entries, happly, hfile'⟩ |
    ⟨update, read, m, happly, hm, hfile'⟩
  all_goals rw [hfile']
  · exact iff_of_true (hr.renewedWith_same happly)
      (renews_of_none happly fun run response hevent _ _ _ => hhead run response hevent)
  · -- a new record is younger than anything that was revalidated
    refine iff_of_true (renewedWith_some.mpr fun _ => ?_) (renews_of_none happly ?_)
    · exact (hs.next_restored_le event _).trans (htime _ hm.1)
    · intro run response hevent m₁ hm₁ hreadable
      rcases hhead run response hevent with hnone | hunread
      · cases hnone.symm.trans hm₁
      · cases hunread.symm.trans hreadable
  · -- the record is dated now, whatever it was before
    have hetag' : m'.object_metadata.etag = response.etag := by
      rw [hobject]
      exact if_pos hetag
    rw [renewedWith_some, hcreated, next_restored_of_none rfl, hfile, hetag']
    unfold History.Renews
    simp only [KeyState.application, hfile, any_some, decide_eq_true_eq, mem_def,
      Option.some.injEq, forall_eq', missing_of_head hdate hobject, forall_const]
    constructor
    · intro h _ hsame _ _
      rwa [if_pos hsame] at h
    · intro h
      split_ifs with hsame
      · cases hmissing : missing_write_cache_last_modified m with
        | false => exact hr m hfile hmissing
        | true => exact h hmissing hsame hreadable (hfile ▸ hstored)
      · exact Nat.zero_le _
  · exact renewedWith_batch_iff hs hr htime happly
  · exact renewedWith_update_iff happly hm

/-- **Revalidation restores freshness exactly if it reaches a young record.** All along a run,
what has been revalidated passes the check from then on for the whole of every TTL if and only if
every step applies its revalidations to a record that was made no earlier than they happened. -/
theorem revalidation_restores_freshness_iff (env : KeyEnv) (events : List (KeyEvent ι τ))
    (s : History ι τ) (hrun : run (step env) .init events = some s) :
    (∀ n s₁, run (step env) .init (events.take n) = some s₁ → s₁.Restored) ↔
      Guarded (step env) (History.Renews env) .init events := by
  refine run_forall_iff_guarded (fun s => s.Timely ∧ s.Renewed) History.Restored ?_ ?_ ?_ ?_ hrun
  · intro s hs
    exact s.restored_iff_renewed.mpr hs.2
  · intro s event s' hs hguard hstep
    exact ⟨hs.1.step hstep, (renewed_step_iff hs.1 hs.2 hstep).mpr hguard⟩
  · intro s event s' hs hstep hrestored
    exact (renewed_step_iff hs.1 hs.2 hstep).mp (s'.restored_iff_renewed.mp hrestored)
  · refine ⟨⟨le_rfl, ?_, ?_, ?_⟩, fun _ h => by cases h⟩
    · rintro entry (h | ⟨i, h⟩)
      all_goals cases h
    · intro k refresh h
      cases h
    · intro k refresh read h
      cases h

end Results

/-- Stored at `1`, revalidated at `100`: `expires_at` is `160`, and the check for a TTL of `60`
says expired at `100`. The same after a HEAD response has reported a new version at `100` and its
bytes were fetched at `101`. -/
theorem refreshed_record_stays_expired :
    (∃ s, run (step plain_env) .init
        (stored_at 1 "mon" "Mon" :: refreshed_at "mon" 100) = some s ∧
      s.restored = 100 ∧ s.key.file.map expires_at = some 160 ∧
      check_object_expiration s.key.file 60 100 = .Expired (some "Mon") (some "mon")) ∧
    (∃ s, run (step plain_env) .init
        [stored_at 1 "mon" "Mon", .head (undisturbed_head 100) ⟨[], "tue", "Tue", 10⟩,
          stored_at 101 "tue" "Tue", consolidated_at 102] = some s ∧
      s.restored = 101 ∧
      check_object_expiration s.key.file 60 101 = .Expired (some "Tue") (some "tue")) := by
  refine ⟨⟨_, rfl, ?_, ?_, ?_⟩, ⟨_, rfl, ?_, ?_⟩⟩
  all_goals decide

/-- A `304` in the second in which the record was made starts no later than the record does. -/
theorem refresh_in_the_same_second_restores :
    ∃ s, run (step plain_env) .init
        (stored_at 10 "mon" "Mon" :: refreshed_at "mon" 10) = some s ∧
      s.restored = 10 ∧
      ∀ n s₁, run (step plain_env) .init
        ((stored_at 10 "mon" "Mon" :: refreshed_at "mon" 10).take n) = some s₁ → s₁.Restored := by
  refine ⟨_, rfl, ?_, (revalidation_restores_freshness_iff plain_env _ _ rfl).mpr ?_⟩
  · decide
  · refine (guarded_cons rfl).mpr ⟨trivial, (guarded_cons rfl).mpr ⟨trivial,
      (guarded_cons rfl).mpr ⟨trivial, (guarded_cons rfl).mpr ⟨?_, trivial⟩⟩⟩⟩
    refine fun _ => ⟨fun _ _ _ => Nat.zero_le _, fun refresh hrefresh _ => ?_⟩
    cases hrefresh
    decide

end HybridCache.CacheManager
