/-
Which version a refresh reaches (`refresh_cache_ttl`, `refresh_object_ttl` and the `TtlRefresh` arm
of `apply_journal_entries`).

A `304` validates one version, but its refresh names only the key: the direct one stores the whole
record it read some time before, and the journaled one is applied to whatever record the
consolidation finds.
-/
import HybridCache.CacheManager.KeyState

namespace HybridCache.CacheManager

open Lib CacheTypes Journal DiskCache

def NoLater (m m' : NewCacheMetadata) : Prop :=
  m'.expires_at ≤ m.expires_at ∧ ∀ x ∈ m'.head_expires_at, ∃ y ∈ m.head_expires_at, x ≤ y

namespace Refresh

def expires_at : Refresh → ℕ
  | .expiration _ now effective_get_ttl _ => now + effective_get_ttl
  | .object_ttl _ _ now new_ttl => Metadata.safe_expiry now new_ttl

def head_expires_at (read : NewCacheMetadata) : Refresh → Option ℕ
  | .expiration _ now _ effective_head_ttl => some (now + effective_head_ttl)
  | .object_ttl _ _ _ _ => read.head_expires_at

theorem apply_expiries (refresh : Refresh) (read : NewCacheMetadata) :
    refresh.apply read = { read with
      expires_at := refresh.expires_at
      head_expires_at := refresh.head_expires_at read } := by
  cases refresh with
  | expiration | object_ttl => rfl

end Refresh

def last_refresh (entries : List JournalEntry) : Option JournalEntry :=
  (entries.filter fun entry => entry.refresh_ttl?.isSome).getLast?

theorem refreshes_getLast? (entries : List JournalEntry) :
    (refreshes entries).getLast? = (last_refresh entries).bind JournalEntry.refresh_ttl? := by
  unfold refreshes last_refresh
  induction entries using List.reverseRecOn with
  | nil => rfl
  | append_singleton rest entry ih =>
    cases httl : entry.refresh_ttl? with
    | none => simpa [httl] using ih
    | some ttl => simp [httl]

section Steps

variable (env : KeyEnv) {ι τ : Type}

/-- A step that applies the refresh of a `304` for one version does not move the expiries of
another, and a refresh that stores a record leaves the etag and the ranges of the one on disk. -/
def KeyState.Spares (s : KeyState ι τ) (event : KeyEvent ι τ) (s' : KeyState ι τ) : Prop :=
  match s.application env event with
  | some (.update (.refresh refresh) _) =>
    ∃ m m', s.file = some m ∧ s'.file = some m' ∧
      m'.object_metadata.etag = m.object_metadata.etag ∧ m'.ranges = m.ranges ∧
      (m.object_metadata.etag ≠ refresh.validated → NoLater m m')
  | some (.batch loaded_at _ _ entries) =>
    ∀ entry ∈ last_refresh entries, ∀ validated, (entry, validated) ∈ s.refreshes →
      (load_or_create_metadata loaded_at s.file entries).object_metadata.etag ≠ validated →
      ∀ m' ∈ s'.file, NoLater (load_or_create_metadata loaded_at s.file entries) m'
  | _ => True

/-- The refresh reaches the version it was for, or comes too early to matter. -/
def KeyState.OnTarget (s : KeyState ι τ) (event : KeyEvent ι τ) : Prop :=
  match s.application env event with
  -- the record on disk is still the one that was read
  | some (.update (.refresh refresh) read) =>
    ∃ m, s.file = some m ∧ read.object_metadata.etag = m.object_metadata.etag ∧
      read.ranges = m.ranges ∧
      (m.object_metadata.etag = refresh.validated ∨
        (refresh.expires_at ≤ m.expires_at ∧
          ∀ x ∈ refresh.head_expires_at read, ∃ y ∈ m.head_expires_at, x ≤ y))
  | some (.batch loaded_at applied_at _ entries) =>
    ∀ entry ∈ last_refresh entries, ∀ validated, (entry, validated) ∈ s.refreshes →
      let m := load_or_create_metadata loaded_at s.file entries
      m.object_metadata.etag = validated ∨
        ∀ ttl ∈ entry.refresh_ttl?, Metadata.safe_expiry applied_at ttl ≤ m.expires_at
  | _ => True

variable {env}

theorem noLater_consolidate_iff (loaded_at applied_at : ℕ) (unlinked : RangeSpec → Bool)
    (file : Option NewCacheMetadata) {entries : List JournalEntry} {entry : JournalEntry}
    (hlast : last_refresh entries = some entry) :
    NoLater (load_or_create_metadata loaded_at file entries)
        (consolidate_object env.object_version_id loaded_at applied_at unlinked file entries) ↔
      ∀ ttl ∈ entry.refresh_ttl?, Metadata.safe_expiry applied_at ttl ≤
        (load_or_create_metadata loaded_at file entries).expires_at := by
  have hexpires := consolidate_object_expires_at env.object_version_id loaded_at applied_at unlinked
    file entries
  rw [refreshes_getLast?, hlast, Option.bind_some] at hexpires
  obtain ⟨ranges, expires_at, accounted, content_length, hrecord⟩ := consolidate_object_metadata
    env.object_version_id loaded_at applied_at unlinked file entries
  unfold NoLater
  rw [hexpires, hrecord]
  rw [and_iff_left fun x hx => ⟨x, hx, le_rfl⟩]
  cases entry.refresh_ttl? with
  | none | some ttl => simp

variable [DecidableEq ι] [DecidableEq τ]

/-- **Step lemma.** -/
theorem KeyState.spares_iff_onTarget (s : KeyState ι τ) (event : KeyEvent ι τ) (s' : KeyState ι τ)
    (h : s.step env event = some s') : s.Spares env event s' ↔ s.OnTarget env event := by
  unfold KeyState.Spares KeyState.OnTarget
  rcases KeyState.fileStep h with ⟨happly, -, -⟩ | ⟨happly, -, -, -, -⟩ |
    ⟨run, response, m, m', rfl, -⟩ | ⟨loaded_at, applied_at, unlinked, entries, happly, hfile'⟩ |
    ⟨update, read, m', happly, hm', hfile'⟩
  · rw [happly]
  · rw [happly]
  · rfl
  · rw [happly]
    refine forall_congr' fun entry => forall_congr' fun hlast => forall_congr' fun validated =>
      forall_congr' fun _ => ?_
    rw [hfile', or_iff_not_imp_left]
    simp only [Option.mem_def, Option.some.injEq, forall_eq']
    rw [noLater_consolidate_iff loaded_at applied_at unlinked s.file hlast]
    rfl
  · rw [happly]
    cases update with
    | part response => rfl
    | refresh refresh =>
      cases hm'
      rw [hfile', refresh.apply_expiries]
      simp only [Option.some.injEq, exists_eq_left', exists_and_left, ← or_iff_not_imp_left,
        NoLater]

/-- **A refresh spares other versions exactly if it is on target.** Every step of a run that
applies a refresh leaves the expiries of other versions, and the etag and the ranges on record, if
and only if every such step finds the record it read, of the version that was validated (or one
whose expiries are as late already). -/
theorem refresh_spares_other_versions_iff (env : KeyEnv) (events : List (KeyEvent ι τ))
    (s : KeyState ι τ) (hrun : run (KeyState.step env) .init events = some s) :
    (∀ n event s₁ s₂, run (KeyState.step env) .init (events.take n) = some s₁ →
      events[n]? = some event → s₁.step env event = some s₂ → s₁.Spares env event s₂) ↔
      Guarded (KeyState.step env) (KeyState.OnTarget env) .init events :=
  run_steps_iff_guarded (fun s event s' => s.Spares env event s')
    (fun s event s' h => s.spares_iff_onTarget event s' h) hrun

end Steps

/-- Tuesday's version is uploaded over Monday's, to expire at `56`. -/
def tuesdays_upload : KeyEvent Unit Unit :=
  .publish ⟨51, 5, "tue", "Tue", 10, [], 10⟩ .put true false

def etag_and_expiry (s : KeyState Unit Unit) : Option (String × ℕ) :=
  s.file.map fun m => (m.object_metadata.etag, m.expires_at)

/-- Monday's version is validated at `50`, Tuesday's replaces it. The direct refresh puts Monday's
record back; the journaled one, consolidated at `1000`, keeps Tuesday's version until `1060`. -/
theorem refresh_for_monday_meets_tuesday :
    (∃ s s', run (KeyState.step plain_env) .init
        [stored_at 1 "mon" "Mon", .revalidated () (.expiration "mon" 50 60 60), .read (),
          tuesdays_upload] = some s ∧
      s.step plain_env (.write () true) = some s' ∧
      etag_and_expiry s = some ("tue", 56) ∧ etag_and_expiry s' = some ("mon", 110) ∧
      ¬ s.Spares plain_env (.write () true) s') ∧
    (∃ s s', run (KeyState.step plain_env) .init
        [stored_at 1 "mon" "Mon", .buffer () "mon" 50 60, tuesdays_upload,
          .flush () true] = some s ∧
      s.step plain_env (consolidated_at 1000) = some s' ∧
      etag_and_expiry s = some ("tue", 56) ∧ etag_and_expiry s' = some ("tue", 1060) ∧
      ¬ s.Spares plain_env (consolidated_at 1000) s') := by
  refine ⟨⟨_, _, rfl, rfl, ?_, ?_, ?_⟩, ⟨_, _, rfl, rfl, ?_, ?_, ?_⟩⟩
  · decide
  · decide
  · rintro ⟨m, m', hm, hm', hetag, -⟩
    cases hm
    cases hm'
    exact absurd hetag (by decide)
  · decide
  · decide
  · intro h
    have hlater := h (ttl_refresh "bucket/object" 50 60) (by decide) "mon" (by decide) (by decide) _
      rfl
    exact absurd hlater.1 (by decide)

/-- With nothing in between, a refresh reaches the record it read. -/
theorem refresh_for_monday_meets_monday :
    ∃ s, run (KeyState.step plain_env) .init
        (stored_at 1 "mon" "Mon" :: refreshed_at "mon" 50) = some s ∧
      etag_and_expiry s = some ("mon", 110) ∧
      ∀ n event s₁ s₂, run (KeyState.step plain_env) .init
          ((stored_at 1 "mon" "Mon" :: refreshed_at "mon" 50).take n) = some s₁ →
        (stored_at 1 "mon" "Mon" :: refreshed_at "mon" 50)[n]? = some event →
        s₁.step plain_env event = some s₂ → s₁.Spares plain_env event s₂ := by
  refine ⟨_, rfl, ?_, (refresh_spares_other_versions_iff plain_env _ _ rfl).mpr ?_⟩
  · decide
  · refine (guarded_cons rfl).mpr ⟨trivial, (guarded_cons rfl).mpr ⟨trivial,
      (guarded_cons rfl).mpr ⟨trivial, (guarded_cons rfl).mpr ⟨?_, trivial⟩⟩⟩⟩
    exact ⟨_, rfl, rfl, rfl, .inl rfl⟩

end HybridCache.CacheManager
