/-
The RAM tier of metadata (`metadata_cache.rs`) between readers and writers of the `.meta` files
(`get_metadata_cached` in `cache.rs`).

On a miss, or if the entry is older than the refresh interval, a reader reads the `.meta` from disk
and puts it into the tier. A writer renames a new `.meta` into place and then invalidates the key.
Both may fall between the read and the put of a reader, and the put then brings back what was
invalidated.

For the proofs a record on disk carries the number of times its file has been replaced, its
generation.
-/
import HybridCache.CacheTypes.Record
import HybridCache.Lib.Directory
import HybridCache.Lib.Transition

namespace HybridCache.MetadataTier

open Lib CacheTypes

/-! ## The tier -/

structure MetadataCacheConfig where
  enabled : Bool
  refresh_interval : ℕ
  max_entries : ℕ
deriving DecidableEq, Repr

structure MetadataCacheEntry (μ : Type) where
  metadata : μ
  loaded_at : ℕ

/-- `MetadataCache`: the entries, and their keys from the least recently used on. -/
structure MetadataCache (κ μ : Type) where
  entries : Directory κ (MetadataCacheEntry μ)
  lru_order : List κ

variable {κ μ : Type} [DecidableEq κ]

def MetadataCacheEntry.is_stale (entry : MetadataCacheEntry μ) (now refresh_interval : ℕ) : Bool :=
  decide (now - entry.loaded_at ≥ refresh_interval)

/-- The loop of `put_with_mtime` that makes room. -/
def evict (max_entries : ℕ) :
    List κ → Directory κ (MetadataCacheEntry μ) → List κ × Directory κ (MetadataCacheEntry μ)
  | [], entries => ([], entries)
  | victim :: rest, entries =>
    if entries.entries.length ≥ max_entries then evict max_entries rest (entries.erase victim)
    else (victim :: rest, entries)

namespace MetadataCache

variable (config : MetadataCacheConfig) (now : ℕ) (cache : MetadataCache κ μ) (cache_key : κ)

/-- The first critical section of `get`: there is an entry and it is not stale. -/
def hit : Bool :=
  config.enabled &&
    (cache.entries.get? cache_key).any fun entry => !entry.is_stale now config.refresh_interval

def update_lru_order : MetadataCache κ μ :=
  { cache with
    lru_order := (cache.lru_order.filter fun k => decide (k ≠ cache_key)) ++ [cache_key] }

/-- What `get` returns in the end, with no second look at the age. -/
def reread : Option μ :=
  (cache.entries.get? cache_key).map MetadataCacheEntry.metadata

def put (metadata : μ) : MetadataCache κ μ :=
  if config.enabled then
    let evicted := evict config.max_entries cache.lru_order cache.entries
    let lru_order :=
      if (evicted.2.get? cache_key).isSome then
        evicted.1.filter fun k => decide (k ≠ cache_key)
      else evicted.1
    { entries := evicted.2.put cache_key ⟨metadata, now⟩
      lru_order := lru_order ++ [cache_key] }
  else cache

def invalidate : MetadataCache κ μ :=
  if (cache.entries.get? cache_key).isSome then
    { entries := cache.entries.erase cache_key
      lru_order := cache.lru_order.filter fun k => decide (k ≠ cache_key) }
  else cache

end MetadataCache

section Contents

variable {config : MetadataCacheConfig} {now : ℕ} {cache : MetadataCache κ μ} {k k' : κ}
  {entry : MetadataCacheEntry μ} {d : Directory κ (MetadataCacheEntry μ)}

theorem get?_of_get?_erase (h : (d.erase k').get? k = some entry) : d.get? k = some entry := by
  by_cases heq : k = k'
  · rw [heq, Directory.get?_erase_self] at h
    cases h
  · rwa [Directory.get?_erase_ne d heq] at h

theorem get?_of_get?_evict {max_entries : ℕ} {lru_order : List κ}
    (h : (evict max_entries lru_order d).2.get? k = some entry) : d.get? k = some entry := by
  induction lru_order generalizing d with
  | nil => exact h
  | cons victim rest ih =>
    unfold evict at h
    split at h
    · exact get?_of_get?_erase (ih h)
    · exact h

theorem get?_of_get?_put {metadata : μ}
    (h : (cache.put config now k metadata).entries.get? k' = some entry) :
    (k' = k ∧ entry.metadata = metadata ∧ config.enabled = true) ∨
      cache.entries.get? k' = some entry := by
  unfold MetadataCache.put at h
  split at h
  · rename_i henabled
    by_cases heq : k' = k
    · rw [heq, Directory.get?_put_self] at h
      exact .inl ⟨heq, by rw [← Option.some.inj h], henabled⟩
    · rw [Directory.get?_put_ne _ heq] at h
      exact .inr (get?_of_get?_evict h)
  · exact .inr h

theorem get?_invalidate :
    (cache.invalidate k).entries.get? k' = if k' = k then none else cache.entries.get? k' := by
  rw [MetadataCache.invalidate]
  by_cases hsome : (cache.entries.get? k).isSome
  · rw [if_pos hsome]
    exact Directory.get?_erase
  · rw [if_neg hsome]
    split_ifs with heq
    · rw [heq]
      exact Option.not_isSome_iff_eq_none.mp hsome
    · rfl

theorem get?_of_get?_invalidate (h : (cache.invalidate k).entries.get? k' = some entry) :
    k' ≠ k ∧ cache.entries.get? k' = some entry := by
  rw [get?_invalidate] at h
  split_ifs at h with heq
  exact ⟨heq, h⟩

end Contents

/-! ## Readers and writers -/

/-- A record, and how many replacements of its file it comes after. -/
structure Snapshot where
  generation : ℕ
  metadata : NewCacheMetadata
deriving DecidableEq, Repr

/-- Where a call of `get_metadata_cached` stands. `since` is the newest replacement that had been
followed by an invalidation when the call began. -/
inductive ReaderPhase (κ : Type) where
  | idle
  | hit (cache_key : κ) (since : ℕ)
  | ordered (cache_key : κ) (since : ℕ)
  | missed (cache_key : κ)
  | found (cache_key : κ)
  | loaded (cache_key : κ) (snapshot : Snapshot)

structure Answer (κ : Type) where
  cache_key : κ
  snapshot : Snapshot
  since : ℕ
deriving DecidableEq, Repr

/-- The disk, the tier, readers `ρ` and writers `ω`. -/
structure TierState (κ ρ ω : Type) where
  now : ℕ
  cache : MetadataCache κ Snapshot
  disk : κ → Option NewCacheMetadata
  generation : κ → ℕ
  reader : ρ → ReaderPhase κ
  writer : ω → Option (κ × ℕ)
  floor : κ → ℕ
  answers : List (Answer κ)

inductive TierEvent (κ ρ ω : Type) where
  | tick (elapsed : ℕ)
  | look_up (r : ρ) (cache_key : κ)
  | update_lru (r : ρ)
  | reread (r : ρ)
  | find_file (r : ρ)
  | load (r : ρ) (fails : Bool)
  | put (r : ρ)
  | replace (w : ω) (cache_key : κ) (metadata : NewCacheMetadata)
  | invalidate (w : ω)

open Function

namespace TierState

variable {ρ ω : Type} [DecidableEq ρ] [DecidableEq ω] (config : MetadataCacheConfig)

def init : TierState κ ρ ω where
  now := 0
  cache := ⟨.empty, []⟩
  disk := fun _ => none
  generation := fun _ => 0
  reader := fun _ => .idle
  writer := fun _ => none
  floor := fun _ => 0
  answers := []

def enter (s : TierState κ ρ ω) (r : ρ) (p : ReaderPhase κ) : TierState κ ρ ω :=
  { s with reader := update s.reader r p }

/-- The end of a read: metadata without ranges is not kept in RAM. -/
def put_loaded (s : TierState κ ρ ω) (cache_key : κ) (snapshot : Snapshot) : TierState κ ρ ω :=
  if snapshot.metadata.ranges.isEmpty then s
  else { s with cache := s.cache.put config s.now cache_key snapshot }

def step (s : TierState κ ρ ω) : TierEvent κ ρ ω → Option (TierState κ ρ ω)
  | .tick elapsed => some { s with now := s.now + elapsed }
  | .look_up r cache_key =>
    match s.reader r with
    | .idle =>
      if s.cache.hit config s.now cache_key then
        some (s.enter r (.hit cache_key (s.floor cache_key)))
      else some (s.enter r (.missed cache_key))
    | _ => none
  | .update_lru r =>
    match s.reader r with
    | .hit cache_key since =>
      some ({ s with cache := s.cache.update_lru_order cache_key }.enter r
        (.ordered cache_key since))
    | _ => none
  | .reread r =>
    match s.reader r with
    | .ordered cache_key since =>
      match s.cache.reread cache_key with
      | some snapshot =>
        some ({ s with answers := s.answers ++ [Answer.mk cache_key snapshot since] }.enter r .idle)
      -- the entry has gone in between, so the disk is read
      | none => some (s.enter r (.missed cache_key))
    | _ => none
  | .find_file r =>
    match s.reader r with
    | .missed cache_key =>
      match s.disk cache_key with
      | none => some (s.enter r .idle)
      | some _ => some (s.enter r (.found cache_key))
    | _ => none
  | .load r fails =>
    match s.reader r with
    | .found cache_key =>
      match fails, s.disk cache_key with
      | false, some metadata =>
        some (s.enter r (.loaded cache_key ⟨s.generation cache_key, metadata⟩))
      | _, _ => some (s.enter r .idle)
    | _ => none
  | .put r =>
    match s.reader r with
    | .loaded cache_key snapshot => some ((s.put_loaded config cache_key snapshot).enter r .idle)
    | _ => none
  | .replace w cache_key metadata =>
    match s.writer w with
    | none =>
      some
        { s with
          disk := update s.disk cache_key (some metadata)
          generation := update s.generation cache_key (s.generation cache_key + 1)
          writer := update s.writer w (some (cache_key, s.generation cache_key + 1)) }
    | some _ => none
  | .invalidate w =>
    match s.writer w with
    | some (cache_key, generation) =>
      some
        { s with
          cache := s.cache.invalidate cache_key
          writer := update s.writer w none
          floor := update s.floor cache_key (max (s.floor cache_key) generation) }
    | none => none

/-- Nothing is put into RAM that was read before a replacement whose invalidation has returned. -/
def Clear (s : TierState κ ρ ω) : TierEvent κ ρ ω → Prop
  | .put r =>
    match s.reader r with
    | .loaded cache_key snapshot => s.floor cache_key ≤ snapshot.generation
    | _ => True
  | _ => True

instance (s : TierState κ ρ ω) : ∀ event, Decidable (s.Clear event)
  | .put r =>
    match h : s.reader r with
    | .loaded cache_key snapshot =>
      decidable_of_iff (s.floor cache_key ≤ snapshot.generation) (by simp [Clear, h])
    | .idle | .hit _ _ | .ordered _ _ | .missed _ | .found _ => isTrue (by simp [Clear, h])
  | .tick _ | .look_up _ _ | .update_lru _ | .reread _ | .find_file _ | .load _ _
  | .replace _ _ _ | .invalidate _ => isTrue trivial

/-! ## The invariant -/

/-- What a reader that has hit was promised when it began is still promised. -/
def ReaderSound (floor : κ → ℕ) : ReaderPhase κ → Prop
  | .hit cache_key since | .ordered cache_key since => since ≤ floor cache_key
  | .idle | .missed _ | .found _ | .loaded _ _ => True

structure Sound (s : TierState κ ρ ω) : Prop where
  entries : ∀ k entry, s.cache.entries.get? k = some entry → s.floor k ≤ entry.metadata.generation
  readers : ∀ r, ReaderSound s.floor (s.reader r)
  answers : ∀ answer ∈ s.answers, answer.since ≤ answer.snapshot.generation

section Steps

variable {config} {s s' : TierState κ ρ ω} {r : ρ} {p : ReaderPhase κ}

omit [DecidableEq ω] in
theorem Sound.enter (h : s.Sound) (hp : ReaderSound s.floor p) : (s.enter r p).Sound where
  entries := h.entries
  readers := by
    show ∀ r', ReaderSound s.floor (update s.reader r p r')
    rw [forall_update_iff s.reader fun _ q => ReaderSound s.floor q]
    exact ⟨hp, fun r' _ => h.readers r'⟩
  answers := h.answers

variable {cache_key : κ} {snapshot : Snapshot}

omit [DecidableEq ρ] [DecidableEq ω] in
theorem Sound.put_loaded (h : s.Sound) (hrecent : s.floor cache_key ≤ snapshot.generation) :
    (s.put_loaded config cache_key snapshot).Sound := by
  unfold TierState.put_loaded
  split
  · exact h
  · refine ⟨fun k entry hentry => ?_, h.readers, h.answers⟩
    rcases get?_of_get?_put hentry with ⟨hk, hmetadata, -⟩ | hold
    · rw [hk, hmetadata]
      exact hrecent
    · exact h.entries k entry hold

omit [DecidableEq ρ] [DecidableEq ω] in
/-- An answer from RAM is as recent as the floor was when the call began, since the floor does not
sink. -/
theorem Sound.answer {since : ℕ} (h : s.Sound) (hsince : since ≤ s.floor cache_key)
    (hreread : s.cache.reread cache_key = some snapshot) :
    Sound { s with answers := s.answers ++ [Answer.mk cache_key snapshot since] } := by
  obtain ⟨entry, hentry, rfl⟩ := Option.map_eq_some_iff.mp hreread
  refine ⟨h.entries, h.readers, fun answer hanswer => ?_⟩
  rcases List.mem_append.mp hanswer with hold | hnew
  · exact h.answers answer hold
  · rw [List.mem_singleton.mp hnew]
    exact le_trans hsince (h.entries cache_key entry hentry)

omit [DecidableEq κ] in
theorem ReaderSound.mono {floor floor' : κ → ℕ} (h : ReaderSound floor p) (hle : floor ≤ floor') :
    ReaderSound floor' p := by
  cases p with
  | hit cache_key since | ordered cache_key since => exact le_trans h (hle cache_key)
  | _ => trivial

omit [DecidableEq ρ] [DecidableEq ω] in
theorem Sound.invalidate (h : s.Sound) (cache_key : κ) (generation : ℕ)
    (writer : ω → Option (κ × ℕ)) :
    Sound
      { s with
        cache := s.cache.invalidate cache_key
        writer := writer
        floor := update s.floor cache_key (max (s.floor cache_key) generation) } := by
  have hraise : s.floor ≤ update s.floor cache_key
      (max (s.floor cache_key) generation) := by
    rw [le_update_self_iff]
    exact le_max_left _ _
  refine ⟨fun k entry hentry => ?_, fun r => (h.readers r).mono hraise, h.answers⟩
  -- the entry of the key has gone, and the other keys keep their floor
  obtain ⟨hne, hold⟩ := get?_of_get?_invalidate hentry
  show update s.floor cache_key _ k ≤ entry.metadata.generation
  rw [update_of_ne hne]
  exact h.entries k entry hold

theorem Sound.step {event : TierEvent κ ρ ω} (h : s.Sound) (hclear : s.Clear event)
    (hstep : s.step config event = some s') : s'.Sound := by
  cases event with (simp only [TierState.step] at hstep; try split at hstep <;> try cases hstep)
  | tick elapsed =>
    cases hstep
    exact ⟨h.entries, h.readers, h.answers⟩
  | look_up r cache_key =>
    split at hstep
    · cases hstep
      exact h.enter (le_refl (s.floor cache_key))
    · cases hstep
      exact h.enter trivial
  | update_lru r =>
    rename_i cache_key since hreader
    have hsince := h.readers r
    rw [hreader] at hsince
    have hcache : Sound { s with cache := s.cache.update_lru_order cache_key } :=
      ⟨h.entries, h.readers, h.answers⟩
    exact hcache.enter hsince
  | reread r =>
    rename_i cache_key since hreader
    split at hstep
    · rename_i snapshot hreread
      cases hstep
      have hsince := h.readers r
      rw [hreader] at hsince
      exact (h.answer hsince hreread).enter trivial
    · cases hstep
      exact h.enter trivial
  | find_file r | load r fails =>
    split at hstep
    all_goals
      cases hstep
      exact h.enter trivial
  | put r =>
    rename_i cache_key snapshot hreader
    simp only [Clear, hreader] at hclear
    exact (h.put_loaded hclear).enter trivial
  | replace w cache_key metadata => exact ⟨h.entries, h.readers, h.answers⟩
  | invalidate w =>
    rename_i cache_key generation hwriter
    exact h.invalidate cache_key generation _

end Steps

/-- **Old metadata does not come back.** In every run in which nothing is put into RAM that was
read before a replacement whose invalidation has returned, no lookup that begins after an
invalidation has returned is answered from RAM with metadata read before that writer's
replacement. -/
theorem no_answer_from_before_invalidation (config : MetadataCacheConfig)
    (events : List (TierEvent κ ρ ω)) (s : TierState κ ρ ω)
    (hclear : Guarded (step config) Clear init events)
    (hrun : run (step config) init events = some s) :
    ∀ answer ∈ s.answers, answer.since ≤ answer.snapshot.generation := by
  have hinit : Sound (init : TierState κ ρ ω) :=
    ⟨fun k entry hentry => by simp [init] at hentry, fun _ => trivial, by simp [init]⟩
  have hsound : s.Sound := by
    refine run_invariant Sound (fun s event s' hinv hguard hstep => ?_) hinit hclear hrun
    exact hinv.step hguard hstep
  exact hsound.answers

/-! ## Two runs -/

def record (etag : String) : NewCacheMetadata :=
  { (default : NewCacheMetadata) with
    object_metadata := { (default : ObjectMetadata) with etag := etag }
    ranges := [.new_staged 0 0 9 [] 10 10 false] }

def default_config : MetadataCacheConfig :=
  ⟨true, 5000, 100000⟩

def load_record (r : Bool) : List (TierEvent Unit Bool Unit) :=
  [.look_up r (), .find_file r, .load r false]

def answer_from_ram (r : Bool) : List (TierEvent Unit Bool Unit) :=
  [.look_up r (), .update_lru r, .reread r]

def put_after_invalidate : List (TierEvent Unit Bool Unit) :=
  [.replace () () (record "a"), .invalidate ()] ++ load_record false ++
    [.replace () () (record "b"), .invalidate (), .put false] ++ answer_from_ram true

/-- The second reader begins when the invalidation has returned, and is told of the record that
was replaced. -/
theorem put_after_invalidate_brings_back :
    ∃ s, run (step default_config) init put_after_invalidate = some s ∧
      s.answers = [⟨(), ⟨1, record "a"⟩, 2⟩] ∧ s.disk () = some (record "b") := by
  exact ⟨_, rfl, by decide +kernel, rfl⟩

/-- The reader's put comes before the invalidation, and a third reader loads the new record. -/
def put_before_invalidate : List (TierEvent Unit Bool Unit) :=
  [.replace () () (record "a"), .invalidate ()] ++ load_record false ++
    [.replace () () (record "b"), .put false, .invalidate ()] ++ load_record true ++
    [.put true] ++ answer_from_ram false

/-- The last reader is told of the new record. -/
theorem put_before_invalidate_is_dropped :
    ∃ s, run (step default_config) init put_before_invalidate = some s ∧
      Guarded (step default_config) Clear init put_before_invalidate ∧
      s.answers = [⟨(), ⟨2, record "b"⟩, 2⟩] ∧
      ∀ answer ∈ s.answers, answer.since ≤ answer.snapshot.generation := by
  have hclear : Guarded (step default_config) Clear init put_before_invalidate := by
    decide +kernel
  refine ⟨_, rfl, hclear, by decide +kernel, ?_⟩
  exact no_answer_from_before_invalidation default_config put_before_invalidate _ hclear rfl

end TierState

end HybridCache.MetadataTier
