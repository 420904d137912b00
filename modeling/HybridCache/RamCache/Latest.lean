/-
What `get` returns after a history of operations (`ram_cache.rs`).

A `put` that is too large for its shard is dropped, and then the older entry of the key stays and
is still returned (`superseded_entry_returned`). This is the only way to an older value.
-/
import HybridCache.RamCache.Shards

namespace HybridCache.RamCache

open Lib

/-- What the last `put` of a key gave, stored or not. -/
def latest_put (events : List RamEvent) (key : List Char) : Option RamCacheRead :=
  events.foldl (fun latest event =>
    match event with
    | .put entry _ => if entry.cache_key = key then some entry.read else latest
    | _ => latest) none

variable {key : List Char} {past : List RamEvent}

theorem latest_put_put (entry : RamCacheEntry) (rounds : ℕ → EvictionRound) :
    latest_put (past ++ [.put entry rounds]) key =
      if entry.cache_key = key then some entry.read else latest_put past key := by
  simp [latest_put]

theorem latest_put_other {event : RamEvent} (h : ∀ entry rounds, event ≠ .put entry rounds) :
    latest_put (past ++ [event]) key = latest_put past key := by
  cases event with
  | put entry rounds => exact absurd rfl (h entry rounds)
  | _ => simp [latest_put]

/-! ## What one operation leaves stored -/

/-- What is stored under a key after was stored before, as far as it can be read. -/
def KeptAt (shard shard' : RamCacheShard) (key : List Char) : Prop :=
  ∀ entry', shard'.data.get? key = some entry' →
    ∃ entry, shard.data.get? key = some entry ∧ entry.read = entry'.read

open RamCacheShard

section Shard

variable {platform : Platform} {capacity : ℕ} {algorithm : Eviction.CacheEvictionAlgorithm}
  {shard : RamCacheShard} {key : List Char}

theorem keptAt_remove (removed : List Char) : KeptAt shard (shard.remove platform removed) key := by
  intro entry hentry
  rw [data_remove] at hentry
  split at hentry
  case isTrue => cases hentry
  case isFalse => exact ⟨entry, hentry, rfl⟩

variable {touched : List Char}

theorem data_touch (entry : RamCacheEntry) (now_ms : ℕ) (lock_free : Bool) :
    (shard.touch entry touched now_ms lock_free).data = shard.data.put touched
      { entry with last_accessed := now_ms, access_count := entry.access_count + 1 } := by
  simp only [touch]
  split
  case isTrue => rfl
  case isFalse => rfl

variable {entry : RamCacheEntry}

theorem keptAt_touch (hget : shard.data.get? touched = some entry) (now_ms : ℕ) (lock_free : Bool) :
    KeptAt shard (shard.touch entry touched now_ms lock_free) key := by
  intro entry' hentry'
  rw [data_touch] at hentry'
  by_cases heq : key = touched
  · rw [heq, Directory.get?_put_self, Option.some.injEq] at hentry'
    exact ⟨entry, heq ▸ hget, by rw [← hentry']; rfl⟩
  · rw [Directory.get?_put_ne _ heq] at hentry'
    exact ⟨entry', hentry', rfl⟩

theorem keptAt_invalidate_by_prefix_keys (stem : List Char) :
    KeptAt shard (shard.invalidate_by_prefix_keys platform stem) key := by
  intro entry' hentry'
  rw [data_invalidate_by_prefix_keys] at hentry'
  split_ifs at hentry'
  exact ⟨entry', hentry', rfl⟩

theorem put_of_tooLarge (h : shard.TooLarge platform entry) (rounds : ℕ → EvictionRound) :
    (shard.put platform entry rounds).data = shard.data := by
  have hdrain : shard.drain.TooLarge platform entry := h
  rw [put, if_pos hdrain]
  rfl

theorem put_self (h : ¬ shard.TooLarge platform entry) (rounds : ℕ → EvictionRound) :
    (shard.put platform entry rounds).data.get? entry.cache_key = some entry := by
  have hdrain : ¬ shard.drain.TooLarge platform entry := h
  rw [put, if_neg hdrain]
  exact Directory.get?_put_self

/-- A put under another key may evict the entry, but never changes what it reads as. -/
theorem keptAt_put (hsound : Sound platform capacity algorithm shard) (hne : key ≠ entry.cache_key)
    (rounds : ℕ → EvictionRound) : KeptAt shard (shard.put platform entry rounds) key := by
  by_cases hlarge : shard.TooLarge platform entry
  · intro entry' hentry'
    rw [put_of_tooLarge hlarge] at hentry'
    exact ⟨entry', hentry', rfl⟩
  · have hdrain : ¬ shard.drain.TooLarge platform entry := hlarge
    rw [put, if_neg hdrain]
    intro entry' hentry'
    rw [replace, Directory.get?_put_ne _ hne, data_remove, if_neg hne] at hentry'
    rw [RamCacheShard.TooLarge, hsound.capacity_eq, not_lt] at hlarge
    obtain ⟨-, -, victims, hdata, -⟩ := hsound.drain.evict_until hlarge rounds 0
    rw [hdata, Directory.get?_foldl_erase] at hentry'
    exact ⟨entry', (Option.ite_none_left_eq_some.mp hentry').2, rfl⟩

theorem Sound.size_le (hsound : Sound platform capacity algorithm shard)
    (hget : shard.data.get? key = some entry) :
    shard_calculate_entry_size platform entry ≤ shard.capacity := by
  have htotal := Directory.total_erase (shard_calculate_entry_size platform) shard.data key
  rw [Directory.measure_of_get? _ hget, ← hsound.size] at htotal
  have hbound := hsound.bound
  rw [hsound.capacity_eq]
  omega

end Shard

/-! ## What is read after a history -/

section History

variable {platform : Platform} {capacity : ℕ} {algorithm : Eviction.CacheEvictionAlgorithm}
  {cache cache' : ShardedRamCache} {past : List RamEvent}

/-- What is stored is what the last `put` of its key gave. -/
structure LatestStored (platform : Platform) (capacity : ℕ)
    (algorithm : Eviction.CacheEvictionAlgorithm) (past : List RamEvent)
    (cache : ShardedRamCache) : Prop where
  sound : SoundCache platform capacity algorithm cache
  latest : ∀ key entry, cache.stored platform key = some entry →
    latest_put past key = some entry.read

/-- `get` returns nothing, or what the last `put` of the key gave. -/
def ReadsLatest (platform : Platform) (past : List RamEvent) (cache : ShardedRamCache) : Prop :=
  ∀ key now_ms lock_free, (cache.get platform key now_ms lock_free).1 = none ∨
    (cache.get platform key now_ms lock_free).1 = latest_put past key

/-- A `put` that is too large for its shard finds no entry of its key. -/
def NoneSuperseded (platform : Platform) (cache : ShardedRamCache) : RamEvent → Prop
  | .put entry _ =>
    (cache.shards (cache.shard_index platform entry.cache_key)).TooLarge platform entry →
      cache.stored platform entry.cache_key = none
  | _ => True

instance (platform : Platform) (cache : ShardedRamCache) :
    ∀ event, Decidable (NoneSuperseded platform cache event)
  | .put _ _ => inferInstanceAs (Decidable (_ → _))
  | .get _ _ _ => isTrue trivial
  | .late_access _ => isTrue trivial
  | .invalidate _ => isTrue trivial
  | .invalidate_by_prefix_keys _ => isTrue trivial
  | .invalidate_shard _ _ => isTrue trivial

variable {key : List Char} {shard : RamCacheShard} {entry : RamCacheEntry}
  {rounds : ℕ → EvictionRound}

theorem get_fst (now_ms : ℕ) (lock_free : Bool) :
    (cache.get platform key now_ms lock_free).1 =
      (cache.stored platform key).map RamCacheEntry.read := by
  rw [ShardedRamCache.get]
  cases cache.stored platform key with
  | none | some entry => rfl

theorem LatestStored.readsLatest (h : LatestStored platform capacity algorithm past cache) :
    ReadsLatest platform past cache := by
  intro key now_ms lock_free
  rw [get_fst]
  cases hget : cache.stored platform key with
  | none => exact .inl rfl
  | some entry => exact .inr (h.latest key entry hget).symm

variable {entry' : RamCacheEntry}

theorem stored_update {idx : Fin cache.shard_count} (hkept : KeptAt (cache.shards idx) shard key)
    (hget : (cache.update idx shard).stored platform key = some entry') :
    ∃ entry, cache.stored platform key = some entry ∧ entry.read = entry'.read := by
  change (Function.update cache.shards idx shard (cache.shard_index platform key)).data.get? key =
    some entry' at hget
  by_cases heq : cache.shard_index platform key = idx
  · rw [heq, Function.update_self] at hget
    obtain ⟨entry, hentry, hread⟩ := hkept entry' hget
    exact ⟨entry, by rw [ShardedRamCache.stored, heq]; exact hentry, hread⟩
  · rw [Function.update_of_ne heq] at hget
    exact ⟨entry', hget, rfl⟩

variable {event : RamEvent}

theorem stored_step (hother : ∀ entry rounds, event ≠ .put entry rounds)
    (hstep : step platform cache event = some cache')
    (hget : cache'.stored platform key = some entry') :
    ∃ entry, cache.stored platform key = some entry ∧ entry.read = entry'.read := by
  cases event with
  | get k now_ms lock_free =>
    simp only [step, ShardedRamCache.get, Option.some.injEq] at hstep
    subst hstep
    cases hk : cache.stored platform k with
    | none =>
      simp only [hk] at hget
      exact ⟨entry', hget, rfl⟩
    | some entry =>
      simp only [hk] at hget
      exact stored_update (keptAt_touch hk now_ms lock_free) hget
  | late_access k =>
    simp only [step, Option.some.injEq] at hstep
    subst hstep
    have hkept : KeptAt (cache.shards (cache.shard_index platform k))
        ((cache.shards (cache.shard_index platform k)).note_access k) key :=
      fun entry h => ⟨entry, h, rfl⟩
    exact stored_update hkept hget
  | put entry rounds => exact absurd rfl (hother entry rounds)
  | invalidate k =>
    simp only [step, Option.some.injEq] at hstep
    subst hstep
    exact stored_update (keptAt_remove k) hget
  | invalidate_by_prefix_keys stem =>
    simp only [step, Option.some.injEq] at hstep
    subst hstep
    exact keptAt_invalidate_by_prefix_keys stem entry' hget
  | invalidate_shard idx stem =>
    simp only [step, Option.dite_none_right_eq_some, Option.some.injEq] at hstep
    obtain ⟨hlt, rfl⟩ := hstep
    exact stored_update (keptAt_invalidate_by_prefix_keys stem) hget

theorem stored_update_self :
    (cache.update (cache.shard_index platform key) shard).stored platform key =
      shard.data.get? key := by
  change (Function.update cache.shards _ shard (cache.shard_index platform key)).data.get? key = _
  rw [Function.update_self]

/-- A put that the shard refuses as too large leaves the older entry of its key in place. -/
theorem stored_put_self :
    (cache.put platform entry rounds).stored platform entry.cache_key =
      if (cache.shards (cache.shard_index platform entry.cache_key)).TooLarge platform entry then
        cache.stored platform entry.cache_key
      else some entry := by
  rw [ShardedRamCache.put, stored_update_self]
  by_cases hlarge : (cache.shards (cache.shard_index platform entry.cache_key)).TooLarge platform
      entry
  · rw [if_pos hlarge, put_of_tooLarge hlarge]
    rfl
  · rw [if_neg hlarge, put_self hlarge]

theorem LatestStored.step (h : LatestStored platform capacity algorithm past cache)
    (hguard : NoneSuperseded platform cache event)
    (hstep : step platform cache event = some cache') :
    LatestStored platform capacity algorithm (past ++ [event]) cache' := by
  refine ⟨h.sound.step event hstep, fun key entry' hget => ?_⟩
  by_cases hput : ∃ entry rounds, event = .put entry rounds
  · obtain ⟨entry, rounds, rfl⟩ := hput
    simp only [RamCache.step, Option.some.injEq] at hstep
    subst hstep
    rw [latest_put_put]
    by_cases heq : entry.cache_key = key
    · subst heq
      rw [stored_put_self] at hget
      rw [if_pos rfl]
      split at hget
      case isTrue hlarge =>
        rw [hguard hlarge] at hget
        cases hget
      case isFalse => rw [Option.some.inj hget]
    · obtain ⟨old, hold, hread⟩ := stored_update
        (keptAt_put (h.sound _) (Ne.symm heq) rounds) hget
      rw [if_neg heq, h.latest key old hold, hread]
  · have hother : ∀ entry rounds, event ≠ .put entry rounds :=
      fun entry rounds heq => hput ⟨entry, rounds, heq⟩
    obtain ⟨entry, hentry, hread⟩ := stored_step hother hstep hget
    rw [latest_put_other hother, h.latest key entry hentry, hread]

theorem LatestStored.superseded (h : LatestStored platform capacity algorithm past cache)
    (hreads :
      ReadsLatest platform (past ++ [.put entry rounds]) (cache.put platform entry rounds)) :
    NoneSuperseded platform cache (.put entry rounds) := by
  intro hlarge
  by_contra hsome
  obtain ⟨old, hold⟩ := Option.ne_none_iff_exists'.mp hsome
  have hread := hreads entry.cache_key 0 false
  rw [get_fst, stored_put_self, if_pos hlarge, hold, latest_put_put, if_pos rfl] at hread
  have hread : old.read = entry.read := by simpa using hread
  have hsize := (h.sound _).size_le hold
  have hkey : old.cache_key = entry.cache_key := (h.sound _).named _ _ hold
  have hdata : old.data = entry.data := congrArg RamCacheRead.data hread
  have hequal : shard_calculate_entry_size platform old =
      shard_calculate_entry_size platform entry := by
    rw [shard_calculate_entry_size, shard_calculate_entry_size, hkey, hdata]
  rw [RamCacheShard.TooLarge] at hlarge
  omega

end History

/-- **In a run, `get` returns nothing or what the last `put` of the key gave, after every
operation, exactly if no `put` that is too large for its shard comes while its key is stored.** -/
theorem reads_latest_iff_none_superseded (platform : Platform) (total_capacity shard_count : ℕ)
    (algorithm : Eviction.CacheEvictionAlgorithm) (events : List RamEvent)
    (last : ShardedRamCache)
    (hrun : run (step platform) (.new total_capacity shard_count algorithm) events = some last) :
    (∀ n cache, run (step platform) (.new total_capacity shard_count algorithm) (events.take n) =
        some cache →
      ∀ key now_ms lock_free, (cache.get platform key now_ms lock_free).1 = none ∨
        (cache.get platform key now_ms lock_free).1 = latest_put (events.take n) key) ↔
    Guarded (step platform) (NoneSuperseded platform) (.new total_capacity shard_count algorithm)
      events := by
  refine run_forall_iff_guarded_past
    (LatestStored platform (ShardedRamCache.per_shard_capacity total_capacity shard_count)
      algorithm) (ReadsLatest platform)
    (fun past cache h => h.readsLatest)
    (fun past cache event cache' h hguard hstep => h.step hguard hstep) ?_ ?_ hrun
  · intro past cache event cache' h hstep hreads
    cases event with
    | put entry rounds =>
      simp only [step, Option.some.injEq] at hstep
      subst hstep
      exact h.superseded hreads
    | _ => exact trivial
  · exact ⟨soundCache_new total_capacity shard_count, fun key entry hget => by cases hget⟩

def replacing_events : List RamEvent :=
  [.put (small_entry [1]) no_ties, .put (small_entry [2, 2]) no_ties]

theorem reads_latest_of_replacing :
    ∃ cache, run (step small_platform) (.new 4 1 .LRU) replacing_events = some cache ∧
      ((cache.get small_platform ['k'] 0 true).1 = none ∨
        (cache.get small_platform ['k'] 0 true).1 = latest_put replacing_events ['k']) :=
  ⟨_, rfl, (reads_latest_iff_none_superseded small_platform 4 1 .LRU replacing_events _ rfl).mpr
    (by decide +kernel) 2 _ rfl ['k'] 0 true⟩

def superseding_events : List RamEvent :=
  [.put (small_entry [1]) no_ties, .put (small_entry [2, 2, 2, 2]) no_ties]

/-- A second value that is too large leaves the first one to be read. -/
theorem superseded_entry_returned :
    ∃ cache, run (step small_platform) (.new 4 1 .LRU) superseding_events = some cache ∧
      (cache.get small_platform ['k'] 0 true).1 = some (small_entry [1]).read ∧
      latest_put superseding_events ['k'] = some (small_entry [2, 2, 2, 2]).read :=
  ⟨_, rfl, by decide +kernel, by decide +kernel⟩

end HybridCache.RamCache
