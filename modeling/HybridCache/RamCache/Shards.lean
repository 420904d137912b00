/-
The sharded RAM cache (`ram_cache.rs`).

A shard keeps the entries, the sum of their sizes, and under LRU the order in which they are
evicted; `Sound` ties the three together. Under TinyLFU the victim is found by scoring the entries,
so the list stays empty. Which of several entries of the lowest score is the victim is left open
(`EvictionRound.pick`).
-/
import HybridCache.CacheTypes.Record
import HybridCache.Eviction.Candidates
import HybridCache.Lib.Directory
import HybridCache.Lib.Transition
import HybridCache.Lib.Utf8

namespace HybridCache.RamCache

open Lib CacheTypes Eviction

/-! ## The model -/

structure CacheMetadata where
  etag : String
  last_modified : String
  content_length : ℕ
  part_number : Option ℕ
  cache_control : Option String
  access_count : ℕ
  last_accessed : ℕ
deriving DecidableEq, Repr

structure RamCacheEntry where
  cache_key : List Char
  data : List UInt8
  metadata : CacheMetadata
  last_accessed : ℕ
  access_count : ℕ
  compressed : Bool
  compression_algorithm : CompressionAlgorithm
deriving DecidableEq, Repr

structure RamCacheRead where
  data : List UInt8
  metadata : CacheMetadata
  compressed : Bool
  compression_algorithm : CompressionAlgorithm
deriving DecidableEq, Repr

def RamCacheEntry.read (entry : RamCacheEntry) : RamCacheRead :=
  { data := entry.data
    metadata := entry.metadata
    compressed := entry.compressed
    compression_algorithm := entry.compression_algorithm }

/-- What depends on the build: the sizes of the two records in memory, and the first eight bytes
of the BLAKE3 hash, read as a number. -/
structure Platform where
  size_of_entry : ℕ
  size_of_metadata : ℕ
  hash_u64 : List UInt8 → ℕ

structure EvictionState where
  eviction_algorithm : CacheEvictionAlgorithm
  lru_order : List (List Char)

structure RamCacheShard where
  data : Directory (List Char) RamCacheEntry
  eviction : EvictionState
  current_size : ℕ
  capacity : ℕ
  pending_accesses : List (List Char)
  eviction_count : ℕ
  last_eviction_ms : ℕ

def RamCacheShard.new (capacity : ℕ) (eviction_algorithm : CacheEvictionAlgorithm) :
    RamCacheShard :=
  { data := .empty
    eviction := ⟨eviction_algorithm, []⟩
    current_size := 0
    capacity
    pending_accesses := []
    eviction_count := 0
    last_eviction_ms := 0 }

section Helpers

variable (platform : Platform)

def shard_calculate_entry_size (entry : RamCacheEntry) : ℕ :=
  platform.size_of_entry + (to_utf8 entry.cache_key).length + entry.data.length +
    platform.size_of_metadata

def shard_add_to_tracking (eviction : EvictionState) (key : List Char) : EvictionState :=
  match eviction.eviction_algorithm with
  | .LRU => { eviction with lru_order := eviction.lru_order ++ [key] }
  | .TinyLFU => eviction

def shard_remove_from_tracking (eviction : EvictionState) (key : List Char) : EvictionState :=
  match eviction.eviction_algorithm with
  | .LRU => { eviction with lru_order := eviction.lru_order.erase key }
  | .TinyLFU => eviction

def shard_update_access_tracking (eviction : EvictionState) (key : List Char) : EvictionState :=
  match eviction.eviction_algorithm with
  | .LRU => { eviction with lru_order := eviction.lru_order.erase key ++ [key] }
  | .TinyLFU => eviction

/-- One round of the eviction loop: the two times it reads, and which of the entries of the lowest
score comes first in the map. -/
structure EvictionRound where
  now_ms : ℕ
  pick : ℕ
  evicted_ms : ℕ

def tinylfu_score (now_ms : ℕ) (entry : RamCacheEntry) : ℕ ×ₗ ℕ :=
  toLex (decayed_frequency entry.access_count ((now_ms - entry.last_accessed) / 1000),
    entry.last_accessed)

end Helpers

open Directory

namespace RamCacheShard

variable (platform : Platform)

def shard_find_lru_victim (shard : RamCacheShard) : Option (List Char) :=
  shard.eviction.lru_order.head?

def shard_find_tinylfu_victim (shard : RamCacheShard) (now_ms pick : ℕ) : Option (List Char) :=
  let lowest := shard.data.entries.filter fun e =>
    shard.data.entries.all fun e' => tinylfu_score now_ms e.2 ≤ tinylfu_score now_ms e'.2
  lowest[pick % lowest.length]?.map Prod.fst

def find_victim (shard : RamCacheShard) (round : EvictionRound) : Option (List Char) :=
  match shard.eviction.eviction_algorithm with
  | .LRU => shard.shard_find_lru_victim
  | .TinyLFU => shard.shard_find_tinylfu_victim round.now_ms round.pick

def remove (shard : RamCacheShard) (key : List Char) : RamCacheShard :=
  match shard.data.get? key with
  | some entry =>
    { shard with
      data := shard.data.erase key
      current_size := shard.current_size - shard_calculate_entry_size platform entry
      eviction := shard_remove_from_tracking shard.eviction key }
  | none => shard

def evict (shard : RamCacheShard) (victim_key : List Char) (evicted_ms : ℕ) : RamCacheShard :=
  { shard.remove platform victim_key with
    eviction_count := shard.eviction_count + 1
    last_eviction_ms := evicted_ms }

variable {key k : List Char} {shard : RamCacheShard}

theorem remove_eq {entry : RamCacheEntry} (h : shard.data.get? key = some entry) :
    shard.remove platform key =
      { shard with
        data := shard.data.erase key
        current_size := shard.current_size - shard_calculate_entry_size platform entry
        eviction := shard_remove_from_tracking shard.eviction key } := by
  simp only [remove, h]

theorem remove_data (shard : RamCacheShard) (key : List Char) :
    (shard.remove platform key).data = shard.data.erase key := by
  cases h : shard.data.get? key with
  | none =>
    simp only [remove, h]
    exact (erase_of_none h).symm
  | some entry => rw [remove_eq platform h]

theorem data_remove :
    ((shard.remove platform key).data.get? k) = if k = key then none else shard.data.get? k := by
  rw [remove_data, get?_erase]

/-- Step 1 of `put`: the accesses that were put off are applied to the order. -/
def drain (shard : RamCacheShard) : RamCacheShard :=
  { shard with
    pending_accesses := []
    eviction := shard.pending_accesses.foldl
      (fun eviction key =>
        if (shard.data.get? key).isSome then shard_update_access_tracking eviction key
        else eviction)
      shard.eviction }

/-- Step 3 of `put`: evict until there is room. `n` counts the rounds. -/
def evict_until (entry_size : ℕ) (rounds : ℕ → EvictionRound) (n : ℕ) (shard : RamCacheShard) :
    RamCacheShard :=
  if shard.current_size + entry_size > shard.capacity ∧ shard.data.entries ≠ [] then
    match shard.find_victim (rounds n) with
    | some victim_key =>
      match h : shard.data.get? victim_key with
      | some _ =>
        evict_until entry_size rounds (n + 1)
          (shard.evict platform victim_key (rounds n).evicted_ms)
      | none => { shard with eviction := shard_remove_from_tracking shard.eviction victim_key }
    | none => shard
  else shard
termination_by shard.data.entries.length
decreasing_by
  rw [evict, remove_eq platform h]
  exact length_erase_lt h

/-- Steps 4 and 5 of `put`. -/
def replace (shard : RamCacheShard) (entry : RamCacheEntry) : RamCacheShard :=
  let shard := shard.remove platform entry.cache_key
  { shard with
    current_size := shard.current_size + shard_calculate_entry_size platform entry
    data := shard.data.put entry.cache_key entry
    eviction := shard_add_to_tracking shard.eviction entry.cache_key }

def TooLarge (shard : RamCacheShard) (entry : RamCacheEntry) : Prop :=
  shard_calculate_entry_size platform entry > shard.capacity

instance (shard : RamCacheShard) (entry : RamCacheEntry) :
    Decidable (shard.TooLarge platform entry) :=
  inferInstanceAs (Decidable (_ > _))

/-- `put`, on the shard of the key. -/
def put (shard : RamCacheShard) (entry : RamCacheEntry) (rounds : ℕ → EvictionRound) :
    RamCacheShard :=
  let shard := shard.drain
  if shard.TooLarge platform entry then shard
  else
    (shard.evict_until platform (shard_calculate_entry_size platform entry) rounds 0).replace
      platform entry

def note_access (shard : RamCacheShard) (key : List Char) : RamCacheShard :=
  { shard with pending_accesses := shard.pending_accesses ++ [key] }

/-- A hit of `get`: the access is stored in the entry, and every eighth one is noted if the lock
is free. -/
def touch (shard : RamCacheShard) (entry : RamCacheEntry) (key : List Char) (now_ms : ℕ)
    (lock_free : Bool) : RamCacheShard :=
  let new_count := entry.access_count + 1
  -- the two atomics are stored in the entry where it is
  let touched := { entry with last_accessed := now_ms, access_count := new_count }
  let shard := { shard with data := shard.data.put key touched }
  if new_count % 8 = 0 ∧ shard.eviction.eviction_algorithm = .LRU ∧ lock_free then
    shard.note_access key
  else shard

/-- `invalidate_by_prefix`, on one shard. -/
def invalidate_by_prefix_keys (shard : RamCacheShard) (stem : List Char) : RamCacheShard :=
  (shard.data.keys.filter fun k => stem.isPrefixOf k).foldl
    (fun shard key => shard.remove platform key) shard

theorem data_invalidate_by_prefix_keys (stem : List Char) :
    (shard.invalidate_by_prefix_keys platform stem).data.get? k =
      if stem <+: k then none else shard.data.get? k := by
  have hfold : ∀ (keys : List (List Char)) (shard : RamCacheShard),
      (keys.foldl (fun shard key => shard.remove platform key) shard).data =
        keys.foldl erase shard.data := by
    intro keys
    induction keys with
    | nil => exact fun _ => rfl
    | cons key keys ih =>
      intro shard
      rw [List.foldl_cons, ih, remove_data]
      rfl
  rw [invalidate_by_prefix_keys, hfold, get?_foldl_erase]
  simp only [List.mem_filter, List.isPrefixOf_iff_prefix]
  by_cases hstem : stem <+: k
  · rw [if_pos hstem]
    -- a key with the prefix that is not among the keys has no entry
    by_cases hkey : k ∈ shard.data.keys
    · rw [if_pos ⟨hkey, hstem⟩]
    · rw [if_neg fun h => hkey h.1]
      rwa [mem_keys_iff, Option.not_isSome_iff_eq_none] at hkey
  · rw [if_neg hstem, if_neg fun h => hstem h.2]

end RamCacheShard

def RAM_CACHE_ADMISSION_CEILING : ℕ := 64 * 1024 * 1024

/-- `ShardedRamCache`. There is at least one shard, so every key has one. -/
structure ShardedRamCache where
  shard_count : ℕ
  shards : Fin shard_count → RamCacheShard
  hit_count : ℕ
  miss_count : ℕ
  nonempty : 0 < shard_count

open RamCacheShard

namespace ShardedRamCache

/-- The number of shards that leaves each of them the admission ceiling. -/
def effective_shard_count (total_capacity shard_count : ℕ) : ℕ :=
  min (max shard_count 1) (max (total_capacity / RAM_CACHE_ADMISSION_CEILING) 1)

def per_shard_capacity (total_capacity shard_count : ℕ) : ℕ :=
  max (total_capacity / effective_shard_count total_capacity shard_count) 1

def new (total_capacity shard_count : ℕ) (eviction_algorithm : CacheEvictionAlgorithm) :
    ShardedRamCache :=
  { shard_count := effective_shard_count total_capacity shard_count
    shards := fun _ => .new (per_shard_capacity total_capacity shard_count) eviction_algorithm
    hit_count := 0
    miss_count := 0
    nonempty := lt_min (lt_max_of_lt_right one_pos) (lt_max_of_lt_right one_pos) }

def max_size (cache : ShardedRamCache) : ℕ :=
  (cache.shards ⟨0, cache.nonempty⟩).capacity * cache.shard_count

def current_size (cache : ShardedRamCache) : ℕ :=
  ∑ idx, (cache.shards idx).current_size

variable (platform : Platform)

def shard_index (cache : ShardedRamCache) (cache_key : List Char) : Fin cache.shard_count :=
  ⟨platform.hash_u64 (to_utf8 cache_key) % cache.shard_count, Nat.mod_lt _ cache.nonempty⟩

def update (cache : ShardedRamCache) (idx : Fin cache.shard_count) (shard : RamCacheShard) :
    ShardedRamCache :=
  { cache with shards := Function.update cache.shards idx shard }

def stored (cache : ShardedRamCache) (key : List Char) : Option RamCacheEntry :=
  (cache.shards (cache.shard_index platform key)).data.get? key

def get (cache : ShardedRamCache) (key : List Char) (now_ms : ℕ) (lock_free : Bool) :
    Option RamCacheRead × ShardedRamCache :=
  let idx := cache.shard_index platform key
  match cache.stored platform key with
  | none => (none, { cache with miss_count := cache.miss_count + 1 })
  | some entry =>
    (some entry.read,
      { cache.update idx ((cache.shards idx).touch entry key now_ms lock_free) with
        hit_count := cache.hit_count + 1 })

def put (cache : ShardedRamCache) (entry : RamCacheEntry) (rounds : ℕ → EvictionRound) :
    ShardedRamCache :=
  let idx := cache.shard_index platform entry.cache_key
  cache.update idx ((cache.shards idx).put platform entry rounds)

def invalidate (cache : ShardedRamCache) (key : List Char) : ShardedRamCache :=
  let idx := cache.shard_index platform key
  cache.update idx ((cache.shards idx).remove platform key)

def invalidate_by_prefix_keys (cache : ShardedRamCache) (stem : List Char) : ShardedRamCache :=
  { cache with shards := fun idx => (cache.shards idx).invalidate_by_prefix_keys platform stem }

theorem stored_invalidate (cache : ShardedRamCache) (key k : List Char) :
    (cache.invalidate platform key).stored platform k =
      if k = key then none else cache.stored platform k := by
  change (Function.update cache.shards (cache.shard_index platform key) _
    (cache.shard_index platform k)).data.get? k = _
  by_cases hidx : cache.shard_index platform k = cache.shard_index platform key
  · rw [hidx, Function.update_self, data_remove, stored, hidx]
  · have hne : k ≠ key := fun heq => hidx (congrArg _ heq)
    rw [Function.update_of_ne hidx, if_neg hne]
    rfl

theorem stored_invalidate_by_prefix_keys (cache : ShardedRamCache) (stem k : List Char) :
    (cache.invalidate_by_prefix_keys platform stem).stored platform k =
      if stem <+: k then none else cache.stored platform k := by
  change ((cache.shards (cache.shard_index platform k)).invalidate_by_prefix_keys platform
    stem).data.get? k = _
  rw [data_invalidate_by_prefix_keys]
  rfl

end ShardedRamCache

/-- What can happen to the cache. `get` lets go of its lock before it puts the access on the list,
and `invalidate_by_prefix` locks one shard after another: other operations can come in between, so
the late access and the single shard are events of their own as well. -/
inductive RamEvent where
  | get (key : List Char) (now_ms : ℕ) (lock_free : Bool)
  | late_access (key : List Char)
  | put (entry : RamCacheEntry) (rounds : ℕ → EvictionRound)
  | invalidate (key : List Char)
  | invalidate_by_prefix_keys (stem : List Char)
  | invalidate_shard (idx : ℕ) (stem : List Char)

def step (platform : Platform) (cache : ShardedRamCache) : RamEvent → Option ShardedRamCache
  | .get key now_ms lock_free => some (cache.get platform key now_ms lock_free).2
  | .late_access key =>
    let idx := cache.shard_index platform key
    some (cache.update idx ((cache.shards idx).note_access key))
  | .put entry rounds => some (cache.put platform entry rounds)
  | .invalidate key => some (cache.invalidate platform key)
  | .invalidate_by_prefix_keys stem => some (cache.invalidate_by_prefix_keys platform stem)
  | .invalidate_shard idx stem =>
    if h : idx < cache.shard_count then
      some (cache.update ⟨idx, h⟩ ((cache.shards ⟨idx, h⟩).invalidate_by_prefix_keys platform stem))
    else none

/-! ## The invariant of a shard -/

/-- The keys that the tracking is to list: all of them under LRU, none under TinyLFU. -/
def tracked (eviction_algorithm : CacheEvictionAlgorithm)
    (data : Directory (List Char) RamCacheEntry) : List (List Char) :=
  match eviction_algorithm with
  | .LRU => data.keys
  | .TinyLFU => []

/-- The entries, the sum of their sizes and the order agree, in a shard of that capacity and
algorithm. -/
structure Sound (platform : Platform) (capacity : ℕ) (algorithm : CacheEvictionAlgorithm)
    (shard : RamCacheShard) : Prop where
  algorithm_eq : shard.eviction.eviction_algorithm = algorithm
  capacity_eq : shard.capacity = capacity
  size : shard.current_size = shard.data.total (shard_calculate_entry_size platform)
  bound : shard.current_size ≤ capacity
  order : shard.eviction.lru_order.Perm (tracked algorithm shard.data)
  named : ∀ key entry, shard.data.get? key = some entry → entry.cache_key = key

section Tracking

variable {algorithm : CacheEvictionAlgorithm} {eviction : EvictionState} {key : List Char}
  {data : Directory (List Char) RamCacheEntry}

@[simp] theorem algorithm_add : (shard_add_to_tracking eviction key).eviction_algorithm =
    eviction.eviction_algorithm := by
  unfold shard_add_to_tracking
  split <;> rfl

@[simp] theorem algorithm_remove : (shard_remove_from_tracking eviction key).eviction_algorithm =
    eviction.eviction_algorithm := by
  unfold shard_remove_from_tracking
  split <;> rfl

@[simp] theorem algorithm_update : (shard_update_access_tracking eviction key).eviction_algorithm =
    eviction.eviction_algorithm := by
  unfold shard_update_access_tracking
  split <;> rfl

theorem order_put (entry : RamCacheEntry) (hsome : (data.get? key).isSome)
    (h : eviction.lru_order.Perm (tracked algorithm data)) :
    eviction.lru_order.Perm (tracked algorithm (data.put key entry)) := by
  cases algorithm with
  | LRU => exact h.trans (keys_put_perm hsome entry).symm
  | TinyLFU => exact h

variable (halg : eviction.eviction_algorithm = algorithm)
  (h : eviction.lru_order.Perm (tracked algorithm data))

include halg h

theorem order_remove : (shard_remove_from_tracking eviction key).lru_order.Perm
      (tracked algorithm (data.erase key)) := by
  subst halg
  unfold shard_remove_from_tracking
  cases heq : eviction.eviction_algorithm with
  | LRU =>
    simp only [heq, tracked, keys_erase] at h ⊢
    exact h.erase key
  | TinyLFU =>
    simp only [heq, tracked] at h ⊢
    exact h

theorem order_add (entry : RamCacheEntry) (hnone : data.get? key = none) :
    (shard_add_to_tracking eviction key).lru_order.Perm
      (tracked algorithm (data.put key entry)) := by
  subst halg
  unfold shard_add_to_tracking
  cases heq : eviction.eviction_algorithm with
  | LRU =>
    simp only [heq, tracked, keys_put_of_none hnone] at h ⊢
    exact (List.perm_append_singleton key _).trans (h.cons key)
  | TinyLFU =>
    simp only [heq, tracked] at h ⊢
    exact h

theorem order_update (hsome : (data.get? key).isSome) :
    (shard_update_access_tracking eviction key).lru_order.Perm (tracked algorithm data) := by
  subst halg
  unfold shard_update_access_tracking
  cases heq : eviction.eviction_algorithm with
  | LRU =>
    simp only [heq, tracked] at h ⊢
    have hmem : key ∈ eviction.lru_order := h.mem_iff.mpr (mem_keys_iff.mpr hsome)
    exact ((List.perm_append_singleton key _).trans (List.perm_cons_erase hmem).symm).trans h
  | TinyLFU =>
    simp only [heq, tracked] at h ⊢
    exact h

end Tracking

namespace Sound

variable {platform : Platform} {capacity : ℕ} {algorithm : CacheEvictionAlgorithm}
  {shard : RamCacheShard}

theorem new : Sound platform capacity algorithm (.new capacity algorithm) where
  algorithm_eq := rfl
  capacity_eq := rfl
  size := rfl
  bound := Nat.zero_le _
  order := by cases algorithm <;> exact List.Perm.nil
  named := by
    intro key entry h
    cases h

theorem count_lru_order (h : Sound platform capacity .LRU shard) (key : List Char) :
    shard.eviction.lru_order.count key = if (shard.data.get? key).isSome then 1 else 0 := by
  have hnodup : shard.data.keys.Nodup := shard.data.nodup
  rw [h.order.count_eq key, tracked, hnodup.count]
  exact if_congr mem_keys_iff rfl rfl

theorem lru_order_of_tinylfu (h : Sound platform capacity .TinyLFU shard) :
    shard.eviction.lru_order = [] :=
  List.perm_nil.mp h.order

theorem tinylfu_victim (hne : shard.data.entries ≠ []) (now_ms pick : ℕ) :
    ∃ e ∈ shard.data.entries, shard.shard_find_tinylfu_victim now_ms pick = some e.1 := by
  simp only [shard_find_tinylfu_victim]
  generalize hlowest : shard.data.entries.filter _ = lowest
  have hsub : ∀ e ∈ lowest, e ∈ shard.data.entries := by
    intro e he
    rw [← hlowest] at he
    exact List.mem_of_mem_filter he
  obtain ⟨e, he, hmin⟩ := Finset.exists_min_image shard.data.entries.toFinset
    (fun e => tinylfu_score now_ms e.2) ((List.toFinset_nonempty_iff _).mpr hne)
  simp only [List.mem_toFinset] at he hmin
  have hpos : 0 < lowest.length := by
    rw [← hlowest]
    refine List.length_pos_of_mem (List.mem_filter.mpr ⟨he, ?_⟩)
    rw [List.all_eq_true]
    intro e' he'
    exact decide_eq_true (hmin e' he')
  have hlt := Nat.mod_lt pick hpos
  refine ⟨lowest[pick % lowest.length], hsub _ (List.getElem_mem hlt), ?_⟩
  rw [List.getElem?_eq_getElem hlt, Option.map_some]

variable (h : Sound platform capacity algorithm shard)

include h

variable {key : List Char} {entry : RamCacheEntry}

theorem remove (key : List Char) :
    Sound platform capacity algorithm (shard.remove platform key) := by
  cases hget : shard.data.get? key with
  | none =>
    rw [RamCacheShard.remove, hget]
    exact h
  | some entry =>
    have htotal := total_erase (shard_calculate_entry_size platform) shard.data key
    rw [measure_of_get? _ hget, ← h.size] at htotal
    have hbound := h.bound
    rw [remove_eq platform hget]
    refine ⟨?_, h.capacity_eq, ?_, ?_, order_remove h.algorithm_eq h.order, ?_⟩
    · exact algorithm_remove.trans h.algorithm_eq
    · dsimp only
      omega
    · dsimp only
      omega
    · intro k e hk
      have hne : k ≠ key := by
        rintro rfl
        rw [get?_erase_self] at hk
        cases hk
      rw [get?_erase_ne _ hne] at hk
      exact h.named k e hk

theorem evict (key : List Char) (ms : ℕ) :
    Sound platform capacity algorithm (shard.evict platform key ms) :=
  have h' := h.remove key
  ⟨h'.algorithm_eq, h'.capacity_eq, h'.size, h'.bound, h'.order, h'.named⟩

theorem drain : Sound platform capacity algorithm shard.drain := by
  have hfold : ∀ (pending : List (List Char)) (eviction : EvictionState),
      eviction.eviction_algorithm = algorithm →
      eviction.lru_order.Perm (tracked algorithm shard.data) →
      let eviction' := pending.foldl
        (fun eviction key =>
          if (shard.data.get? key).isSome then shard_update_access_tracking eviction key
          else eviction) eviction
      eviction'.eviction_algorithm = algorithm ∧
        eviction'.lru_order.Perm (tracked algorithm shard.data) := by
    intro pending
    induction pending with
    | nil =>
      intro eviction halg horder
      exact ⟨halg, horder⟩
    | cons key rest ih =>
      intro eviction halg horder
      rw [List.foldl_cons]
      split_ifs with hsome
      · exact ih _ (algorithm_update.trans halg) (order_update halg horder hsome)
      · exact ih eviction halg horder
  obtain ⟨halg, horder⟩ := hfold shard.pending_accesses shard.eviction h.algorithm_eq h.order
  exact ⟨halg, h.capacity_eq, h.size, h.bound, horder, h.named⟩

/-- A shard that stores anything has a victim, and it is a key that it stores. -/
theorem find_victim (hne : shard.data.entries ≠ []) (round : EvictionRound) :
    ∃ key entry, shard.find_victim round = some key ∧ shard.data.get? key = some entry := by
  have horder := h.order
  unfold RamCacheShard.find_victim
  cases heq : shard.eviction.eviction_algorithm with
  | LRU =>
    rw [← h.algorithm_eq, heq, tracked] at horder
    have hpos : shard.eviction.lru_order ≠ [] := by
      intro hnil
      rw [hnil, List.nil_perm, keys, List.map_eq_nil_iff] at horder
      exact hne horder
    obtain ⟨key, rest, hcons⟩ := List.exists_cons_of_ne_nil hpos
    have hkey : key ∈ shard.data.keys := horder.mem_iff.mp (hcons ▸ List.mem_cons_self)
    obtain ⟨entry, hentry⟩ := Option.isSome_iff_exists.mp (mem_keys_iff.mp hkey)
    refine ⟨key, entry, ?_, hentry⟩
    rw [shard_find_lru_victim, hcons, List.head?_cons]
  | TinyLFU =>
    obtain ⟨e, he, hvictim⟩ := tinylfu_victim hne round.now_ms round.pick
    exact ⟨e.1, e.2, hvictim, get?_of_mem he⟩

theorem size_of_no_entries (hnil : shard.data.entries = []) : shard.current_size = 0 := by
  rw [h.size, total, hnil]
  rfl

/-- **The eviction loop ends with room.** It takes out entries and nothing else: every round finds
a victim that is stored, so the loop is left only when the entry fits or no entry is left. With each
victim, all that is still stored has no room for the entry beside it. -/
theorem evict_until {entry_size : ℕ} (hfits : entry_size ≤ capacity)
    (rounds : ℕ → EvictionRound) (n : ℕ) :
    let shard' := shard.evict_until platform entry_size rounds n
    Sound platform capacity algorithm shard' ∧ shard'.current_size + entry_size ≤ capacity ∧
      ∃ victims : List (List Char), shard'.data = victims.foldl erase shard.data ∧
        ∀ i < victims.length, capacity < ((victims.take i).foldl erase shard.data).total
          (shard_calculate_entry_size platform) + entry_size := by
  induction n, shard using evict_until.induct platform entry_size rounds with
  | case1 n shard hfull victim_key hvictim evicted hevicted ih =>
    obtain ⟨hsound, hroom, victims, hdata, hneeded⟩ := ih (h.evict victim_key _)
    have herase : (shard.evict platform victim_key (rounds n).evicted_ms).data =
        shard.data.erase victim_key := RamCacheShard.remove_data platform shard victim_key
    rw [herase] at hdata hneeded
    rw [RamCacheShard.evict_until, if_pos hfull]
    simp only [hvictim]
    split
    case h_1 =>
      refine ⟨hsound, hroom, victim_key :: victims, hdata, ?_⟩
      rintro (_ | i) hi
      · rw [List.take_zero, List.foldl_nil, ← h.size, ← h.capacity_eq]
        exact hfull.1
      · exact hneeded i (Nat.lt_of_succ_lt_succ hi)
    case h_2 hnone =>
      rw [hnone] at hevicted
      cases hevicted
  | case2 n shard hfull victim_key hvictim hnone =>
    obtain ⟨key, entry, hkey, hentry⟩ := h.find_victim hfull.2 (rounds n)
    obtain rfl : victim_key = key := Option.some.inj (hvictim.symm.trans hkey)
    rw [hnone] at hentry
    cases hentry
  | case3 n shard hfull hvictim =>
    obtain ⟨key, entry, hkey, -⟩ := h.find_victim hfull.2 (rounds n)
    rw [hvictim] at hkey
    cases hkey
  | case4 n shard hdone =>
    rw [RamCacheShard.evict_until, if_neg hdone]
    refine ⟨h, ?_, [], rfl, nofun⟩
    have hcapacity := h.capacity_eq
    by_cases hnil : shard.data.entries = []
    · rw [h.size_of_no_entries hnil]
      omega
    · have hroom : ¬ shard.current_size + entry_size > shard.capacity :=
        fun hover => hdone ⟨hover, hnil⟩
      omega

theorem replace
    (hroom : shard.current_size + shard_calculate_entry_size platform entry ≤ capacity) :
    Sound platform capacity algorithm (shard.replace platform entry) := by
  have h' := h.remove entry.cache_key
  have hnone : (shard.remove platform entry.cache_key).data.get? entry.cache_key = none := by
    rw [RamCacheShard.data_remove, if_pos rfl]
  have hle : (shard.remove platform entry.cache_key).current_size ≤ shard.current_size := by
    rw [RamCacheShard.remove]
    split
    case h_1 => exact Nat.sub_le _ _
    case h_2 => exact le_rfl
  have htotal := total_put (shard_calculate_entry_size platform)
    (shard.remove platform entry.cache_key).data entry.cache_key entry
  rw [measure_of_none _ hnone, ← h'.size, add_zero] at htotal
  refine ⟨algorithm_add.trans h'.algorithm_eq, h'.capacity_eq, htotal.symm, ?_,
    order_add h'.algorithm_eq h'.order entry hnone, ?_⟩
  · exact (Nat.add_le_add_right hle _).trans hroom
  · intro key e hkey
    by_cases heq : key = entry.cache_key
    · rw [heq, RamCacheShard.replace, get?_put_self, Option.some.injEq] at hkey
      rw [heq, ← hkey]
    · rw [RamCacheShard.replace, get?_put_ne _ heq] at hkey
      exact h'.named key e hkey

theorem put (entry : RamCacheEntry) (rounds : ℕ → EvictionRound) :
    Sound platform capacity algorithm (shard.put platform entry rounds) := by
  have hdrain := h.drain
  simp only [RamCacheShard.put]
  split
  case isTrue => exact hdrain
  case isFalse hsmall =>
    rw [RamCacheShard.TooLarge, hdrain.capacity_eq, not_lt] at hsmall
    obtain ⟨hsound, hroom, -⟩ := hdrain.evict_until hsmall rounds 0
    exact hsound.replace hroom

theorem note_access (key : List Char) : Sound platform capacity algorithm (shard.note_access key) :=
  ⟨h.algorithm_eq, h.capacity_eq, h.size, h.bound, h.order, h.named⟩

theorem touch (hget : shard.data.get? key = some entry) (now_ms : ℕ) (lock_free : Bool) :
    Sound platform capacity algorithm (shard.touch entry key now_ms lock_free) := by
  let touched := { entry with last_accessed := now_ms, access_count := entry.access_count + 1 }
  have htotal := total_put (shard_calculate_entry_size platform) shard.data key touched
  rw [measure_of_get? _ hget, ← h.size] at htotal
  have hnamed : ∀ k e, (shard.data.put key touched).get? k = some e → e.cache_key = k := by
    intro k e hk
    by_cases heq : k = key
    · rw [heq, get?_put_self, Option.some.injEq] at hk
      rw [heq, ← hk]
      exact h.named key entry hget
    · rw [get?_put_ne _ heq] at hk
      exact h.named k e hk
  have hput : Sound platform capacity algorithm
      { shard with data := shard.data.put key touched } :=
    ⟨h.algorithm_eq, h.capacity_eq, (Nat.add_right_cancel htotal).symm, h.bound,
      order_put _ (by simp [hget]) h.order, hnamed⟩
  simp only [RamCacheShard.touch]
  split
  case isTrue => exact hput.note_access key
  case isFalse => exact hput

theorem invalidate_by_prefix_keys (stem : List Char) :
    Sound platform capacity algorithm (shard.invalidate_by_prefix_keys platform stem) := by
  unfold RamCacheShard.invalidate_by_prefix_keys
  generalize shard.data.keys.filter _ = keys
  induction keys generalizing shard with
  | nil => exact h
  | cons key rest ih => exact ih (h.remove key)

end Sound

/-! ## Every run of the cache -/

def SoundCache (platform : Platform) (capacity : ℕ) (algorithm : CacheEvictionAlgorithm)
    (cache : ShardedRamCache) : Prop :=
  ∀ idx, Sound platform capacity algorithm (cache.shards idx)

section Runs

variable {platform : Platform} {capacity : ℕ} {algorithm : CacheEvictionAlgorithm}
  {cache cache' : ShardedRamCache}

theorem SoundCache.update (h : SoundCache platform capacity algorithm cache)
    {idx : Fin cache.shard_count} {shard : RamCacheShard}
    (hshard : Sound platform capacity algorithm shard) :
    SoundCache platform capacity algorithm (cache.update idx shard) := by
  intro (i : Fin cache.shard_count)
  change Sound platform capacity algorithm (Function.update cache.shards idx shard i)
  by_cases hi : i = idx
  · rw [hi, Function.update_self]
    exact hshard
  · rw [Function.update_of_ne hi]
    exact h i

/-- Every operation leaves each shard sound: it changes one shard, and that one by a sound step. -/
theorem SoundCache.step (h : SoundCache platform capacity algorithm cache) (event : RamEvent)
    (hstep : step platform cache event = some cache') :
    SoundCache platform capacity algorithm cache' := by
  cases event with simp only [RamCache.step, Option.some.injEq] at hstep
  | get key now_ms lock_free =>
    simp only [ShardedRamCache.get] at hstep
    subst hstep
    cases hget : cache.stored platform key with
    | none => exact h
    | some entry => exact h.update ((h _).touch hget now_ms lock_free)
  | late_access key =>
    subst hstep
    exact h.update ((h _).note_access key)
  | put entry rounds =>
    subst hstep
    exact h.update ((h _).put entry rounds)
  | invalidate key =>
    subst hstep
    exact h.update ((h _).remove key)
  | invalidate_by_prefix_keys stem =>
    subst hstep
    exact fun idx => (h idx).invalidate_by_prefix_keys stem
  | invalidate_shard idx stem =>
    simp only [Option.dite_none_right_eq_some, Option.some.injEq] at hstep
    obtain ⟨hlt, rfl⟩ := hstep
    exact h.update ((h _).invalidate_by_prefix_keys stem)

theorem soundCache_new (total_capacity shard_count : ℕ) :
    SoundCache platform (ShardedRamCache.per_shard_capacity total_capacity shard_count) algorithm
      (.new total_capacity shard_count algorithm) :=
  fun _ => .new

theorem soundCache_of_run {total_capacity shard_count : ℕ} {events : List RamEvent}
    (hrun : run (step platform) (.new total_capacity shard_count algorithm) events = some cache) :
    SoundCache platform (ShardedRamCache.per_shard_capacity total_capacity shard_count) algorithm
      cache :=
  @run_invariant _ _ (step platform) (fun _ _ => True) _
    (fun _ event _ h _ hstep => h.step event hstep) _ _ events (soundCache_new _ _)
    (guarded_of_forall fun _ _ => trivial) hrun

theorem SoundCache.current_size_le (h : SoundCache platform capacity algorithm cache) :
    cache.current_size ≤ cache.max_size := by
  have hsum : cache.current_size ≤ ∑ _idx : Fin cache.shard_count, capacity :=
    Finset.sum_le_sum fun idx _ => (h idx).bound
  rw [Finset.sum_const, Finset.card_univ, Fintype.card_fin, smul_eq_mul] at hsum
  rw [ShardedRamCache.max_size, (h ⟨0, cache.nonempty⟩).capacity_eq, mul_comm]
  exact hsum

/-- **In every run the sizes, the map and the order agree.** In every shard `current_size` is the
sum of the sizes of the entries and at most the capacity; under LRU the order lists each stored key
once and nothing else, and under TinyLFU it stays empty; and the eviction loop of every `put` that
is not dropped ends with room for the entry. -/
theorem sizes_and_order_of_run (platform : Platform) (total_capacity shard_count : ℕ)
    (algorithm : CacheEvictionAlgorithm) (events : List RamEvent) (cache : ShardedRamCache)
    (hrun : run (step platform) (.new total_capacity shard_count algorithm) events = some cache) :
    cache.current_size ≤ cache.max_size ∧
    ∀ idx, let shard := cache.shards idx
      shard.current_size =
        (shard.data.entries.map fun e => shard_calculate_entry_size platform e.2).sum ∧
      shard.current_size ≤ shard.capacity ∧
      (algorithm = .LRU → ∀ key, shard.eviction.lru_order.count key =
        if (shard.data.get? key).isSome then 1 else 0) ∧
      (algorithm = .TinyLFU → shard.eviction.lru_order = []) ∧
      ∀ entry rounds, ¬ shard.TooLarge platform entry →
        (shard.drain.evict_until platform (shard_calculate_entry_size platform entry)
          rounds 0).current_size + shard_calculate_entry_size platform entry ≤ shard.capacity := by
  have hcache := soundCache_of_run hrun
  refine ⟨hcache.current_size_le, fun idx => ?_⟩
  have h := hcache idx
  refine ⟨h.size, h.bound.trans_eq h.capacity_eq.symm, ?_, ?_, ?_⟩
  · rintro rfl
    exact h.count_lru_order
  · rintro rfl
    exact h.lru_order_of_tinylfu
  · intro entry rounds hfits
    rw [RamCacheShard.TooLarge, not_lt, h.capacity_eq] at hfits
    rw [h.capacity_eq]
    exact (h.drain.evict_until hfits rounds 0).2.1

/-- **What a put evicts**, in every shard of every run: victims one after another, each of them
because the entries still stored, with an old value of the key, leave no room for the new entry. -/
theorem put_victims_of_run (platform : Platform) (total_capacity shard_count : ℕ)
    (algorithm : CacheEvictionAlgorithm) (events : List RamEvent) (cache : ShardedRamCache)
    (hrun : run (step platform) (.new total_capacity shard_count algorithm) events = some cache)
    (idx : Fin cache.shard_count) (entry : RamCacheEntry) (rounds : ℕ → EvictionRound) :
    let shard := cache.shards idx
    let size := shard_calculate_entry_size platform
    (shard.TooLarge platform entry → (shard.put platform entry rounds).data = shard.data) ∧
    (¬ shard.TooLarge platform entry → ∃ victims : List (List Char),
      (∀ key, (shard.put platform entry rounds).data.get? key =
        if key = entry.cache_key then some entry
        else (victims.foldl erase shard.data).get? key) ∧
      (∀ i < victims.length, shard.capacity <
        ((victims.take i).foldl erase shard.data).total size + size entry) ∧
      (shard.data.total size + size entry ≤ shard.capacity → victims = [])) := by
  intro shard size
  have h := soundCache_of_run hrun idx
  refine ⟨fun hlarge => ?_, fun hfits => ?_⟩
  · have hput : shard.put platform entry rounds = shard.drain := if_pos hlarge
    rw [hput]
    rfl
  have hsize := hfits
  rw [RamCacheShard.TooLarge, not_lt, h.capacity_eq] at hsize
  obtain ⟨-, -, victims, hdata, hneeded⟩ := h.drain.evict_until hsize rounds 0
  rw [← h.capacity_eq] at hneeded
  refine ⟨victims, fun key => ?_, hneeded, fun hroom => ?_⟩
  · have hput : shard.put platform entry rounds =
        (shard.drain.evict_until platform (size entry) rounds 0).replace platform entry :=
      if_neg hfits
    rw [hput, replace]
    by_cases hkey : key = entry.cache_key
    · rw [hkey, get?_put_self, if_pos rfl]
    · rw [get?_put_ne _ hkey, data_remove, if_neg hkey, if_neg hkey,
        hdata]
      rfl
  · by_contra hne
    exact absurd (hneeded 0 (List.length_pos_of_ne_nil hne)) (Nat.not_lt.mpr hroom)

end Runs

section SmallBuild

def small_platform : Platform :=
  ⟨0, 0, fun _ => 0⟩

def small_entry (data : List UInt8) : RamCacheEntry :=
  { cache_key := ['k']
    data
    metadata := ⟨"v", "", data.length, none, none, 0, 0⟩
    last_accessed := 0
    access_count := 0
    compressed := false
    compression_algorithm := .Lz4 }

def no_ties : ℕ → EvictionRound :=
  fun _ => ⟨0, 0, 0⟩

def small_events : List RamEvent :=
  [.put (small_entry [1]) no_ties, .get ['k'] 5 true,
    .put { small_entry [1, 2] with cache_key := ['l'] } no_ties]

theorem sizes_of_small_run :
    ∃ cache, run (step small_platform) (.new 4 1 .LRU) small_events = some cache ∧
      cache.current_size ≤ cache.max_size :=
  ⟨_, rfl, (sizes_and_order_of_run small_platform 4 1 .LRU small_events _ rfl).1⟩

/-- Under TinyLFU a stored key is on no list. -/
theorem tinylfu_order_misses_key :
    ∃ cache, run (step small_platform) (.new 4 1 .TinyLFU) [.put (small_entry [1]) no_ties] =
        some cache ∧
      (cache.stored small_platform ['k']).isSome ∧
      (cache.shards (cache.shard_index small_platform ['k'])).eviction.lru_order.count ['k'] = 0 :=
  ⟨_, rfl, by decide +kernel, by decide +kernel⟩

def two_small_puts : List RamEvent :=
  [.put { small_entry [1, 2, 3] with cache_key := ['j'] } no_ties,
    .put (small_entry [1, 2, 3]) no_ties]

/-- An entry is evicted by a new value that fits beside it once the old value is gone. -/
theorem replacement_evicts_other :
    ∃ cache, run (step small_platform) (.new 10 1 .LRU) two_small_puts = some cache ∧
      (cache.stored small_platform ['j']).map (shard_calculate_entry_size small_platform) = some 4 ∧
      shard_calculate_entry_size small_platform (small_entry [1, 2, 3, 4]) = 5 ∧
      ((cache.put small_platform (small_entry [1, 2, 3, 4]) no_ties).stored small_platform
        ['j']).isNone :=
  ⟨_, rfl, by decide +kernel, by decide +kernel, by decide +kernel⟩

theorem small_put_has_victim :
    ∃ cache, run (step small_platform) (.new 10 1 .LRU) two_small_puts = some cache ∧
      ∃ idx, ∃ victims : List (List Char), victims ≠ [] ∧ ∀ key,
        ((cache.shards idx).put small_platform (small_entry [1, 2, 3, 4]) no_ties).data.get? key =
          if key = ['k'] then some (small_entry [1, 2, 3, 4])
          else (victims.foldl erase (cache.shards idx).data).get? key := by
  refine ⟨_, rfl, ⟨0, by decide⟩, ?_⟩
  obtain ⟨victims, hdata, -⟩ := (put_victims_of_run small_platform 10 1 .LRU two_small_puts _ rfl
    ⟨0, by decide⟩ (small_entry [1, 2, 3, 4]) no_ties).2 (by decide +kernel)
  refine ⟨victims, ?_, hdata⟩
  rintro rfl
  exact absurd (hdata ['j']) (by decide +kernel)

end SmallBuild

end HybridCache.RamCache
