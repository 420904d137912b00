/-
From the size check of a consolidation cycle to the candidates of an eviction
pass: `maybe_trigger_eviction` (`journal_consolidator.rs`), then
`enforce_disk_cache_limits_internal` and the first half of
`perform_eviction_with_lock` (`cache.rs`).

The consolidator compares the tracked size with a percentage of the maximum. The
cache manager reads the size again, twice, and compares it with the maximum
itself. Both percentages are computed in `f64` and cut off to `u64`.
-/
import HybridCache.Eviction.Candidates
import HybridCache.Lib.Outcome

namespace HybridCache.Eviction

open Lib

/-! ## Percentages in `f64` -/

/-- The nearest natural number to `a / b`, the even one of two. -/
def round_half_even (a b : ℕ) : ℕ :=
  if 2 * (a % b) < b then a / b
  else if b < 2 * (a % b) then a / b + 1
  else a / b + a / b % 2

/-- A finite `f64` that is not negative: `mantissa * 2 ^ exponent`. -/
structure F64 where
  mantissa : ℕ
  exponent : ℤ
deriving DecidableEq, Repr

namespace F64

/-- `m * 2 ^ e` as a fraction. -/
def fraction (m : ℕ) (e : ℤ) : ℕ × ℕ :=
  (m * 2 ^ e.toNat, 2 ^ (-e).toNat)

/-- The `f64` nearest to `a / b`, with 53 bits of mantissa. The numbers met here are far
from where `f64` overflows or loses bits to a small exponent. -/
def nearest (a b : ℕ) : F64 :=
  if a = 0 then ⟨0, 0⟩
  else
    let at_exponent := fun e : ℤ => (a * 2 ^ (-e).toNat, b * 2 ^ e.toNat)
    let guess : ℤ := Nat.log 2 a - Nat.log 2 b - 52
    let e := if (at_exponent guess).1 < (at_exponent guess).2 * 2 ^ 52 then guess - 1 else guess
    ⟨round_half_even (at_exponent e).1 (at_exponent e).2, e⟩

def of_nat (n : ℕ) : F64 :=
  nearest n 1

def mul (x y : F64) : F64 :=
  let (num, den) := fraction (x.mantissa * y.mantissa) (x.exponent + y.exponent)
  nearest num den

def div (x y : F64) : F64 :=
  let (num, den) := fraction x.mantissa (x.exponent - y.exponent)
  nearest num (den * y.mantissa)

def to_u64 (x : F64) : ℕ :=
  let (num, den) := fraction x.mantissa x.exponent
  min (num / den) u64_max

end F64

def percent_of (size percent : ℕ) : ℕ :=
  ((F64.of_nat size).mul ((F64.of_nat percent).div (F64.of_nat 100))).to_u64

example : percent_of 1000 95 = 950 ∧ percent_of 1000 80 = 800 ∧
    percent_of (2 ^ 64 - 1) 100 = 2 ^ 64 - 1 ∧ percent_of 100 29 = 28 := by
  decide

/-! ## The two checks -/

/-- The settings the checks read: those of the consolidator and those of the cache manager. -/
structure EvictionConfig where
  max_cache_size : ℕ
  eviction_trigger_percent : ℕ
  max_cache_size_limit : ℕ
  eviction_target_percent : ℕ
deriving DecidableEq, Repr

namespace EvictionConfig

def trigger_threshold (config : EvictionConfig) : ℕ :=
  percent_of config.max_cache_size config.eviction_trigger_percent

def target_size (config : EvictionConfig) : ℕ :=
  percent_of config.max_cache_size_limit config.eviction_target_percent

end EvictionConfig

variable {κ : Type} [DecidableEq κ]

/-- What a pass finds: the tracked size before and after it takes the eviction lock, whether
it gets the lock, and the candidates. -/
structure PassInput (κ : Type) where
  size_before_lock : ℕ
  lock_acquired : Bool
  current_size : ℕ
  candidates : List (RangeEvictionCandidate κ)
  eviction_algorithm : CacheEvictionAlgorithm
  now : ℕ

/-- `maybe_trigger_eviction`: whether a pass is spawned. -/
def maybe_trigger_eviction (config : EvictionConfig) (current_size : ℕ)
    (eviction_in_progress cache_manager_available : Bool) : Bool :=
  if config.max_cache_size = 0 then false
  else if current_size ≤ config.trigger_threshold then false
  else if eviction_in_progress then false
  else cache_manager_available

/-- `perform_eviction_with_lock`, up to the groups it is going to delete. -/
def groups_to_evict (config : EvictionConfig) (input : PassInput κ) :
    List (κ × List (RangeEvictionCandidate κ)) :=
  let bytes_to_free := input.current_size - config.target_size
  if bytes_to_free = 0 then []
  else
    group_candidates_by_object
      (sort_range_candidates input.eviction_algorithm input.now input.candidates) bytes_to_free

/-- `enforce_disk_cache_limits_internal`, up to the groups it is going to delete. -/
def enforce_disk_cache_limits_internal (config : EvictionConfig) (input : PassInput κ) :
    List (κ × List (RangeEvictionCandidate κ)) :=
  if config.max_cache_size_limit = 0 ∨ input.size_before_lock ≤ config.max_cache_size_limit then []
  else if input.lock_acquired = false then []
  else if input.current_size ≤ config.max_cache_size_limit then []
  else groups_to_evict config input

/-- The end of a consolidation cycle that finds the size `known_size`: the groups of the
pass it starts, if it starts one. -/
def eviction_cycle (config : EvictionConfig) (known_size : ℕ)
    (eviction_in_progress cache_manager_available : Bool) (input : PassInput κ) :
    Option (List (κ × List (RangeEvictionCandidate κ))) :=
  if maybe_trigger_eviction config known_size eviction_in_progress cache_manager_available then
    some (enforce_disk_cache_limits_internal config input)
  else none

/-- Enough is chosen, or all there is; and something, if the size is above the trigger
threshold and there is anything. -/
def ChoosesEnough (config : EvictionConfig) (input : PassInput κ)
    (groups : List (κ × List (RangeEvictionCandidate κ))) : Prop :=
  (input.current_size - config.target_size ≤ bytes (chosen groups) ∨
    (chosen groups).Perm input.candidates) ∧
  (config.trigger_threshold < input.current_size → input.candidates ≠ [] → groups ≠ [])

/-! ## What a pass chooses -/

omit [DecidableEq κ] in
theorem bytes_perm {l l' : List (RangeEvictionCandidate κ)} (h : l.Perm l') :
    bytes l = bytes l' :=
  (h.map _).sum_eq

variable {config : EvictionConfig} {input : PassInput κ}

theorem groups_to_evict_chooses_enough (htarget : config.target_size < input.current_size) :
    ChoosesEnough config input (groups_to_evict config input) := by
  have hsort := sort_range_candidates_perm input.eviction_algorithm input.now input.candidates
  have hfree : ¬ input.current_size - config.target_size = 0 := by omega
  obtain ⟨taken, rest, hsplit, hperm, hend, -⟩ := group_candidates_by_object_spec
    (sort_range_candidates input.eviction_algorithm input.now input.candidates)
    (input.current_size - config.target_size)
  rw [groups_to_evict, if_neg hfree]
  refine ⟨?_, fun _ hne hnil => ?_⟩
  · rcases hend with hrest | henough
    · right
      rw [hrest, List.append_nil] at hsplit
      rw [← hsplit] at hperm
      exact hperm.trans hsort
    · left
      rw [bytes_perm hperm]
      exact henough
  · -- the candidates are not empty once sorted, so the first one is taken
    rw [hnil] at hperm
    obtain rfl := hperm.nil_eq
    rcases hend with rfl | henough
    · rw [hsplit] at hsort
      exact hne hsort.nil_eq.symm
    · exact hfree (Nat.le_zero.mp henough)

theorem enforce_of_no_candidates (config : EvictionConfig) (hnone : input.candidates = []) :
    enforce_disk_cache_limits_internal config input = [] := by
  have hsorted :
      sort_range_candidates input.eviction_algorithm input.now input.candidates = [] := by
    rw [hnone]
    exact (sort_range_candidates_perm _ _ []).eq_nil
  unfold enforce_disk_cache_limits_internal groups_to_evict
  rw [hsorted]
  simp [group_candidates_by_object, group_loop]

theorem limits_of_enforce_ne_nil (h : enforce_disk_cache_limits_internal config input ≠ []) :
    config.max_cache_size_limit ≠ 0 ∧ config.max_cache_size_limit < input.size_before_lock ∧
      input.lock_acquired = true ∧ config.max_cache_size_limit < input.current_size ∧
      config.target_size < input.current_size := by
  unfold enforce_disk_cache_limits_internal at h
  split at h
  · exact absurd rfl h
  · split at h
    · exact absurd rfl h
    · split at h
      · exact absurd rfl h
      · have hfree : ¬ input.current_size - config.target_size = 0 := by
          intro hzero
          rw [groups_to_evict, if_pos hzero] at h
          exact h rfl
        have hlock : input.lock_acquired = true := by simpa using ‹¬ input.lock_acquired = false›
        exact ⟨by omega, by omega, hlock, by omega, by omega⟩

/-- **A pass the cycle starts.** While the size is above the trigger threshold, the pass
chooses enough if and only if there are no candidates, or the size is above the maximum
itself both times it is looked at, the lock is free, and the target lies below it. -/
theorem eviction_cycle_chooses_enough_iff {config : EvictionConfig} {known_size : ℕ}
    {eviction_in_progress cache_manager_available : Bool} {input : PassInput κ}
    {groups : List (κ × List (RangeEvictionCandidate κ))}
    (hstart : eviction_cycle config known_size eviction_in_progress cache_manager_available input =
      some groups)
    (hstill : config.trigger_threshold < input.current_size) :
    ChoosesEnough config input groups ↔
      input.candidates = [] ∨
        (config.max_cache_size_limit ≠ 0 ∧
          config.max_cache_size_limit < input.size_before_lock ∧ input.lock_acquired = true ∧
          config.max_cache_size_limit < input.current_size ∧
          config.target_size < input.current_size) := by
  have hgroups : groups = enforce_disk_cache_limits_internal config input := by
    rw [eviction_cycle] at hstart
    split_ifs at hstart
    exact (Option.some.inj hstart).symm
  rw [hgroups]
  by_cases hnone : input.candidates = []
  · refine iff_of_true ?_ (.inl hnone)
    rw [enforce_of_no_candidates config hnone]
    exact ⟨.inr (by rw [hnone]; exact List.Perm.refl _), fun _ hne => absurd hnone hne⟩
  · constructor
    · intro henough
      exact .inr (limits_of_enforce_ne_nil (henough.2 hstill hnone))
    · rintro (hempty | ⟨hlimit, hbefore, hlock, hcurrent, htarget⟩)
      · exact absurd hempty hnone
      · unfold enforce_disk_cache_limits_internal
        rw [if_neg (by omega), if_neg (by simp [hlock]), if_neg (by omega)]
        exact groups_to_evict_chooses_enough htarget

/-- The defaults: a cache of 1000 bytes, eviction from 95 % down to 80 %. -/
def default_percentages : EvictionConfig :=
  ⟨1000, 95, 1000, 80⟩

/-- A pass that finds the given size, both times, and one candidate of 500 bytes. -/
def one_candidate (size : ℕ) : PassInput Unit where
  size_before_lock := size
  lock_acquired := true
  current_size := size
  candidates := [⟨(), 0, 499, 0, 500, 1⟩]
  eviction_algorithm := .LRU
  now := 0

/-- At 960 bytes a pass is started, and chooses nothing. -/
theorem eviction_pass_below_maximum_is_a_no_op :
    default_percentages.trigger_threshold < (one_candidate 960).current_size ∧
      (one_candidate 960).candidates ≠ [] ∧
      eviction_cycle default_percentages 960 false true (one_candidate 960) = some [] := by
  decide

/-- Above 1000 bytes it chooses what it can. -/
theorem eviction_pass_above_maximum_chooses_enough :
    ∃ groups, eviction_cycle default_percentages 1100 false true (one_candidate 1100) =
      some groups ∧ ChoosesEnough default_percentages (one_candidate 1100) groups := by
  have hstart : eviction_cycle default_percentages 1100 false true (one_candidate 1100) =
      some (enforce_disk_cache_limits_internal default_percentages (one_candidate 1100)) := by
    decide
  exact ⟨_, hstart, (eviction_cycle_chooses_enough_iff hstart (by decide)).mpr (.inr (by decide))⟩

end HybridCache.Eviction
