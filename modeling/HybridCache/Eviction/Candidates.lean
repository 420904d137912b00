/-
Choosing what to evict (`cache.rs`): every cached range is a candidate, the
candidates are sorted by the eviction algorithm, and those chosen are grouped by
object.

`κ` are cache keys. Times are in nanoseconds.
-/
import HybridCache.Lib.GroupBy
import HybridCache.Lib.SortByKey
import Mathlib

namespace HybridCache.Eviction

open Lib List

/-- `RangeEvictionCandidate`, the fields the choice depends on. -/
structure RangeEvictionCandidate (κ : Type) where
  cache_key : κ
  range_start : ℕ
  range_end : ℕ
  last_accessed : ℕ
  size : ℕ
  access_count : ℕ
deriving DecidableEq, Repr

inductive CacheEvictionAlgorithm where
  | LRU
  | TinyLFU
deriving DecidableEq, Repr

def TINYLFU_HALF_LIFE_SECS : ℕ := 3600

def decayed_frequency (access_count idle_secs : ℕ) : ℕ :=
  access_count >>> min (idle_secs / TINYLFU_HALF_LIFE_SECS) 63

variable {κ : Type}

/-- `sort_range_candidates`. A last access in the future counts as no idle time. -/
def sort_range_candidates (algorithm : CacheEvictionAlgorithm) (now : ℕ)
    (candidates : List (RangeEvictionCandidate κ)) : List (RangeEvictionCandidate κ) :=
  match algorithm with
  | .LRU => sort_by_key (fun c => c.last_accessed) candidates
  | .TinyLFU =>
    sort_by_key (fun c => toLex
      (decayed_frequency c.access_count ((now - c.last_accessed) / 10 ^ 9), c.last_accessed))
      candidates

theorem sort_range_candidates_perm (algorithm : CacheEvictionAlgorithm) (now : ℕ)
    (candidates : List (RangeEvictionCandidate κ)) :
    (sort_range_candidates algorithm now candidates).Perm candidates := by
  cases algorithm with
  | LRU | TinyLFU => exact sort_by_key_perm _ _

/-- What the sort is by: lower goes first. -/
def priority (algorithm : CacheEvictionAlgorithm) (now : ℕ) (c : RangeEvictionCandidate κ) :
    ℕ ×ₗ ℕ :=
  match algorithm with
  | .LRU => toLex (c.last_accessed, 0)
  | .TinyLFU => toLex
      (decayed_frequency c.access_count ((now - c.last_accessed) / 10 ^ 9), c.last_accessed)

theorem sort_range_candidates_ascending (algorithm : CacheEvictionAlgorithm) (now : ℕ)
    (candidates : List (RangeEvictionCandidate κ)) :
    (sort_range_candidates algorithm now candidates).Pairwise fun a b =>
      priority algorithm now a ≤ priority algorithm now b := by
  cases algorithm with
  | LRU =>
    refine (sort_by_key_ascending _ candidates).imp fun h => ?_
    exact Prod.Lex.toLex_le_toLex'.mpr ⟨h, fun _ => le_rfl⟩
  | TinyLFU => exact sort_by_key_ascending _ candidates

def chosen (groups : List (κ × List (RangeEvictionCandidate κ))) :
    List (RangeEvictionCandidate κ) :=
  groups.flatMap Prod.snd

def bytes (candidates : List (RangeEvictionCandidate κ)) : ℕ :=
  (candidates.map RangeEvictionCandidate.size).sum

theorem bytes_cons (c : RangeEvictionCandidate κ) (candidates : List (RangeEvictionCandidate κ)) :
    bytes (c :: candidates) = c.size + bytes candidates := by
  rw [bytes, map_cons, sum_cons, bytes]

variable [DecidableEq κ]

/-- The loop of `group_candidates_by_object`. The sum is a `u64`: it is below the target where a
candidate is added, so it does not overflow if the target and the largest size together do not. -/
def group_loop (target_bytes : ℕ) : List (RangeEvictionCandidate κ) → ℕ →
    List (κ × List (RangeEvictionCandidate κ)) → List (κ × List (RangeEvictionCandidate κ))
  | [], _, grouped => grouped
  | candidate :: rest, accumulated_bytes, grouped =>
    if accumulated_bytes ≥ target_bytes then grouped
    else group_loop target_bytes rest (accumulated_bytes + candidate.size)
      (add_to_group RangeEvictionCandidate.cache_key grouped candidate)

def group_candidates_by_object (candidates : List (RangeEvictionCandidate κ)) (target_bytes : ℕ) :
    List (κ × List (RangeEvictionCandidate κ)) :=
  group_loop target_bytes candidates 0 []

/-- The loop takes candidates from the front, and every shorter front is below the target. -/
theorem group_loop_spec (target_bytes : ℕ) (candidates : List (RangeEvictionCandidate κ))
    (accumulated_bytes : ℕ) (grouped : List (κ × List (RangeEvictionCandidate κ))) :
    ∃ taken rest, candidates = taken ++ rest ∧
      (chosen (group_loop target_bytes candidates accumulated_bytes grouped)).Perm
        (chosen grouped ++ taken) ∧
      (rest = [] ∨ target_bytes ≤ accumulated_bytes + bytes taken) ∧
      ∀ front more, taken = front ++ more → more ≠ [] →
        accumulated_bytes + bytes front < target_bytes := by
  induction candidates generalizing accumulated_bytes grouped with
  | nil =>
    refine ⟨[], [], rfl, ?_, .inl rfl, fun _ _ h hmore => ?_⟩
    · rw [group_loop, append_nil]
    · exact absurd (append_eq_nil_iff.mp h.symm).2 hmore
  | cons c candidates ih =>
    rw [group_loop]
    split_ifs with hstop
    · refine ⟨[], c :: candidates, rfl, ?_, .inr ?_, fun _ _ h hmore => ?_⟩
      · rw [append_nil]
      · exact hstop.le.trans (Nat.le_add_right _ _)
      · exact absurd (append_eq_nil_iff.mp h.symm).2 hmore
    · obtain ⟨taken, rest, hsplit, hperm, hend, hshort⟩ :=
        ih (accumulated_bytes + c.size)
          (add_to_group RangeEvictionCandidate.cache_key grouped c)
      refine ⟨c :: taken, rest, by rw [hsplit, cons_append], ?_, ?_, fun front more h hmore => ?_⟩
      · refine hperm.trans ?_
        have hadd : (chosen (add_to_group RangeEvictionCandidate.cache_key grouped c)).Perm
            (chosen grouped ++ [c]) := members_add_to_group
        refine (hadd.append_right taken).trans ?_
        rw [append_assoc, singleton_append]
      · rw [bytes_cons, ← Nat.add_assoc]
        exact hend
      · rcases cons_eq_append_iff.mp h with ⟨rfl, -⟩ | ⟨front, rfl, htaken⟩
        · exact Nat.lt_of_not_le hstop
        · rw [bytes_cons, ← Nat.add_assoc]
          exact hshort front more htaken hmore

/-- **What is chosen**: candidates from the front, until they make up the target or there
are no more. -/
theorem group_candidates_by_object_spec (candidates : List (RangeEvictionCandidate κ))
    (target_bytes : ℕ) :
    ∃ taken rest, candidates = taken ++ rest ∧
      (chosen (group_candidates_by_object candidates target_bytes)).Perm taken ∧
      (rest = [] ∨ target_bytes ≤ bytes taken) ∧
      ∀ front more, taken = front ++ more → more ≠ [] → bytes front < target_bytes := by
  have h := group_loop_spec target_bytes candidates 0 []
  simpa [chosen, group_candidates_by_object] using h

/-- **The shortest front of the priority order that makes up the target**, or everything;
no range left out ranks before one that is chosen. -/
theorem shortest_front_is_chosen (algorithm : CacheEvictionAlgorithm) (now target_bytes : ℕ)
    (candidates : List (RangeEvictionCandidate κ)) :
    ∃ taken rest, sort_range_candidates algorithm now candidates = taken ++ rest ∧
      (taken ++ rest).Perm candidates ∧
      (taken ++ rest).Pairwise (fun a b => priority algorithm now a ≤ priority algorithm now b) ∧
      (chosen (group_candidates_by_object (sort_range_candidates algorithm now candidates)
        target_bytes)).Perm taken ∧
      (rest = [] ∨ target_bytes ≤ bytes taken) ∧
      (∀ front more, taken = front ++ more → more ≠ [] → bytes front < target_bytes) ∧
      ∀ a ∈ taken, ∀ b ∈ rest, priority algorithm now a ≤ priority algorithm now b := by
  obtain ⟨taken, rest, hsplit, hperm, hend, hshort⟩ :=
    group_candidates_by_object_spec (sort_range_candidates algorithm now candidates) target_bytes
  have hsorted := sort_range_candidates_ascending algorithm now candidates
  rw [hsplit] at hsorted
  refine ⟨taken, rest, hsplit, ?_, hsorted, hperm, hend, hshort, (pairwise_append.mp hsorted).2.2⟩
  rw [← hsplit]
  exact sort_range_candidates_perm algorithm now candidates

end HybridCache.Eviction
