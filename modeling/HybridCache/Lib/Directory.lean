/-
A directory: finitely many files, at most one under each name.

The entries carry the proof that no name occurs twice, so a directory with two
files of one name cannot be built. `put` replaces, as a rename onto an existing
name does. What proofs use of a directory is one sum, `total`, of any measure
over its files: each operation changes it by what it adds and removes.
-/
import Mathlib.Algebra.BigOperators.Group.List.Basic
import HybridCache.Lib.Keyed

namespace HybridCache.Lib

open List

structure Directory (κ ν : Type) where
  entries : List (κ × ν)
  nodup : (entries.map Prod.fst).Nodup

namespace Directory

variable {κ ν : Type}

def empty : Directory κ ν :=
  ⟨[], nodup_nil⟩

variable [DecidableEq κ]

def get? (d : Directory κ ν) (k : κ) : Option ν :=
  (d.entries.find? fun e => e.1 = k).map Prod.snd

def erase (d : Directory κ ν) (k : κ) : Directory κ ν where
  entries := d.entries.filter fun e => e.1 ≠ k
  nodup := (filter_sublist.map _).nodup d.nodup

def put (d : Directory κ ν) (k : κ) (v : ν) : Directory κ ν where
  entries := (k, v) :: (d.erase k).entries
  nodup := by
    rw [map_cons, nodup_cons]
    refine ⟨fun hmem => ?_, (d.erase k).nodup⟩
    obtain ⟨e, he, hk⟩ := List.mem_map.mp hmem
    have hne := of_mem_filter he
    simp [hk] at hne

def total {M : Type} [AddCommMonoid M] (w : ν → M) (d : Directory κ ν) : M :=
  (d.entries.map fun e => w e.2).sum

def measure {M : Type} [AddCommMonoid M] (w : ν → M) (d : Directory κ ν) (k : κ) : M :=
  (d.get? k).elim 0 w

variable {d : Directory κ ν} {k : κ} {v : ν} {k' : κ}

theorem get?_of_mem (h : (k, v) ∈ d.entries) : d.get? k = some v :=
  congrArg (Option.map Prod.snd) (lookup_of_mem d.nodup h)

theorem mem_of_get? (h : d.get? k = some v) : (k, v) ∈ d.entries := by
  obtain ⟨e, he, rfl⟩ := Option.map_eq_some_iff.mp h
  have hk := List.find?_some he
  rw [← of_decide_eq_true hk]
  exact List.mem_of_find?_eq_some he

theorem get?_eq_none : d.get? k = none ↔ ∀ e ∈ d.entries, e.1 ≠ k := by
  simp [get?, List.find?_eq_none]

@[simp] theorem get?_empty : (empty : Directory κ ν).get? k = none := rfl

@[simp] theorem get?_put_self : (d.put k v).get? k = some v := by
  simp [get?, put]

@[simp] theorem get?_erase_self : (d.erase k).get? k = none := by
  rw [get?_eq_none]
  intro e he
  simpa using of_mem_filter he

theorem get?_erase_ne (d : Directory κ ν) {k : κ} (h : k' ≠ k) :
    (d.erase k).get? k' = d.get? k' := by
  refine congrArg (Option.map Prod.snd) (lookup_filter_of_key fun e _ he => ?_)
  exact decide_eq_true (he ▸ h)

theorem get?_put_ne {k : κ} (v : ν) (h : k' ≠ k) : (d.put k v).get? k' = d.get? k' := by
  rw [← get?_erase_ne d h]
  simp only [get?, put]
  rw [List.find?_cons_of_neg (by simpa using Ne.symm h)]

theorem get?_erase : (d.erase k).get? k' = if k' = k then none else d.get? k' := by
  by_cases h : k' = k
  · rw [if_pos h, h, get?_erase_self]
  · rw [if_neg h, get?_erase_ne d h]

theorem erase_of_none (h : d.get? k = none) : d.erase k = d := by
  obtain ⟨entries, nodup⟩ := d
  rw [get?_eq_none] at h
  simpa only [erase, mk.injEq, filter_eq_self, decide_eq_true_eq] using h

theorem get?_foldl_erase (ks : List κ) :
    (ks.foldl erase d).get? k' = if k' ∈ ks then none else d.get? k' := by
  induction ks generalizing d with
  | nil => rw [if_neg not_mem_nil, foldl_nil]
  | cons k ks ih =>
    rw [foldl_cons, ih, get?_erase]
    by_cases hks : k' ∈ ks
    · rw [if_pos hks, if_pos (mem_cons_of_mem _ hks)]
    · rw [if_neg hks]
      simp only [mem_cons, hks, or_false]

/-! ## A part of the names -/

section Filter

variable (p : κ → Bool)

omit [DecidableEq κ] in
/-- The files whose names have a property. -/
def filter (d : Directory κ ν) : Directory κ ν where
  entries := d.entries.filter fun e => p e.1
  nodup := (filter_sublist.map _).nodup d.nodup

theorem filter_erase (hk : p k = false) : (d.erase k).filter p = d.filter p := by
  simp only [filter, erase, filter_filter, mk.injEq]
  refine filter_congr fun e _ => ?_
  by_cases he : e.1 = k <;> simp [he, hk]

theorem filter_put (hk : p k = false) (v : ν) : (d.put k v).filter p = d.filter p := by
  rw [← @filter_erase _ _ _ d _ p hk]
  simp [filter, put, hk]

end Filter

/-! ## The names -/

section Names

def keys (d : Directory κ ν) : List κ :=
  d.entries.map Prod.fst

variable {d : Directory κ ν} {k : κ}

theorem mem_keys_iff : k ∈ d.keys ↔ (d.get? k).isSome := by
  rw [keys, List.mem_map, get?, Option.isSome_map, List.find?_isSome]
  simp

theorem keys_erase [BEq κ] [LawfulBEq κ] : (d.erase k).keys = d.keys.erase k := by
  rw [keys, keys, d.nodup.erase_eq_filter, List.filter_map]
  refine congrArg _ (filter_congr fun e _ => ?_)
  by_cases he : e.1 = k <;> simp [he]

theorem keys_put_of_none (h : d.get? k = none) (v : ν) : (d.put k v).keys = k :: d.keys := by
  have hmem : k ∉ d.keys := by
    rw [mem_keys_iff, h]
    exact Bool.false_ne_true
  rw [show (d.put k v).keys = k :: (d.erase k).keys from rfl, keys_erase, erase_of_not_mem hmem]

theorem keys_put_perm (h : (d.get? k).isSome) (v : ν) : (d.put k v).keys.Perm d.keys := by
  rw [show (d.put k v).keys = k :: (d.erase k).keys from rfl, keys_erase]
  exact (perm_cons_erase (mem_keys_iff.mpr h)).symm

theorem length_erase_lt {v : ν} (h : d.get? k = some v) :
    (d.erase k).entries.length < d.entries.length := by
  have hmem : k ∈ d.keys := mem_keys_iff.mpr (by simp [h])
  have hkeys : (d.erase k).keys.length + 1 = d.keys.length := by
    rw [keys_erase, length_erase_of_mem hmem]
    exact Nat.sub_add_cancel (length_pos_of_mem hmem)
  simp only [keys, length_map] at hkeys
  omega

end Names

section Total

variable {M : Type} [AddCommMonoid M] (w : ν → M)

omit [DecidableEq κ] in
@[simp] theorem total_empty : total w (empty : Directory κ ν) = 0 := rfl

/-- Erasing takes away what the name had; -/
theorem total_erase (d : Directory κ ν) (k : κ) :
    (d.erase k).total w + d.measure w k = d.total w := by
  obtain ⟨entries, hnd⟩ := d
  simp only [total, erase, measure, get?]
  induction entries with
  | nil => simp
  | cons e rest ih =>
    obtain ⟨hne, hnd⟩ := nodup_map_key_cons hnd
    by_cases hk : e.1 = k
    · -- the name does not occur again, so nothing else is removed
      have hrest : rest.filter (fun e => decide (e.1 ≠ k)) = rest :=
        filter_eq_self.mpr fun e' he' => decide_eq_true (hk ▸ hne e' he')
      rw [filter_cons_of_neg (by simp [hk]), hrest, List.find?_cons_of_pos (by simp [hk])]
      simp [add_comm]
    · rw [filter_cons_of_pos (by simp [hk]), List.find?_cons_of_neg (by simp [hk])]
      have ih := ih hnd
      simp only [map_cons, sum_cons, add_assoc, ih]

/-- putting also adds the new file. -/
theorem total_put (d : Directory κ ν) (k : κ) (v : ν) :
    (d.put k v).total w + d.measure w k = d.total w + w v := by
  have herase := total_erase w d k
  have hput : (d.put k v).total w = w v + (d.erase k).total w := rfl
  rw [hput, add_assoc, herase, add_comm]

theorem measure_of_get? {d : Directory κ ν} {k : κ} {v : ν} (h : d.get? k = some v) :
    d.measure w k = w v := by
  simp [measure, h]

theorem measure_of_none {d : Directory κ ν} {k : κ} (h : d.get? k = none) : d.measure w k = 0 := by
  simp [measure, h]

/-- One name taken out of a part. -/
theorem total_filter_erase (d : Directory κ ν) {p : κ → Bool} {k : κ} (hk : p k = true) :
    (d.filter fun k' => p k' && k' ≠ k).total w + d.measure w k = (d.filter p).total w := by
  have herase := total_erase w (d.filter p) k
  have hmeasure : (d.filter p).measure w k = d.measure w k := by
    have hname : ∀ e : κ × ν, (p e.1 = true ∧ e.1 = k) ↔ e.1 = k :=
      fun e => and_iff_right_of_imp fun he => he ▸ hk
    simp only [measure, get?, filter, find?_filter, decide_eq_true_eq, hname]
  rw [← herase, hmeasure]
  simp only [total, erase, filter, filter_filter, Bool.and_comm]

/-- The total, name by name. -/
theorem total_eq_sum_measure : d.total w = ((d.entries.map Prod.fst).map (d.measure w)).sum := by
  rw [total, List.map_map]
  refine congrArg List.sum (map_congr_left fun e he => ?_)
  exact (measure_of_get? w (get?_of_mem he)).symm

end Total

end Directory

end HybridCache.Lib
