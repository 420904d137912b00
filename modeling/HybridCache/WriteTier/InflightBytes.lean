/-
The bytes of uploads under way (`write_cache_manager.rs`): one counter that reservations move, and
that the evictions of staged objects move too.

A reservation is released when its handle is dropped, which the commit of an upload ends with as
well; only a staged object's size outlives it, and that size was never in the counter on its own.
`ρ` are the handles.
-/
import HybridCache.Lib.Directory
import HybridCache.Lib.Outcome
import HybridCache.Lib.Transition
import Mathlib

namespace HybridCache.WriteTier

open Lib

/-- `WriteCacheManager`, what `try_reserve` reads, and the handles that have not been dropped. -/
structure WriteCacheManager (ρ : Type) where
  max_object_size : ℕ
  current_size : ℕ
  live : Directory ρ ℕ

variable {ρ : Type}

namespace WriteCacheManager

def new (max_object_size : ℕ) : WriteCacheManager ρ :=
  ⟨max_object_size, 0, .empty⟩

/-- One range of the record an eviction read: its size, and whether its file was there and has
been removed. -/
structure EvictedRange where
  compressed_size : ℕ
  removed : Bool

/-- `total_freed` of `evict_write_cached_object`. -/
def total_freed (ranges : List EvictedRange) : ℕ :=
  ((ranges.filter EvictedRange.removed).map EvictedRange.compressed_size).sum

def release_capacity_internal (m : WriteCacheManager ρ) (compressed_size : ℕ) :
    WriteCacheManager ρ :=
  { m with current_size := m.current_size - compressed_size }

variable [DecidableEq ρ]

/-- `reserve_for_sizing`, with the handle it returns. -/
def reserve_for_sizing (m : WriteCacheManager ρ) (handle : ρ) (size : ℕ) :
    Option (WriteCacheManager ρ) :=
  if m.current_size + size ≤ u64_max then
    some { m with current_size := m.current_size + size, live := m.live.put handle size }
  else none

def try_reserve (m : WriteCacheManager ρ) (handle : ρ) (size : ℕ) : Option (WriteCacheManager ρ) :=
  if size > m.max_object_size then none else m.reserve_for_sizing handle size

/-- `WriteReservation::drop`. -/
def drop_reservation (m : WriteCacheManager ρ) (handle : ρ) : Option (WriteCacheManager ρ) :=
  (m.live.get? handle).map fun size =>
    { m with current_size := m.current_size - size, live := m.live.erase handle }

inductive Event (ρ : Type) where
  | reserve (handle : ρ) (size : ℕ)
  | drop (handle : ρ)
  /-- The sink of an upload is dropped at the end of its commit. -/
  | commit (handle : ρ)
  | evict (ranges : List EvictedRange)

/-- A refused reservation changes nothing; a handle is taken once. -/
def step (m : WriteCacheManager ρ) : Event ρ → Option (WriteCacheManager ρ)
  | .reserve handle size =>
    if (m.live.get? handle).isSome then none else some ((m.try_reserve handle size).getD m)
  | .drop handle | .commit handle => m.drop_reservation handle
  | .evict ranges => some (m.release_capacity_internal (total_freed ranges))

def reserved (m : WriteCacheManager ρ) : ℕ := m.live.total id

/-- An eviction that frees bytes finds none reserved. -/
def EvictsIdle (m : WriteCacheManager ρ) : Event ρ → Prop
  | .evict ranges => total_freed ranges = 0 ∨ m.reserved = 0
  | _ => True

variable {m m' : WriteCacheManager ρ} {handle : ρ}

theorem try_reserve_counts {size : ℕ} (hnew : m.live.get? handle = none)
    (h : m.try_reserve handle size = some m') :
    m'.current_size = m.current_size + size ∧ m'.reserved = m.reserved + size := by
  obtain ⟨-, h⟩ := Option.ite_none_left_eq_some.mp h
  obtain ⟨-, ⟨⟩⟩ := Option.ite_none_right_eq_some.mp h
  have hput := Directory.total_put id m.live handle size
  rw [Directory.measure_of_none id hnew] at hput
  exact ⟨rfl, hput⟩

theorem drop_reservation_counts (h : m.drop_reservation handle = some m') :
    ∃ size, m'.current_size = m.current_size - size ∧ m.reserved = m'.reserved + size := by
  obtain ⟨size, hsize, rfl⟩ := Option.map_eq_some_iff.mp h
  have herase := Directory.total_erase id m.live handle
  rw [Directory.measure_of_get? id hsize] at herase
  exact ⟨size, rfl, herase.symm⟩

theorem step_keeps_inflight {event : Event ρ} (hinv : m.current_size = m.reserved)
    (hidle : m.EvictsIdle event) (h : m.step event = some m') : m'.current_size = m'.reserved := by
  cases event with
  | reserve handle size =>
    obtain ⟨hnew, ⟨⟩⟩ := Option.ite_none_left_eq_some.mp h
    rw [Option.not_isSome_iff_eq_none] at hnew
    cases hr : m.try_reserve handle size with
    | none => exact hinv
    | some m₁ =>
      obtain ⟨hsize, hreserved⟩ := try_reserve_counts hnew hr
      rw [Option.getD_some, hsize, hreserved, hinv]
  | drop handle | commit handle =>
    obtain ⟨size, hsize, hreserved⟩ := drop_reservation_counts h
    omega
  | evict ranges =>
    cases h
    have hfree : m.current_size - total_freed ranges = m.reserved := by
      rcases hidle with hnone | hidle <;> omega
    exact hfree

/-- **The counter is the sum of the live reservations** all along a run exactly if no eviction of
the run frees bytes while some are reserved. -/
theorem inflight_counts_live_iff {max_object_size : ℕ} {events : List (Event ρ)}
    (hrun : run step (new max_object_size) events = some m) :
    (∀ n m₁, run step (new max_object_size) (events.take n) = some m₁ →
      m₁.current_size = m₁.reserved) ↔ Guarded step EvictsIdle (new max_object_size) events := by
  refine run_forall_iff_guarded _ _ (fun _ => id) (fun _ _ _ => step_keeps_inflight) ?_ rfl hrun
  intro m event m' hinv h hP
  cases event with
  | reserve | drop | commit => trivial
  | evict ranges =>
    cases h
    have hfree : m.current_size - total_freed ranges = m.reserved := hP
    have hcases : total_freed ranges = 0 ∨ m.reserved = 0 := by omega
    exact hcases

theorem upload_then_eviction_counts :
    ∃ m, run step (new 1000) [.reserve 0 100, .commit 0, .evict [⟨100, true⟩]] = some m ∧
      ((∀ n m₁, run step (new 1000)
          ([.reserve 0 100, .commit 0, .evict [⟨100, true⟩]].take n) = some m₁ →
          m₁.current_size = m₁.reserved) ↔
        Guarded step EvictsIdle (new 1000) [.reserve 0 100, .commit 0, .evict [⟨100, true⟩]]) :=
  ⟨_, rfl, inflight_counts_live_iff rfl⟩

/-- An eviction of 60 bytes while 100 are reserved. -/
theorem eviction_takes_reserved_bytes :
    ∃ m, run step (new 1000) [.reserve 0 100, .evict [⟨60, true⟩]] = some m ∧
      m.current_size = 40 ∧ m.reserved = 100 :=
  ⟨_, rfl, rfl, rfl⟩

end WriteCacheManager

end HybridCache.WriteTier
