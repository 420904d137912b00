/-
`SizeAccumulator` (`journal_consolidator.rs`): one instance's unflushed size changes, and the set
of range ids it has credited. A debit made elsewhere does not reach that set.
-/
import Mathlib

namespace HybridCache.SizeTracking

/-- `(object_version_hash, range_start, range_end)`. -/
abbrev RangeId := ℕ × ℕ × ℕ

structure SizeAccumulator where
  delta : ℤ
  write_cache_delta : ℤ
  flush_sequence : ℕ
  recent_ranges : Finset RangeId
deriving DecidableEq

namespace SizeAccumulator

def new : SizeAccumulator :=
  ⟨0, 0, 0, ∅⟩

def add (a : SizeAccumulator) (compressed_size : ℕ) : SizeAccumulator :=
  { a with delta := a.delta + compressed_size }

def subtract (a : SizeAccumulator) (compressed_size : ℕ) : SizeAccumulator :=
  { a with delta := a.delta - compressed_size }

def add_write_cache (a : SizeAccumulator) (compressed_size : ℕ) : SizeAccumulator :=
  { a with write_cache_delta := a.write_cache_delta + compressed_size }

def subtract_write_cache (a : SizeAccumulator) (compressed_size : ℕ) : SizeAccumulator :=
  { a with write_cache_delta := a.write_cache_delta - compressed_size }

/-- `SizeAccumulator::add_range_id`: credits only an id it has not recorded. -/
def add_range_id (a : SizeAccumulator) (range_id : RangeId) (compressed_size : ℕ) :
    SizeAccumulator × Bool :=
  if range_id ∈ a.recent_ranges then
    (a, false)
  else
    ({ a with recent_ranges := insert range_id a.recent_ranges }.add compressed_size, true)

/-- `SizeAccumulator::subtract_range_id`: debits whether or not the id is recorded. -/
def subtract_range_id (a : SizeAccumulator) (range_id : RangeId) (compressed_size : ℕ) :
    SizeAccumulator × Bool :=
  ({ a with recent_ranges := a.recent_ranges.erase range_id }.subtract compressed_size,
    decide (range_id ∈ a.recent_ranges))

def reset (a : SizeAccumulator) : SizeAccumulator :=
  { a with delta := 0, write_cache_delta := 0, recent_ranges := ∅ }

variable {a : SizeAccumulator} {n : ℕ} {range_id : RangeId}

theorem add_range_id_delta_of_notMem (h : range_id ∉ a.recent_ranges) :
    (a.add_range_id range_id n).1.delta = a.delta + n := by
  simp [add_range_id, h, add]

@[simp] theorem subtract_range_id_delta :
    (a.subtract_range_id range_id n).1.delta = a.delta - n := rfl

theorem delta_foldl_debit {α : Type} {debit : SizeAccumulator → α → SizeAccumulator}
    {size : α → ℕ} (hdebit : ∀ a x, (debit a x).delta = a.delta - size x) (xs : List α)
    (a : SizeAccumulator) :
    (xs.foldl debit a).delta = a.delta - (xs.map size).sum := by
  induction xs generalizing a with
  | nil => simp
  | cons x rest ih =>
    rw [List.foldl_cons, ih, hdebit, List.map_cons, List.sum_cons]
    omega

end SizeAccumulator

inductive AccOp where
  | add (compressed_size : ℕ)
  | subtract (compressed_size : ℕ)
  | add_write_cache (compressed_size : ℕ)
  | subtract_write_cache (compressed_size : ℕ)
deriving DecidableEq, Repr

namespace AccOp

def apply : AccOp → SizeAccumulator → SizeAccumulator
  | add n, a => a.add n
  | subtract n, a => a.subtract n
  | add_write_cache n, a => a.add_write_cache n
  | subtract_write_cache n, a => a.subtract_write_cache n

def of_amount (amount : ℤ) : AccOp :=
  if amount ≥ 0 then add amount.toNat else subtract (-amount).toNat

def amount : AccOp → ℤ
  | add n => n
  | subtract n => -n
  | _ => 0

def write_cache_amount : AccOp → ℤ
  | add_write_cache n => n
  | subtract_write_cache n => -n
  | _ => 0

@[simp] theorem amount_of_amount (amount : ℤ) : (of_amount amount).amount = amount := by
  unfold of_amount
  split
  · rename_i h
    exact Int.toNat_of_nonneg h
  · simp only [AccOp.amount, Int.toNat_of_nonneg (show 0 ≤ -amount by omega), Int.neg_neg]

variable {a : SizeAccumulator} {op : AccOp}

theorem apply_delta : (op.apply a).delta = a.delta + op.amount := by
  cases op <;> simp [apply, amount, SizeAccumulator.add, SizeAccumulator.subtract,
    SizeAccumulator.add_write_cache, SizeAccumulator.subtract_write_cache, Int.sub_eq_add_neg]

theorem apply_write_cache_delta :
    (op.apply a).write_cache_delta = a.write_cache_delta + op.write_cache_amount := by
  cases op <;> simp [apply, write_cache_amount, SizeAccumulator.add, SizeAccumulator.subtract,
    SizeAccumulator.add_write_cache, SizeAccumulator.subtract_write_cache, Int.sub_eq_add_neg]

theorem apply_flush_sequence : (op.apply a).flush_sequence = a.flush_sequence := by
  cases op <;> rfl

end AccOp

end HybridCache.SizeTracking
