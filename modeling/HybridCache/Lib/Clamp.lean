/-
A running total that is cut off at zero.

The total exceeds the plain sum by what was dropped in all, and that is the deepest point the plain
running sum reaches below zero (`clamped_eq_add_dip`).
-/
import Mathlib

namespace HybridCache.Lib

open List

/-- Add the deltas in order, cutting the total off at zero. -/
def clamped (x : ℤ) (deltas : List ℤ) : ℤ :=
  deltas.foldl (fun total d => max 0 (total + d)) x

/-- How far below zero the running sum from `x` goes at its deepest. -/
def dip (x : ℤ) : List ℤ → ℤ
  | [] => max 0 (-x)
  | d :: rest => max (max 0 (-x)) (dip (x + d) rest)

variable {x : ℤ} {deltas : List ℤ}

@[simp] theorem clamped_nil : clamped x [] = x := rfl

theorem clamped_append (d : ℤ) : clamped x (deltas ++ [d]) = max 0 (clamped x deltas + d) := by
  simp only [clamped, foldl_append, foldl_cons, foldl_nil]

theorem dip_nonneg (x : ℤ) (deltas : List ℤ) : 0 ≤ dip x deltas := by
  cases deltas with
  | nil => exact le_max_left _ _
  | cons d rest => exact (le_max_left _ _).trans (le_max_left _ _)

/-- Starting lower by `c`, the running sum dips deeper by at most `c`; once it is
below zero at the start, by exactly that. -/
theorem max_dip_sub (x : ℤ) (deltas : List ℤ) {c : ℤ} (hc : 0 ≤ c) :
    max c (dip (x - c) deltas) = c + dip x deltas := by
  induction deltas generalizing x with
  | nil =>
    simp only [dip]
    omega
  | cons d rest ih =>
    have hstep := ih (x + d)
    simp only [dip]
    rw [show x - c + d = x + d - c by omega]
    omega

/-- **What clamping adds.** The clamped total is the plain sum plus the deepest dip
of the running sum below zero. -/
theorem clamped_eq_add_dip (hx : 0 ≤ x) (deltas : List ℤ) :
    clamped x deltas = x + deltas.sum + dip x deltas := by
  induction deltas generalizing x with
  | nil => simp [dip, hx]
  | cons d rest ih =>
    have hunfold : clamped x (d :: rest) = clamped (max 0 (x + d)) rest := rfl
    rw [hunfold, ih (le_max_left _ _), sum_cons, dip]
    have hnonneg := dip_nonneg (x + d) rest
    by_cases hneg : 0 ≤ x + d
    · rw [max_eq_right hneg]
      omega
    · -- the total is reset to zero, which lifts all that follows by what was cut off
      have hlift := max_dip_sub 0 rest (c := -(x + d)) (by omega)
      rw [show (0 : ℤ) - -(x + d) = x + d by omega] at hlift
      have hdeep : -(x + d) ≤ dip (x + d) rest := by
        cases rest with
        | nil => exact le_max_right _ _
        | cons e rest => exact (le_max_right _ _).trans (le_max_left _ _)
      rw [max_eq_left (by omega : x + d ≤ 0)]
      omega

theorem dip_eq_zero_iff : dip x deltas = 0 ↔ ∀ n, 0 ≤ x + (deltas.take n).sum := by
  induction deltas generalizing x with
  | nil =>
    simp only [dip, take_nil, sum_nil]
    constructor
    · intro h _
      omega
    · intro h
      have := h 0
      omega
  | cons d rest ih =>
    have hnonneg := dip_nonneg (x + d) rest
    have hsplit : dip x (d :: rest) = 0 ↔ 0 ≤ x ∧ dip (x + d) rest = 0 := by
      simp only [dip]
      omega
    rw [hsplit, ih]
    constructor
    · rintro ⟨hx, hrest⟩ n
      cases n with
      | zero => simpa using hx
      | succ n =>
        have := hrest n
        rw [take_succ_cons, sum_cons]
        omega
    · intro h
      refine ⟨by simpa using h 0, fun n => ?_⟩
      have := h (n + 1)
      rw [take_succ_cons, sum_cons] at this
      omega

end HybridCache.Lib
