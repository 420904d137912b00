/-
Admission of hedges (`try_admit_hedge` in `hedged_fetch.rs`).

A caller reads the two counters, compares and then counts its hedge, in separate steps. Two callers
that both read before either counts are both admitted, however small the fraction is. The ratio is
taken in floats, so the cap is kept only up to the accuracy of their division.
-/
import Mathlib.Algebra.Order.Field.Rat
import Mathlib.Order.Interval.Set.Defs
import Mathlib.Tactic.Linarith
import HybridCache.Lib.Transition

namespace HybridCache.HedgedFetch

open Lib

/-- Division of two counts in `f64`, which may come out below the quotient by a factor. -/
structure F64Division where
  div : ℕ → ℕ → ℚ
  accuracy : ℚ
  accuracy_mem : accuracy ∈ Set.Icc 0 1
  le_div : ∀ n d, 0 < d → accuracy * n ≤ div n d * d

inductive CallerPhase where
  | idle
  | counted (fetches : ℕ)
  | comparing (fetches hedges : ℕ)
  | admitted
deriving DecidableEq

structure GovernorState (γ : Type) where
  inflight_fetches : ℕ
  inflight_hedges : ℕ
  callers : γ → CallerPhase

inductive GovernorEvent (γ : Type) where
  | start_fetch
  | drop_fetch
  | load_fetches (caller : γ)
  | load_hedges (caller : γ)
  | judge (caller : γ)
  | drop_hedge (caller : γ)

namespace GovernorState

variable {γ : Type}

def new : GovernorState γ :=
  ⟨0, 0, fun _ => .idle⟩

-- a fraction that the configuration accepts
variable (f64 : F64Division) (max_inflight_fraction : Set.Icc (0 : ℚ) 1)

/-- Whether counters that were read admit a hedge. -/
def admits (fetches hedges : ℕ) : Bool :=
  hedges = 0 || !(max_inflight_fraction < f64.div (hedges + 1) (max fetches 1))

variable [DecidableEq γ]

def set_caller (s : GovernorState γ) (caller : γ) (phase : CallerPhase) : GovernorState γ :=
  { s with callers := Function.update s.callers caller phase }

def step (s : GovernorState γ) : GovernorEvent γ → Option (GovernorState γ)
  | .start_fetch => some { s with inflight_fetches := s.inflight_fetches + 1 }
  | .drop_fetch =>
    if 0 < s.inflight_fetches then some { s with inflight_fetches := s.inflight_fetches - 1 }
    else none
  | .load_fetches caller =>
    match s.callers caller with
    | .idle => some (s.set_caller caller (.counted s.inflight_fetches))
    | _ => none
  | .load_hedges caller =>
    match s.callers caller with
    | .counted fetches => some (s.set_caller caller (.comparing fetches s.inflight_hedges))
    | _ => none
  | .judge caller =>
    match s.callers caller with
    | .comparing fetches hedges =>
      if admits f64 max_inflight_fraction fetches hedges then
        some { s.set_caller caller .admitted with inflight_hedges := s.inflight_hedges + 1 }
      else some (s.set_caller caller .idle)
    | _ => none
  | .drop_hedge caller =>
    match s.callers caller with
    | .admitted =>
      some { s.set_caller caller .idle with inflight_hedges := s.inflight_hedges - 1 }
    | _ => none

/-- At most one hedge, or the fraction of the fetches. -/
def WithinCap (s : GovernorState γ) : Prop :=
  f64.accuracy * s.inflight_hedges ≤ max 1 (max_inflight_fraction.1 * s.inflight_fetches)

/-- When a caller decides there are no more hedges and no fewer fetches than it read, and no fetch
ends beside two or more hedges. -/
def Undisturbed (s : GovernorState γ) : GovernorEvent γ → Prop
  | .judge caller => ∀ fetches hedges, s.callers caller = .comparing fetches hedges →
      fetches ≤ s.inflight_fetches ∧ s.inflight_hedges ≤ hedges
  | .drop_fetch => s.inflight_hedges ≤ 1
  | _ => True

/-- The invariant, with at least one fetch counted as the code does. -/
def Capped (s : GovernorState γ) : Prop :=
  s.inflight_hedges ≤ 1 ∨
    f64.accuracy * s.inflight_hedges ≤ max_inflight_fraction.1 * (max s.inflight_fetches 1 : ℕ)

variable {f64 max_inflight_fraction} {s s' : GovernorState γ} {event : GovernorEvent γ}

omit [DecidableEq γ] in
theorem Capped.withinCap (h : s.Capped f64 max_inflight_fraction) :
    s.WithinCap f64 max_inflight_fraction := by
  obtain ⟨hpos, hone⟩ := f64.accuracy_mem
  rcases h with hfew | hcap
  · refine le_max_of_le_left ?_
    have hfew : (s.inflight_hedges : ℚ) ≤ 1 := by exact_mod_cast hfew
    exact mul_le_one₀ hone s.inflight_hedges.cast_nonneg hfew
  · refine hcap.trans ?_
    rw [Nat.cast_max, Nat.cast_one, mul_max_of_nonneg _ _ max_inflight_fraction.2.1, mul_one,
      max_comm]
    exact max_le_max_right _ max_inflight_fraction.2.2

omit [DecidableEq γ] in
/-- Fewer hedges beside more fetches stay within the cap. -/
theorem Capped.mono (h : s.Capped f64 max_inflight_fraction)
    (hhedges : s'.inflight_hedges ≤ s.inflight_hedges)
    (hfetches : s.inflight_fetches ≤ s'.inflight_fetches) :
    s'.Capped f64 max_inflight_fraction := by
  refine h.imp hhedges.trans fun hcap => ?_
  calc f64.accuracy * s'.inflight_hedges
      ≤ f64.accuracy * s.inflight_hedges :=
        mul_le_mul_of_nonneg_left (by exact_mod_cast hhedges) f64.accuracy_mem.1
    _ ≤ max_inflight_fraction.1 * (max s.inflight_fetches 1 : ℕ) := hcap
    _ ≤ max_inflight_fraction.1 * (max s'.inflight_fetches 1 : ℕ) :=
        mul_le_mul_of_nonneg_left (by exact_mod_cast max_le_max_right 1 hfetches)
          max_inflight_fraction.2.1

omit [DecidableEq γ] in
/-- A state with the counters of an admission that was decided on. -/
theorem capped_of_admits (h : admits f64 max_inflight_fraction s.inflight_fetches
      s.inflight_hedges) :
    ({ s with inflight_hedges := s.inflight_hedges + 1 } : GovernorState γ).Capped f64
      max_inflight_fraction := by
  rw [admits, Bool.or_eq_true, decide_eq_true_eq, Bool.not_eq_true', decide_eq_false_iff_not,
    not_lt] at h
  refine h.imp (fun hzero => by simp [hzero]) fun hratio => ?_
  have hdiv := f64.le_div (s.inflight_hedges + 1) (max s.inflight_fetches 1) (by omega)
  exact hdiv.trans (mul_le_mul_of_nonneg_right hratio (Nat.cast_nonneg _))

theorem capped_step (hs : s.Capped f64 max_inflight_fraction) (hevent : s.Undisturbed event)
    (h : s.step f64 max_inflight_fraction event = some s') :
    s'.Capped f64 max_inflight_fraction := by
  cases event with
  | start_fetch =>
    cases h
    exact hs.mono le_rfl (Nat.le_succ _)
  | drop_fetch =>
    simp only [step] at h
    split_ifs at h
    cases h
    exact .inl hevent
  | load_fetches caller | load_hedges caller =>
    simp only [step] at h
    split at h <;> cases h
    exact hs.mono le_rfl le_rfl
  | judge caller =>
    simp only [step] at h
    split at h
    · rename_i fetches hedges hread
      obtain ⟨hfetches, hhedges⟩ := hevent fetches hedges hread
      split_ifs at h with hadmits
      · cases h
        have hcap := capped_of_admits (s := ⟨fetches, hedges, s.callers⟩) hadmits
        exact hcap.mono (Nat.succ_le_succ hhedges) hfetches
      · cases h
        exact hs.mono le_rfl le_rfl
    · cases h
  | drop_hedge caller =>
    simp only [step] at h
    split at h <;> cases h
    exact hs.mono (Nat.sub_le _ _) le_rfl

end GovernorState

section Samples

open GovernorState GovernorEvent

/-- Division without rounding. -/
def exact_division : F64Division where
  div n d := n / d
  accuracy := 1
  accuracy_mem := ⟨zero_le_one, le_rfl⟩
  le_div n d hd := by
    have hd : (d : ℚ) ≠ 0 := by exact_mod_cast hd.ne'
    rw [one_mul, div_mul_cancel₀ _ hd]

def half : Set.Icc (0 : ℚ) 1 :=
  ⟨1 / 2, by norm_num, by norm_num⟩

/-- Four of five fetches, and one caller after the other. -/
def calls_in_turn : List (GovernorEvent Bool) :=
  [start_fetch, start_fetch, start_fetch, start_fetch, start_fetch, drop_fetch, load_fetches true,
    load_hedges true, judge true, load_fetches false, load_hedges false, judge false]

end Samples

end HybridCache.HedgedFetch
