/-
The race between a fetch and its hedge (`race_first_byte` in `hedged_fetch.rs`).

After a delay the hedge claims a place of the budget and asks the governor; if there is none, or
the governor refuses, which gives the place back, the hedge is done without a result. A response of
either arm ends the race at once, a failure only together with the other's. The races `ι` share the
budget and the metrics.
-/
import Mathlib.Algebra.Order.BigOperators.Group.Finset
import HybridCache.Lib.Transition

namespace HybridCache.HedgedFetch

open Lib

/-! ## One race -/

inductive RaceOutcome (ρ : Type) where
  | Winner (response : ρ)
  | AllTimedOut
  | Error (error : String)

inductive ArmResult (ρ : Type) where
  | Response (response : ρ)
  | TimedOut
  | TransportError (error : String)

/-- Where the hedge is: before its trigger, between the claim and the governor, sent, or done. -/
inductive HedgePhase where
  | sleeping
  | claimed
  | issued
  | done
deriving DecidableEq

structure Race (ρ : Type) where
  original_done : Bool
  hedge : HedgePhase
  last_error : Option String
  all_timed_out : Bool
  outcome : Option (RaceOutcome ρ)

namespace Race

variable {ρ : Type}

def start : Race ρ :=
  ⟨false, .sleeping, none, true, none⟩

def settle (r : Race ρ) : Race ρ :=
  if r.original_done = true ∧ r.hedge = .done then
    { r with outcome := some (if r.all_timed_out then .AllTimedOut
        else .Error (r.last_error.getD "Both hedge arms failed without a status")) }
  else r

def arm (r : Race ρ) : ArmResult ρ → Race ρ
  | .Response response => { r with outcome := some (.Winner response) }
  | .TimedOut => r.settle
  | .TransportError error => settle { r with all_timed_out := false, last_error := some error }

/-- The race ends without a response only when both arms are done, and not during a claim. -/
structure Sound (r : Race ρ) : Prop where
  ended : ∀ outcome ∈ r.outcome, (∃ response, outcome = .Winner response) ∨
    r.original_done = true ∧ r.hedge = .done
  open_claim : r.hedge = .claimed → r.outcome = none

variable {r : Race ρ}

theorem sound_of_open (h : r.outcome = none) : r.Sound := by
  refine ⟨fun outcome hmem => ?_, fun _ => h⟩
  rw [h] at hmem
  cases hmem

theorem sound_settle (h : r.outcome = none) : r.settle.Sound := by
  unfold settle
  by_cases hdone : r.original_done = true ∧ r.hedge = .done
  · rw [if_pos hdone]
    exact ⟨fun _ _ => .inr hdone, fun hclaimed => nomatch hclaimed.symm.trans hdone.2⟩
  · rw [if_neg hdone]
    exact sound_of_open h

theorem sound_arm (r : Race ρ) (h : r.outcome = none) (hclaim : r.hedge ≠ .claimed)
    (result : ArmResult ρ) : (r.arm result).Sound := by
  cases result with
  | Response response =>
    refine ⟨fun _ hmem => .inl ⟨response, ?_⟩, fun hclaimed => absurd hclaimed hclaim⟩
    exact (Option.some.inj hmem).symm
  | TimedOut | TransportError _ => exact sound_settle h

theorem hedge_settle : r.settle.hedge = r.hedge := by
  unfold settle
  split_ifs <;> rfl

theorem hedge_arm (result : ArmResult ρ) : (r.arm result).hedge = r.hedge := by
  cases result with
  | Response response => rfl
  | TimedOut | TransportError _ => exact hedge_settle

end Race

/-! ## All races, and their budget -/

/-- The races, what is left of the budget, and the metrics. -/
structure Races (ι ρ : Type) where
  race : ι → Race ρ
  hedge_budget : ℕ
  issued : ℕ
  won : ℕ
  suppressed : ℕ

inductive RaceEvent (ι ρ : Type) where
  | original (i : ι) (result : ArmResult ρ)
  | trigger (i : ι)
  | govern (i : ι) (admitted : Bool)
  | hedge (i : ι) (result : ArmResult ρ)

def RaceEvent.Responds {ι ρ : Type} (i : ι) : RaceEvent ι ρ → Prop
  | .original j (.Response _) => j = i
  | .hedge j (.Response _) => j = i
  | _ => False

namespace Races

variable {ι ρ : Type}

theorem responds_arm {event : RaceEvent ι ρ} {i j : ι} {r : Race ρ} {result : ArmResult ρ}
    (hevent : event = .original i result ∨ event = .hedge i result) (h : event.Responds j) :
    j = i ∧ ∃ response, (Race.arm r result).outcome = some (.Winner response) := by
  rcases hevent with rfl | rfl <;> cases result with
  | Response response => exact ⟨h.symm, response, rfl⟩
  | TimedOut | TransportError _ => exact h.elim

def start (budget : ℕ) : Races ι ρ :=
  ⟨fun _ => .start, budget, 0, 0, 0⟩

variable [DecidableEq ι]

def set (s : Races ι ρ) (i : ι) (r : Race ρ) : Races ι ρ :=
  { s with race := Function.update s.race i r }

def suppress (s : Races ι ρ) (i : ι) : Races ι ρ :=
  { s.set i (Race.settle { s.race i with hedge := .done }) with suppressed := s.suppressed + 1 }

def step (s : Races ι ρ) : RaceEvent ι ρ → Option (Races ι ρ)
  | .original i result =>
    -- the claim and the governor's answer are in one poll of the race
    if (s.race i).outcome.isNone ∧ (s.race i).original_done = false ∧
        (s.race i).hedge ≠ .claimed then
      some (s.set i (Race.arm { s.race i with original_done := true } result))
    else none
  | .trigger i =>
    if (s.race i).outcome.isNone ∧ (s.race i).hedge = .sleeping then
      if 0 < s.hedge_budget then
        some { s.set i { s.race i with hedge := .claimed } with hedge_budget := s.hedge_budget - 1 }
      else some (s.suppress i)
    else none
  | .govern i admitted =>
    if (s.race i).hedge = .claimed then
      if admitted then
        some { s.set i { s.race i with hedge := .issued } with issued := s.issued + 1 }
      else some { s.suppress i with hedge_budget := s.hedge_budget + 1 }
    else none
  | .hedge i result =>
    if (s.race i).outcome.isNone ∧ (s.race i).hedge = .issued then
      some { s.set i (Race.arm { s.race i with hedge := .done } result) with
        won := match result with
          | .Response _ => s.won + 1
          | _ => s.won }
    else none

def claim (r : Race ρ) : ℤ :=
  if r.hedge = .claimed then 1 else 0

def placed [Fintype ι] (s : Races ι ρ) : ℤ :=
  s.issued + s.hedge_budget + ∑ i, claim (s.race i)

variable {s s' : Races ι ρ} {event : RaceEvent ι ρ}

/-! ## What a step does -/

/-- **Inversion.** One race is changed, to a sound one. -/
theorem step_cases (hs : ∀ i, (s.race i).Sound) (h : s.step event = some s') :
    ∃ i r, s'.race = Function.update s.race i r ∧ r.Sound ∧ (s.race i).outcome = none ∧
      (∀ j, event.Responds j → j = i ∧ ∃ response, r.outcome = some (.Winner response)) ∧
      (s'.issued + s'.hedge_budget : ℤ) + claim r =
        s.issued + s.hedge_budget + claim (s.race i) := by
  cases event with
  | original i result =>
    simp only [step] at h
    split_ifs at h with hopen
    cases h
    have hnone := Option.isNone_iff_eq_none.mp hopen.1
    refine ⟨i, _, rfl, ?_, hnone, ?_, ?_⟩
    · exact Race.sound_arm { s.race i with original_done := true } hnone hopen.2.2 result
    · exact fun j => responds_arm (.inl rfl)
    · rw [claim, Race.hedge_arm]
      rfl
  | trigger i =>
    simp only [step] at h
    split_ifs at h with hopen hbudget
    · cases h
      have hnone := Option.isNone_iff_eq_none.mp hopen.1
      refine ⟨i, _, rfl, Race.sound_of_open hnone, hnone, fun _ hr => hr.elim, ?_⟩
      simp only [claim, set, hopen.2, reduceCtorEq, if_true, if_false]
      omega
    · cases h
      have hnone := Option.isNone_iff_eq_none.mp hopen.1
      refine ⟨i, _, rfl, Race.sound_settle hnone, hnone, fun _ hr => hr.elim, ?_⟩
      simp [claim, Race.hedge_settle, suppress, set, hopen.2]
  | govern i admitted =>
    simp only [step] at h
    split_ifs at h with hclaimed hadmitted <;> cases h <;>
      have hnone := (hs i).open_claim hclaimed
    · refine ⟨i, _, rfl, Race.sound_of_open hnone, hnone, fun _ hr => hr.elim, ?_⟩
      simp only [claim, set, hclaimed, reduceCtorEq, if_true, if_false]
      omega
    · refine ⟨i, _, rfl, Race.sound_settle hnone, hnone, fun _ hr => hr.elim, ?_⟩
      simp only [claim, Race.hedge_settle, suppress, set, hclaimed, reduceCtorEq, if_true, if_false]
      omega
  | hedge i result =>
    simp only [step] at h
    split_ifs at h with hopen
    cases h
    have hnone := Option.isNone_iff_eq_none.mp hopen.1
    refine ⟨i, _, rfl, ?_, hnone, ?_, ?_⟩
    · exact Race.sound_arm { s.race i with hedge := .done } hnone nofun result
    · exact fun j => responds_arm (.inr rfl)
    · rw [claim, Race.hedge_arm]
      simp [claim, set, hopen.2]

/-- What is true after these events: every race is sound, a response has won its race, and the
budget is where it should be. -/
structure Fair [Fintype ι] (budget : ℕ) (past : List (RaceEvent ι ρ)) (s : Races ι ρ) : Prop where
  sound : ∀ i, (s.race i).Sound
  won : ∀ i, (∃ event ∈ past, event.Responds i) →
    ∃ response, (s.race i).outcome = some (.Winner response)
  placed : s.placed = budget

theorem Fair.step [Fintype ι] {budget : ℕ} {past : List (RaceEvent ι ρ)} (hs : s.Fair budget past)
    (h : s.step event = some s') : s'.Fair budget (past ++ [event]) := by
  obtain ⟨i, r, hrace, hsound, hnone, hwon, hplaced⟩ := step_cases hs.sound h
  refine ⟨fun j => ?_, fun j => ?_, ?_⟩
  · rw [hrace, Function.update_apply]
    split_ifs
    · exact hsound
    · exact hs.sound j
  · rintro ⟨e, he, hresponds⟩
    rw [hrace]
    rcases List.mem_append.mp he with he | he
    · obtain ⟨response, hwinner⟩ := hs.won j ⟨e, he, hresponds⟩
      have hne : j ≠ i := by
        rintro rfl
        rw [hnone] at hwinner
        cases hwinner
      rw [Function.update_of_ne hne]
      exact ⟨response, hwinner⟩
    · rw [List.mem_singleton.mp he] at hresponds
      obtain ⟨rfl, hwinner⟩ := hwon j hresponds
      rw [Function.update_self]
      exact hwinner
  · have hsum := sum_update s.race i r claim
    have hold := hs.placed
    rw [Races.placed] at hold ⊢
    rw [hrace, hsum]
    omega

end Races

/-! ## All runs -/

/-- **A race is won by a response, is not lost while an arm runs, and the hedges of all races keep
their budget**, which those that are suppressed take nothing of. -/
theorem race_first_byte_fair {ι ρ : Type} [DecidableEq ι] [Fintype ι] (budget : ℕ)
    (events : List (RaceEvent ι ρ)) (s : Races ι ρ)
    (hrun : run Races.step (Races.start budget) events = some s) :
    (∀ i, (∃ event ∈ events, event.Responds i) →
      ∃ response, (s.race i).outcome = some (.Winner response)) ∧
    (∀ i outcome, (s.race i).outcome = some outcome → (∀ response, outcome ≠ .Winner response) →
      (s.race i).original_done = true ∧ (s.race i).hedge = .done) ∧
    s.issued ≤ budget ∧
    ((∀ i, (s.race i).hedge ≠ .claimed) → s.issued + s.hedge_budget = budget) := by
  have hinit : (Races.start budget : Races ι ρ).Fair budget [] := by
    refine ⟨fun _ => ⟨nofun, nofun⟩, fun _ => nofun, ?_⟩
    simp [Races.placed, Races.start, Races.claim, Race.start]
  have hfair : s.Fair budget events :=
    @run_invariant_past _ _ Races.step (fun _ _ => True) (fun past s => s.Fair budget past)
      (fun _ _ _ _ hs _ h => hs.step h) _ _ _ hinit (guarded_of_forall fun _ _ => trivial) hrun
  have hplaced := hfair.placed
  rw [Races.placed] at hplaced
  refine ⟨hfair.won, fun i outcome houtcome hnot => ?_, ?_, fun hclaim => ?_⟩
  · refine ((hfair.sound i).ended outcome houtcome).resolve_left ?_
    rintro ⟨response, hwinner⟩
    exact hnot response hwinner
  · have hclaims : 0 ≤ ∑ i, Races.claim (s.race i) :=
      Finset.sum_nonneg fun i _ => by unfold Races.claim; split_ifs <;> omega
    omega
  · have hnone : ∑ i, Races.claim (s.race i) = 0 :=
      Finset.sum_eq_zero fun i _ => if_neg (hclaim i)
    omega

/-- The original fails, the first race's hedge answers, and the second's is refused. -/
theorem hedge_wins_after_error :
    ∃ s : Races Bool ℕ, run Races.step (Races.start 1) [.original true (.TransportError "reset"),
        .trigger false, .govern false false, .trigger true, .govern true true,
        .hedge true (.Response 200)] = some s ∧ s.suppressed = 1 ∧ s.issued ≤ 1 ∧
      ∃ response, (s.race true).outcome = some (.Winner response) := by
  refine ⟨_, rfl, rfl, ?_⟩
  obtain ⟨hwon, -, hissued, -⟩ := race_first_byte_fair 1 [.original true (.TransportError "reset"),
    .trigger false, .govern false false, .trigger true, .govern true true,
    .hedge true (.Response 200)] _ rfl
  exact ⟨hissued, hwon true ⟨_, List.getLast_mem (List.cons_ne_nil _ _), rfl⟩⟩

end HybridCache.HedgedFetch
