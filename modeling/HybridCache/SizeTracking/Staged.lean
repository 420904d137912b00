/-
The write-cache figure beside the total, for staged ranges (`credit_staged_range` in `cache.rs`,
`store_range` and `commit_incremental_range` in `disk_cache.rs`, `write_multipart_journal_entries`
in `journal_consolidator.rs`).

`add_range_id` counts an id once until it is debited, and says whether it has counted;
`add_write_cache` counts always. Only the multipart site asks. At the others, a range that was
stored here, removed by another instance and stored here again is added to the write-cache figure
alone.
-/
import HybridCache.SizeTracking.RangeFiles

namespace HybridCache.SizeTracking

open Lib

/-! ## Credits and debits of a staged range -/

namespace SizeAccumulator

/-- The credit of `credit_staged_range`, `store_range` and `commit_incremental_range` for a file
that was not there before. -/
def credit_staged_range (a : SizeAccumulator) (range_id : RangeId) (compressed_size : ℕ) :
    SizeAccumulator :=
  (a.add_range_id range_id compressed_size).1.add_write_cache compressed_size

def credit_multipart_range (a : SizeAccumulator) (range_id : RangeId) (compressed_size : ℕ) :
    SizeAccumulator :=
  let (a, credited) := a.add_range_id range_id compressed_size
  if credited then a.add_write_cache compressed_size else a

def debit_staged_range (a : SizeAccumulator) (range_id : RangeId) (compressed_size : ℕ) :
    SizeAccumulator :=
  (a.subtract_range_id range_id compressed_size).1.subtract_write_cache compressed_size

variable (a : SizeAccumulator) (range_id : RangeId) (n : ℕ)

theorem credit_staged_range_write_cache_delta :
    (a.credit_staged_range range_id n).write_cache_delta = a.write_cache_delta + n := by
  unfold credit_staged_range add_range_id
  split <;> rfl

theorem credit_staged_range_delta :
    (a.credit_staged_range range_id n).delta =
      a.delta + if range_id ∈ a.recent_ranges then 0 else (n : ℤ) := by
  unfold credit_staged_range
  by_cases hmem : range_id ∈ a.recent_ranges
  · rw [if_pos hmem, add_zero, add_range_id, if_pos hmem]
    rfl
  · rw [if_neg hmem, ← add_range_id_delta_of_notMem hmem]
    rfl

theorem credit_multipart_range_paired :
    ∃ credit : ℤ, (a.credit_multipart_range range_id n).delta = a.delta + credit ∧
      (a.credit_multipart_range range_id n).write_cache_delta = a.write_cache_delta + credit := by
  unfold credit_multipart_range add_range_id
  by_cases hmem : range_id ∈ a.recent_ranges
  · refine ⟨0, ?_⟩
    rw [if_pos hmem]
    simp
  · refine ⟨n, ?_⟩
    rw [if_neg hmem]
    exact ⟨rfl, rfl⟩

theorem debit_staged_range_delta : (a.debit_staged_range range_id n).delta = a.delta - n := rfl

theorem debit_staged_range_write_cache_delta :
    (a.debit_staged_range range_id n).write_cache_delta = a.write_cache_delta - n := rfl

end SizeAccumulator

/-! ## Runs -/

/-- What happens to staged ranges: what happens to range files, and the credit of a part of a
completed multipart upload, which looks for no file. -/
inductive StagedEvent (κ ι τ : Type) where
  | file (event : FileEvent κ ι τ)
  | multipart_credit (i : ι) (k : κ) (compressed_size : ℕ)
deriving DecidableEq, Repr

namespace RangeFiles

variable {κ ι τ : Type} [DecidableEq κ] [DecidableEq ι] [DecidableEq τ]
variable (range_file_id : κ → RangeId)

/-- One step, where every range is staged. The credit and the debit move both figures; all other
steps are those of range files. -/
def staged_step (s : RangeFiles κ ι τ) : StagedEvent κ ι τ → Option (RangeFiles κ ι τ)
  | .file (.store_credit t) =>
    match s.tasks t with
    | some (.visible i k size existed) =>
      if existed then some (s.set_task t none)
      else
        some ((s.set_acc i ((s.acc i).credit_staged_range (range_file_id k) size)).set_task t none)
    | _ => none
  | .file (.debit t) =>
    match s.tasks t with
    | some (.unlinked i k size) =>
      some ((s.set_acc i ((s.acc i).debit_staged_range (range_file_id k) size)).set_task t none)
    | _ => none
  | .file event => s.step range_file_id event
  | .multipart_credit i k size =>
    some (s.set_acc i ((s.acc i).credit_multipart_range (range_file_id k) size))

/-- A store that credits without asking whether the total was credited has an id that its instance
does not have yet, or nothing to credit. -/
def credits_both (s : RangeFiles κ ι τ) : StagedEvent κ ι τ → Bool
  | .file (.store_credit t) =>
    match s.tasks t with
    | some (.visible i k size existed) =>
      existed ∨ range_file_id k ∉ (s.acc i).recent_ranges ∨ size = 0
    | _ => true
  | _ => true

theorem acc_of_step {s s' : RangeFiles κ ι τ} {event : FileEvent κ ι τ}
    (h : s.step range_file_id event = some s') (hcredit : ∀ t, event ≠ .store_credit t)
    (hdebit : ∀ t, event ≠ .debit t) : s'.acc = s.acc := by
  cases event with
  | store_credit t => exact absurd rfl (hcredit t)
  | debit t => exact absurd rfl (hdebit t)
  | unlink t =>
    simp only [step] at h
    split at h
    · split at h <;> (obtain rfl := Option.some.inj h; rfl)
    · cases h
  | store_check | store_rename | evict_stat | retire | debit_skipped =>
    simp only [step] at h
    split at h
    all_goals first
      | cases h; rfl
      | cases h

section Figures

variable [Fintype ι]

def staged_recorded (s : RangeFiles κ ι τ) : ℤ :=
  ∑ i, (s.acc i).write_cache_delta

omit [DecidableEq κ] [DecidableEq τ] in
theorem staged_recorded_set_acc (s : RangeFiles κ ι τ) (i : ι) (a : SizeAccumulator) :
    (s.set_acc i a).staged_recorded =
      s.staged_recorded - (s.acc i).write_cache_delta + a.write_cache_delta :=
  sum_update s.acc i a SizeAccumulator.write_cache_delta

/-- What a step may do to the two figures: move both by the same amount, or add to the write cache
alone. -/
inductive Figures (s s' : RangeFiles κ ι τ) : Bool → Prop
  | paired (amount : ℤ) (htotal : s'.recorded = s.recorded + amount)
      (hstaged : s'.staged_recorded = s.staged_recorded + amount) : Figures s s' true
  | staged_only (size : ℕ) (hsize : 0 < size) (htotal : s'.recorded = s.recorded)
      (hstaged : s'.staged_recorded = s.staged_recorded + size) : Figures s s' false

variable {s s' : RangeFiles κ ι τ} {a : SizeAccumulator} {i : ι}

omit [DecidableEq κ] [DecidableEq τ] in
theorem recorded_of_acc (hacc : s'.acc = (s.set_acc i a).acc) :
    s'.recorded = s.recorded - (s.acc i).delta + a.delta ∧
      s'.staged_recorded =
        s.staged_recorded - (s.acc i).write_cache_delta + a.write_cache_delta := by
  constructor
  · rw [← recorded_set_acc, recorded, hacc, recorded]
  · rw [← staged_recorded_set_acc, staged_recorded, hacc, staged_recorded]

omit [DecidableEq κ] [DecidableEq τ] in
theorem Figures.of_paired {amount : ℤ} (hacc : s'.acc = (s.set_acc i a).acc)
    (hdelta : a.delta = (s.acc i).delta + amount)
    (hwrite : a.write_cache_delta = (s.acc i).write_cache_delta + amount) :
    Figures s s' true := by
  obtain ⟨htotal, hstaged⟩ := recorded_of_acc hacc
  exact .paired amount (by omega) (by omega)

omit [DecidableEq κ] [DecidableEq τ] in
theorem Figures.of_staged_only {size : ℕ} (hsize : 0 < size) (hacc : s'.acc = (s.set_acc i a).acc)
    (hdelta : a.delta = (s.acc i).delta)
    (hwrite : a.write_cache_delta = (s.acc i).write_cache_delta + size) :
    Figures s s' false := by
  obtain ⟨htotal, hstaged⟩ := recorded_of_acc hacc
  exact .staged_only size hsize (by omega) (by omega)

omit [DecidableEq κ] [DecidableEq ι] [DecidableEq τ] in
theorem Figures.of_acc_eq (hacc : s'.acc = s.acc) : Figures s s' true := by
  refine .paired 0 ?_ ?_
  · rw [recorded, hacc, recorded, add_zero]
  · rw [staged_recorded, hacc, staged_recorded, add_zero]

variable {event : StagedEvent κ ι τ}

/-- **One step.** Both figures move together exactly if the step credits both. -/
theorem figures_of_step (h : s.staged_step range_file_id event = some s') :
    Figures s s' (s.credits_both range_file_id event) := by
  cases event with
  | multipart_credit i k size =>
    cases h
    obtain ⟨credit, hdelta, hwrite⟩ :=
      (s.acc i).credit_multipart_range_paired (range_file_id k) size
    exact .of_paired rfl hdelta hwrite
  | file event =>
    cases event with
    | store_credit t =>
      simp only [staged_step] at h
      split at h
      case h_2 => cases h
      case h_1 i k size existed ht =>
        simp only [credits_both, ht]
        cases existed with
        | true =>
          cases h
          exact .of_acc_eq rfl
        | false =>
          cases h
          have hdelta := (s.acc i).credit_staged_range_delta (range_file_id k) size
          have hwrite := (s.acc i).credit_staged_range_write_cache_delta (range_file_id k) size
          by_cases hcredit : range_file_id k ∉ (s.acc i).recent_ranges ∨ size = 0
          · have hpaired : ((s.acc i).credit_staged_range (range_file_id k) size).delta =
                (s.acc i).delta + size := by
              rw [hdelta]
              rcases hcredit with hmem | hzero
              · rw [if_neg hmem]
              · rw [hzero, Nat.cast_zero, ite_self]
            rw [decide_eq_true (.inr hcredit)]
            exact .of_paired rfl hpaired hwrite
          · -- the id is known here, so the total does not move
            have hguard : ¬ (false = true ∨ range_file_id k ∉ (s.acc i).recent_ranges ∨ size = 0) :=
              not_or.mpr ⟨Bool.false_ne_true, hcredit⟩
            rw [not_or, not_not] at hcredit
            rw [if_pos hcredit.1] at hdelta
            rw [decide_eq_false hguard]
            rw [add_zero] at hdelta
            exact .of_staged_only (Nat.pos_of_ne_zero hcredit.2) rfl hdelta hwrite
    | debit t =>
      simp only [staged_step] at h
      split at h
      case h_1 i k size ht =>
        cases h
        exact .of_paired rfl ((s.acc i).debit_staged_range_delta (range_file_id k) size)
          ((s.acc i).debit_staged_range_write_cache_delta (range_file_id k) size)
      case h_2 => cases h
    | store_check | store_rename | evict_stat | retire | unlink | debit_skipped =>
      simp only [staged_step] at h
      exact .of_acc_eq (acc_of_step range_file_id h nofun nofun)

/-! ## Staged bytes are cached bytes -/

/-- The write-cache figure is not above the total. -/
def StagedWithinTotal (s : RangeFiles κ ι τ) : Prop :=
  s.staged_recorded ≤ s.recorded

/-- A step adds to the write-cache figure only if it adds to the total. -/
def AddsToBoth (s s' : RangeFiles κ ι τ) : Prop :=
  s.staged_recorded < s'.staged_recorded → s.recorded < s'.recorded

/-- What a step does to the two figures, from any state and from one in which they are equal. -/
theorem credits_both_iff (h : s.staged_step range_file_id event = some s') :
    (AddsToBoth s s' ↔ s.credits_both range_file_id event = true) ∧
      (s.staged_recorded = s.recorded →
        (s'.StagedWithinTotal ↔ s.credits_both range_file_id event = true) ∧
          (s'.StagedWithinTotal → s'.staged_recorded = s'.recorded)) := by
  have hfigures := figures_of_step range_file_id h
  unfold AddsToBoth StagedWithinTotal
  generalize s.credits_both range_file_id event = credits at hfigures ⊢
  cases hfigures with
  | paired amount htotal hstaged =>
    simp only [iff_true]
    omega
  | staged_only size hsize htotal hstaged =>
    simp only [Bool.false_eq_true, iff_false]
    omega

/-- **Staged bytes are a part of cached bytes.** Along every run of stores, removals and stores
again, by any number of instances, each step adds to the write-cache figure only with the total and
the write-cache figure stays within the total, exactly if every store that credits without asking
has an id that its instance does not have yet, or no bytes. -/
theorem staged_within_total_iff {events : List (StagedEvent κ ι τ)} {s : RangeFiles κ ι τ}
    (hrun : run (staged_step range_file_id) init events = some s) :
    ((∀ n event s₁ s₂, run (staged_step range_file_id) init (events.take n) = some s₁ →
        events[n]? = some event → s₁.staged_step range_file_id event = some s₂ →
          AddsToBoth s₁ s₂) ∧
      ∀ n s₁, run (staged_step range_file_id) init (events.take n) = some s₁ →
        s₁.StagedWithinTotal) ↔
      Guarded (staged_step range_file_id) (fun s event => s.credits_both range_file_id event = true)
        init events := by
  have hsteps := run_steps_iff_guarded (fun s₁ _ s₂ => AddsToBoth s₁ s₂)
    (fun s event s' h => (credits_both_iff range_file_id h).1) hrun
  have hinit : (init : RangeFiles κ ι τ).staged_recorded = (init : RangeFiles κ ι τ).recorded := by
    simp [init, staged_recorded, recorded, SizeAccumulator.new]
  have hstates : (∀ n s₁, run (staged_step range_file_id) init (events.take n) = some s₁ →
      s₁.StagedWithinTotal) ↔
        Guarded (staged_step range_file_id)
          (fun s event => s.credits_both range_file_id event = true) init events := by
    refine run_forall_iff_guarded (fun s => s.staged_recorded = s.recorded) StagedWithinTotal
      (fun _ hs => hs.le) ?_ ?_ hinit hrun
    · intro s event s' hs hcredits h
      obtain ⟨hiff, hequal⟩ := (credits_both_iff range_file_id h).2 hs
      exact hequal (hiff.mpr hcredits)
    · intro s event s' hs h hwithin
      exact ((credits_both_iff range_file_id h).2 hs).1.mp hwithin
  exact ⟨fun h => hsteps.mp h.1, fun h => ⟨hsteps.mpr h, hstates.mpr h⟩⟩

end Figures

/-! ## Stored, removed elsewhere, stored again -/

/-- The run of range files, for a staged range. -/
def staged_events (events : List (FileEvent Unit (Fin 2) Unit)) :
    List (StagedEvent Unit (Fin 2) Unit) :=
  events.map .file

/-- Stored by instance 0, evicted by instance 1 and stored again by instance 0, 100 bytes are
recorded as staged and none as cached. -/
theorem restored_range_staged_only :
    (run (staged_step fun _ : Unit => (0, 0, 99)) init
      (staged_events (store_events 0 ++ evict_events 1 ++ store_events 0))).map
      (fun s => (s.staged_recorded, s.recorded, s.on_disk)) = some (100, 0, 100) := by
  decide

/-- Evicted by the instance that stored it, the range is counted in both. -/
theorem restored_range_in_both :
    ∃ s, run (staged_step fun _ : Unit => (0, 0, 99)) init
      (staged_events (store_events 0 ++ evict_events 0 ++ store_events 0)) = some s ∧
        s.StagedWithinTotal := by
  obtain ⟨s, hs⟩ := Option.isSome_iff_exists.mp
    (show (run (staged_step fun _ : Unit => (0, 0, 99)) init
      (staged_events (store_events 0 ++ evict_events 0 ++ store_events 0))).isSome by decide)
  exact ⟨s, hs, ((staged_within_total_iff _ hs).mpr (by decide)).2 9 s hs⟩

end RangeFiles

end HybridCache.SizeTracking
