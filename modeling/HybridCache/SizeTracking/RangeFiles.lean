/-
Range files on shared storage and the size deltas recorded for them
(`DiskCacheManager::store_range`, `batch_delete_ranges`, `retire_object_version` and the debits of
`perform_eviction_with_lock`).

A store looks whether the file exists, renames its own into place, and credits the size unless the
file existed or its instance has the range id in its set. A removal takes the size, unlinks the
file, and debits that size. Each is a step of its own.

`κ` are the names of range files and `range_file_id` is the id the accumulator derives from one.
-/
import HybridCache.Lib.Directory
import HybridCache.Lib.Transition
import HybridCache.SizeTracking.Accumulator

namespace HybridCache.SizeTracking

open Lib Option

/-- Where a store or a removal stands. -/
inductive FileTask (κ ι : Type) where
  | checked (i : ι) (k : κ) (compressed_size : ℕ) (range_already_existed : Bool)
  | visible (i : ι) (k : κ) (compressed_size : ℕ) (range_already_existed : Bool)
  | sized (i : ι) (k : κ) (size : ℕ)
  | unlinked (i : ι) (k : κ) (size : ℕ)
deriving DecidableEq, Repr

/-- The range files, every instance's accumulator (unflushed, so that it holds all the
instance has recorded) and the tasks under way. -/
structure RangeFiles (κ ι τ : Type) where
  disk : Directory κ ℕ
  acc : ι → SizeAccumulator
  tasks : τ → Option (FileTask κ ι)

inductive FileEvent (κ ι τ : Type) where
  | store_check (t : τ) (i : ι) (k : κ) (compressed_size : ℕ)
  | store_rename (t : τ)
  | store_credit (t : τ)
  | evict_stat (t : τ) (i : ι) (k : κ)
  | retire (t : τ) (i : ι) (k : κ) (recorded_size : ℕ)
  | unlink (t : τ)
  | debit (t : τ)
  | debit_skipped (t : τ)
deriving DecidableEq, Repr

namespace FileTask

variable {κ ι : Type}

/-- What the task has done to the disk and not yet recorded. -/
def owed : FileTask κ ι → ℤ
  | visible _ _ size false => size
  | unlinked _ _ size => -size
  | _ => 0

end FileTask

namespace RangeFiles

variable {κ ι τ : Type} [DecidableEq κ] [DecidableEq ι] [DecidableEq τ]

def init : RangeFiles κ ι τ where
  disk := .empty
  acc := fun _ => .new
  tasks := fun _ => none

def set_task (s : RangeFiles κ ι τ) (t : τ) (task : Option (FileTask κ ι)) : RangeFiles κ ι τ :=
  { s with tasks := Function.update s.tasks t task }

def set_acc (s : RangeFiles κ ι τ) (i : ι) (a : SizeAccumulator) : RangeFiles κ ι τ :=
  { s with acc := Function.update s.acc i a }

variable (range_file_id : κ → RangeId)

def step (s : RangeFiles κ ι τ) : FileEvent κ ι τ → Option (RangeFiles κ ι τ)
  | .store_check t i k size =>
    match s.tasks t with
    | none => some (s.set_task t (some (.checked i k size (s.disk.get? k).isSome)))
    | some _ => none
  | .store_rename t =>
    match s.tasks t with
    | some (.checked i k size existed) =>
      some { s.set_task t (some (.visible i k size existed)) with disk := s.disk.put k size }
    | _ => none
  | .store_credit t =>
    match s.tasks t with
    | some (.visible i k size existed) =>
      if existed then some (s.set_task t none)
      else some ((s.set_acc i ((s.acc i).add_range_id (range_file_id k) size).1).set_task t none)
    | _ => none
  | .evict_stat t i k =>
    -- a file that is not there is taken to have size 0
    match s.tasks t with
    | none => some (s.set_task t (some (.sized i k ((s.disk.get? k).getD 0))))
    | some _ => none
  | .retire t i k size =>
    match s.tasks t with
    | none => some (s.set_task t (some (.sized i k size)))
    | some _ => none
  | .unlink t =>
    match s.tasks t with
    | some (.sized i k size) =>
      if (s.disk.get? k).isSome then
        some { s.set_task t (some (.unlinked i k size)) with disk := s.disk.erase k }
      else some (s.set_task t none)
    | _ => none
  | .debit t =>
    match s.tasks t with
    | some (.unlinked i k size) =>
      some ((s.set_acc i ((s.acc i).subtract_range_id (range_file_id k) size).1).set_task t none)
    | _ => none
  | .debit_skipped t =>
    -- the pass stops looking at results before it gets to this one
    match s.tasks t with
    | some (.unlinked _ _ _) => some (s.set_task t none)
    | _ => none

/-- A step that keeps disk and deltas together: a store renames over what it found when it
looked (nothing, or a file of the size it brings), it credits under an id its instance
does not have yet, a removal unlinks a file of the size it took, and it is debited. -/
def counted (s : RangeFiles κ ι τ) : FileEvent κ ι τ → Bool
  | .store_rename t =>
    match s.tasks t with
    | some (.checked _ k size existed) => (s.disk.get? k).getD 0 = if existed then size else 0
    | _ => true
  | .store_credit t =>
    match s.tasks t with
    | some (.visible i k size existed) =>
      existed ∨ range_file_id k ∉ (s.acc i).recent_ranges ∨ size = 0
    | _ => true
  | .unlink t =>
    match s.tasks t with
    | some (.sized _ k size) => (s.disk.get? k).getD size = size
    | _ => true
  | .debit_skipped t =>
    match s.tasks t with
    | some (.unlinked _ _ size) => size = 0
    | _ => true
  | _ => true

section Balance

variable [Fintype ι] [Fintype τ]

/-- All that the instances have recorded. -/
def recorded (s : RangeFiles κ ι τ) : ℤ :=
  ∑ i, (s.acc i).delta

def owed (s : RangeFiles κ ι τ) : ℤ :=
  ∑ t, (s.tasks t).elim 0 FileTask.owed

/-- The size of all range files on disk. -/
def on_disk (s : RangeFiles κ ι τ) : ℤ :=
  s.disk.total fun size : ℕ => (size : ℤ)

/-- The deltas recorded, with those of the tasks under way, are the bytes on disk. -/
def Balanced (s : RangeFiles κ ι τ) : Prop :=
  s.recorded + s.owed = s.on_disk

variable {s : RangeFiles κ ι τ}

omit [DecidableEq κ] [DecidableEq ι] [Fintype ι] in
theorem owed_set_task (s : RangeFiles κ ι τ) (t : τ) (task : Option (FileTask κ ι)) :
    (s.set_task t task).owed =
      s.owed - (s.tasks t).elim 0 FileTask.owed + task.elim 0 FileTask.owed :=
  sum_update s.tasks t task fun task => task.elim 0 FileTask.owed

omit [Fintype τ] in
omit [DecidableEq κ] [DecidableEq τ] in
theorem recorded_set_acc (s : RangeFiles κ ι τ) (i : ι) (a : SizeAccumulator) :
    (s.set_acc i a).recorded = s.recorded - (s.acc i).delta + a.delta :=
  sum_update s.acc i a SizeAccumulator.delta

omit [DecidableEq ι] [DecidableEq τ] [Fintype ι] [Fintype τ] in
theorem measure_eq (k : κ) :
    s.disk.measure (fun size : ℕ => (size : ℤ)) k = ((s.disk.get? k).getD 0 : ℕ) := by
  cases hk : s.disk.get? k with
  | none | some n => simp [Directory.measure, hk]

omit [DecidableEq κ] [DecidableEq ι] in
theorem Balanced.set_task (hs : s.Balanced) (t : τ) (task : Option (FileTask κ ι))
    (disk : Directory κ ℕ) :
    ({ s.set_task t task with disk := disk } : RangeFiles κ ι τ).Balanced ↔
      s.on_disk + task.elim 0 FileTask.owed =
        disk.total (fun size : ℕ => (size : ℤ)) + (s.tasks t).elim 0 FileTask.owed := by
  have howed := owed_set_task s t task
  have hchange : ({ s.set_task t task with disk := disk } : RangeFiles κ ι τ).Balanced ↔
      s.recorded + (s.set_task t task).owed = disk.total (fun size : ℕ => (size : ℤ)) := Iff.rfl
  rw [hchange, howed]
  unfold Balanced at hs
  omega

omit [DecidableEq κ] [DecidableEq ι] in
theorem Balanced.set_task_same (hs : s.Balanced) (t : τ) (task : Option (FileTask κ ι)) :
    (s.set_task t task).Balanced ↔
      task.elim 0 FileTask.owed = (s.tasks t).elim 0 FileTask.owed := by
  refine (hs.set_task t task s.disk).trans ?_
  rw [on_disk]
  omega

omit [DecidableEq κ] in
theorem Balanced.set_acc (hs : s.Balanced) (i : ι) (a : SizeAccumulator) (t : τ) :
    ((s.set_acc i a).set_task t none).Balanced ↔
      a.delta = (s.acc i).delta + (s.tasks t).elim 0 FileTask.owed := by
  have howed := owed_set_task (s.set_acc i a) t none
  have hrecorded := recorded_set_acc s i a
  have hchange : ((s.set_acc i a).set_task t none).Balanced ↔
      (s.set_acc i a).recorded + ((s.set_acc i a).set_task t none).owed = s.on_disk := Iff.rfl
  have hkeep : (s.set_acc i a).owed - ((s.set_acc i a).tasks t).elim 0 FileTask.owed =
      s.owed - (s.tasks t).elim 0 FileTask.owed := rfl
  rw [hchange, howed, hrecorded, hkeep, elim_none]
  unfold Balanced at hs
  omega

/-- **One step.** From balance, a step stays in balance exactly if it is counted. -/
theorem balanced_step_iff {s' : RangeFiles κ ι τ} {e : FileEvent κ ι τ} (hs : s.Balanced)
    (h : s.step range_file_id e = some s') : s'.Balanced ↔ s.counted range_file_id e = true := by
  cases e with (simp only [step] at h; try split at h <;> try cases h)
  | store_rename t =>
    rename_i i k size existed ht
    refine (hs.set_task t _ _).trans ?_
    have hput := Directory.total_put (fun size : ℕ => (size : ℤ)) s.disk k size
    rw [measure_eq] at hput
    simp only [counted, ht, decide_eq_true_eq, elim_some]
    cases existed with
    | false =>
      simp only [FileTask.owed, on_disk, Bool.false_eq_true, if_false]
      omega
    | true =>
      simp only [FileTask.owed, on_disk, if_true]
      omega
  | store_credit t =>
    rename_i i k size existed ht
    cases existed with
    | true =>
      cases h
      refine (hs.set_task_same t _).trans ?_
      simp [ht, counted, FileTask.owed]
    | false =>
      cases h
      refine (hs.set_acc i _ t).trans ?_
      simp only [counted, ht, decide_eq_true_eq, elim_some, FileTask.owed]
      by_cases hmem : range_file_id k ∈ (s.acc i).recent_ranges
      · simp only [SizeAccumulator.add_range_id, hmem, if_true]
        simp
      · simp [SizeAccumulator.add_range_id_delta_of_notMem hmem, hmem]
  | store_check t i k size | evict_stat t i k | retire t i k size | debit_skipped t =>
    rename_i ht
    refine (hs.set_task_same t _).trans ?_
    simp [ht, counted, FileTask.owed]
  | unlink t =>
    rename_i i k size ht
    cases hk : s.disk.get? k with
    | none =>
      rw [hk] at h
      cases h
      refine (hs.set_task_same t _).trans ?_
      simp [ht, hk, counted, FileTask.owed]
    | some n =>
      rw [hk] at h
      cases h
      refine (hs.set_task t _ _).trans ?_
      have herase := Directory.total_erase (fun size : ℕ => (size : ℤ)) s.disk k
      rw [measure_eq, hk, getD_some] at herase
      simp only [counted, ht, hk, getD_some, decide_eq_true_eq, elim_some, FileTask.owed, on_disk]
      omega
  | debit t =>
    rename_i i k size ht
    refine (hs.set_acc i _ t).trans ?_
    simp only [SizeAccumulator.subtract_range_id_delta, ht, elim_some, FileTask.owed,
      counted, iff_true]
    omega

omit [DecidableEq κ] [DecidableEq ι] [DecidableEq τ] in
theorem balanced_init : (init : RangeFiles κ ι τ).Balanced := by
  simp [Balanced, recorded, owed, on_disk, init, SizeAccumulator.new]

def Idle (s : RangeFiles κ ι τ) : Prop :=
  ∀ t, s.tasks t = none

omit [DecidableEq κ] [DecidableEq ι] [DecidableEq τ] in
theorem Balanced.recorded_eq (hs : s.Balanced) (hidle : s.Idle) : s.recorded = s.on_disk := by
  have howed : s.owed = 0 := by
    exact Finset.sum_eq_zero fun t _ => by rw [hidle t, elim_none]
  rw [← hs, howed, add_zero]

/-- **Recorded sizes and the disk.** All along a run, recorded deltas (with those of tasks
under way) and bytes on disk agree if and only if every step of the run is counted; and
then the deltas recorded are the bytes on disk whenever no task is under way. -/
theorem recorded_deltas_match_disk_iff {events : List (FileEvent κ ι τ)} {s : RangeFiles κ ι τ}
    (hrun : run (step range_file_id) init events = some s) :
    ((∀ n s', run (step range_file_id) init (events.take n) = some s' → s'.Balanced) ↔
      Guarded (step range_file_id) (fun s e => s.counted range_file_id e = true) init events) ∧
    (Guarded (step range_file_id) (fun s e => s.counted range_file_id e = true) init events →
      ∀ n s', run (step range_file_id) init (events.take n) = some s' → s'.Idle →
        s'.recorded = s'.on_disk) := by
  have hiff := run_forall_iff_guarded Balanced Balanced (fun _ h => h)
    (fun s e s' hs hcounted h => (balanced_step_iff range_file_id hs h).mpr hcounted)
    (fun s e s' hs h hs' => (balanced_step_iff range_file_id hs h).mp hs') balanced_init hrun
  refine ⟨hiff, fun hguard n s' hs' hidle => ?_⟩
  exact (hiff.mpr hguard n s' hs').recorded_eq hidle

end Balance

def store_events (i : Fin 2) : List (FileEvent Unit (Fin 2) Unit) :=
  [.store_check () i () 100, .store_rename (), .store_credit ()]

def evict_events (i : Fin 2) : List (FileEvent Unit (Fin 2) Unit) :=
  [.evict_stat () i (), .unlink (), .debit ()]

/-- Stored by instance 0, evicted by instance 1, stored again by instance 0: the file is
there, and the deltas recorded are 0. -/
theorem range_stored_again_after_remote_eviction_is_not_counted :
    (run (step fun _ : Unit => (0, 0, 99)) init
      (store_events 0 ++ evict_events 1 ++ store_events 0)).map
      (fun s => (s.on_disk, s.recorded, s.tasks ())) = some (100, 0, none) := by
  decide

/-- Evicted by the instance that stored it, the file is counted again. -/
theorem range_stored_again_after_own_eviction_is_counted :
    ∃ s, run (step fun _ : Unit => (0, 0, 99)) init
      (store_events 0 ++ evict_events 0 ++ store_events 0) = some s ∧ s.recorded = s.on_disk := by
  obtain ⟨s, hs⟩ := isSome_iff_exists.mp (show (run (step fun _ : Unit => (0, 0, 99)) init
    (store_events 0 ++ evict_events 0 ++ store_events 0)).isSome by decide)
  have hidle : ∀ s ∈ run (step fun _ : Unit => (0, 0, 99)) init
      (store_events 0 ++ evict_events 0 ++ store_events 0), s.tasks () = none := by
    decide
  exact ⟨s, hs, (recorded_deltas_match_disk_iff _ hs).2 (by decide) 9 s hs fun _ => hidle s hs⟩

end RangeFiles

end HybridCache.SizeTracking
