/-
Size tracking across instances: accumulators, delta files and `size_state.json`
(`journal_consolidator.rs`).

A flush swaps the two counters of an accumulator to zero, one after the other, and publishes what
it took as a new delta file. One instance at a time runs a collection pass: it reads the delta
files, deletes each after reading it, and then adds the sum to the size state, which never goes
below zero. Each of these moves is a step of its own.

`ι` are the instances and `τ` the tasks that flush. A delta file is stamped with a logical clock,
and the state remembers which files have been added in what batches.
-/
import HybridCache.Lib.Directory
import HybridCache.Lib.Transition
import HybridCache.SizeTracking.Accumulator

namespace HybridCache.SizeTracking

open Lib

/-! ## The state -/

structure DeltaFile where
  delta : ℤ
  write_cache_delta : ℤ
  timestamp : ℕ
deriving DecidableEq, Repr

structure SizeState where
  total_size : ℕ
  write_cache_size : ℕ
deriving DecidableEq, Repr

/-- A saturating update of one figure, as in `atomic_update_size_delta`. -/
def saturating_apply (size : ℕ) (delta : ℤ) : ℕ :=
  if delta ≥ 0 then size + delta.toNat else size - (-delta).toNat

theorem saturating_apply_eq (size : ℕ) (delta : ℤ) :
    (saturating_apply size delta : ℤ) = max 0 (size + delta) := by
  unfold saturating_apply
  split <;> omega

/-- `atomic_update_size_delta`, when nothing fails. -/
def atomic_update_size_delta (state : SizeState) (size_delta write_cache_delta : ℤ) : SizeState :=
  ⟨saturating_apply state.total_size size_delta,
    saturating_apply state.write_cache_size write_cache_delta⟩

inductive Flush (ι : Type) where
  | swapped (owner : ι) (delta : ℤ)
  | taken (owner : ι) (delta wc_delta : ℤ)
  | named (owner : ι) (delta wc_delta : ℤ) (seq : ℕ)
deriving DecidableEq, Repr

namespace Flush

variable {ι : Type}

def owner : Flush ι → ι
  | swapped i _ => i
  | taken i _ _ => i
  | named i _ _ _ => i

def delta : Flush ι → ℤ
  | swapped _ d => d
  | taken _ d _ => d
  | named _ d _ _ => d

def wc_delta : Flush ι → ℤ
  | swapped _ _ => 0
  | taken _ _ w => w
  | named _ _ w _ => w

def name? : Flush ι → Option (ι × ℕ)
  | named i _ _ seq => some (i, seq)
  | _ => none

end Flush

/-- A collection pass: who runs it, the files whose deltas it has summed up, the
file it has read and not yet deleted, and the names it could not delete. -/
structure Pass (ι : Type) where
  holder : ι
  summed : List DeltaFile
  reading : Option ((ι × ℕ) × DeltaFile)
  stuck : List (ι × ℕ)
deriving DecidableEq

/-- The state shared by all instances. -/
structure Tracking (ι τ : Type) where
  acc : ι → SizeAccumulator
  flushing : τ → Option (Flush ι)
  files : Directory (ι × ℕ) DeltaFile
  pass : Option (Pass ι)
  size_state : SizeState
  clock : ℕ
  applied : List (List DeltaFile)

inductive Event (ι τ : Type) where
  | record (i : ι) (op : AccOp)
  | swap_delta (t : τ) (i : ι)
  | swap_write_cache (t : τ)
  | take_sequence (t : τ)
  | write (t : τ)
  | write_fails (t : τ)
  | begin_pass (i : ι)
  | read (name : ι × ℕ)
  | delete (ok : Bool)
  | update (ok : Bool)
  | restart (i : ι)
deriving DecidableEq, Repr

def sum_delta (files : List DeltaFile) : ℤ :=
  (files.map DeltaFile.delta).sum

def sum_write_cache_delta (files : List DeltaFile) : ℤ :=
  (files.map DeltaFile.write_cache_delta).sum

/-! ## Steps -/

namespace Tracking

variable {ι τ : Type} [DecidableEq ι] [DecidableEq τ]

def init (state : SizeState) : Tracking ι τ where
  acc := fun _ => .new
  flushing := fun _ => none
  files := .empty
  pass := none
  size_state := state
  clock := 0
  applied := []

def set_acc (s : Tracking ι τ) (i : ι) (a : SizeAccumulator) : Tracking ι τ :=
  { s with acc := Function.update s.acc i a }

def set_flush (s : Tracking ι τ) (t : τ) (f : Option (Flush ι)) : Tracking ι τ :=
  { s with flushing := Function.update s.flushing t f }

/-- A process stops and starts again under its old instance id: its accumulator is new,
and what its tasks were doing is gone. -/
def restarted (s : Tracking ι τ) (i : ι) : Tracking ι τ :=
  { s with
    acc := Function.update s.acc i .new
    flushing := fun t => (s.flushing t).filter fun f => f.owner ≠ i
    pass := s.pass.filter fun p => p.holder ≠ i }

def step (s : Tracking ι τ) : Event ι τ → Option (Tracking ι τ)
  | .record i op => some (s.set_acc i (op.apply (s.acc i)))
  | .swap_delta t i =>
    match s.flushing t with
    | none => some ((s.set_acc i { s.acc i with delta := 0 }).set_flush t
        (some (.swapped i (s.acc i).delta)))
    | some _ => none
  | .swap_write_cache t =>
    match s.flushing t with
    | some (.swapped i d) =>
      let w := (s.acc i).write_cache_delta
      let s' := s.set_acc i { s.acc i with write_cache_delta := 0 }
      -- a flush of nothing returns without writing a file
      some (s'.set_flush t (if d = 0 ∧ w = 0 then none else some (.taken i d w)))
    | _ => none
  | .take_sequence t =>
    match s.flushing t with
    | some (.taken i d w) =>
      let seq := (s.acc i).flush_sequence
      some ((s.set_acc i { s.acc i with flush_sequence := seq + 1 }).set_flush t
        (some (.named i d w seq)))
    | _ => none
  | .write t =>
    match s.flushing t with
    | some (.named i d w seq) =>
      some { s.set_flush t none with
        files := s.files.put (i, seq) ⟨d, w, s.clock⟩
        clock := s.clock + 1 }
    | _ => none
  | .write_fails t =>
    -- the flush puts back what it took
    match s.flushing t with
    | some (.taken i d w) | some (.named i d w _) =>
      some ((s.set_acc i { s.acc i with
        delta := (s.acc i).delta + d
        write_cache_delta := (s.acc i).write_cache_delta + w }).set_flush t none)
    | _ => none
  | .begin_pass i =>
    match s.pass with
    | none => some { s with pass := some ⟨i, [], none, []⟩ }
    | some _ => none
  | .read name =>
    match s.pass with
    | some ⟨i, summed, none, stuck⟩ =>
      match s.files.get? name with
      | some file =>
        if name ∈ stuck then none
        else if file.delta = 0 ∧ file.write_cache_delta = 0 then some s
        else some { s with pass := some ⟨i, summed, some (name, file), stuck⟩ }
      | none => none
    | _ => none
  | .delete ok =>
    match s.pass with
    | some ⟨i, summed, some (name, file), stuck⟩ =>
      if ok then
        some { s with
          files := s.files.erase name
          pass := some ⟨i, summed ++ [file], none, stuck⟩ }
      else
        some { s with pass := some ⟨i, summed ++ [file], none, name :: stuck⟩ }
    | _ => none
  | .update ok =>
    match s.pass with
    | some ⟨_, summed, none, _⟩ =>
      let d := sum_delta summed
      let w := sum_write_cache_delta summed
      -- a failed update only logs: the files are gone and the sum with them
      if (d ≠ 0 ∨ w ≠ 0) ∧ ok = false then
        some { s with pass := none }
      else
        some { s with
          pass := none
          size_state := atomic_update_size_delta s.size_state d w
          applied := s.applied ++ [summed] }
    | _ => none
  | .restart i => some (s.restarted i)

def flight_name (s : Tracking ι τ) (t : τ) : Option (ι × ℕ) :=
  (s.flushing t).bind Flush.name?

def summed (s : Tracking ι τ) : List DeltaFile :=
  s.pass.elim [] Pass.summed

variable {s : Tracking ι τ}

omit [DecidableEq ι] [DecidableEq τ] in
theorem summed_of_pass {p : Pass ι} (hp : s.pass = some p) : s.summed = p.summed := by
  simp [summed, hp]

omit [DecidableEq τ] in
theorem summed_restarted (i : ι) :
    (s.restarted i).summed = if ∃ p, s.pass = some p ∧ p.holder = i then [] else s.summed := by
  cases hp : s.pass with
  | none => simp [summed, restarted, hp]
  | some p =>
    by_cases hi : p.holder = i <;> simp [summed, restarted, hp, hi, Option.filter_some]

/-! ## What a step can do -/

/-- Every way a step can go, with what must hold before it and the state after it. -/
inductive Moves (s : Tracking ι τ) : Event ι τ → Tracking ι τ → Prop
  | record (i : ι) (op : AccOp) : Moves s (.record i op) (s.set_acc i (op.apply (s.acc i)))
  | swap_delta (t : τ) (i : ι) (hidle : s.flushing t = none) :
      Moves s (.swap_delta t i) ((s.set_acc i { s.acc i with delta := 0 }).set_flush t
        (some (.swapped i (s.acc i).delta)))
  | swap_nothing (t : τ) (i : ι) (ht : s.flushing t = some (.swapped i 0))
      (hw : (s.acc i).write_cache_delta = 0) :
      Moves s (.swap_write_cache t)
        ((s.set_acc i { s.acc i with write_cache_delta := 0 }).set_flush t none)
  | swap_write_cache (t : τ) (i : ι) (d : ℤ) (ht : s.flushing t = some (.swapped i d)) :
      Moves s (.swap_write_cache t)
        ((s.set_acc i { s.acc i with write_cache_delta := 0 }).set_flush t
          (some (.taken i d (s.acc i).write_cache_delta)))
  | take_sequence (t : τ) (i : ι) (d w : ℤ) (ht : s.flushing t = some (.taken i d w)) :
      Moves s (.take_sequence t)
        ((s.set_acc i { s.acc i with flush_sequence := (s.acc i).flush_sequence + 1 }).set_flush t
          (some (.named i d w (s.acc i).flush_sequence)))
  | write (t : τ) (i : ι) (d w : ℤ) (seq : ℕ) (ht : s.flushing t = some (.named i d w seq)) :
      Moves s (.write t)
        { s.set_flush t none with
          files := s.files.put (i, seq) ⟨d, w, s.clock⟩
          clock := s.clock + 1 }
  | write_fails (t : τ) (f : Flush ι) (ht : s.flushing t = some f) :
      Moves s (.write_fails t) ((s.set_acc f.owner { s.acc f.owner with
        delta := (s.acc f.owner).delta + f.delta
        write_cache_delta := (s.acc f.owner).write_cache_delta + f.wc_delta }).set_flush t none)
  | begin_pass (i : ι) (hfree : s.pass = none) :
      Moves s (.begin_pass i) { s with pass := some ⟨i, [], none, []⟩ }
  | read_zero (name : ι × ℕ) : Moves s (.read name) s
  | read (name : ι × ℕ) (p : Pass ι) (file : DeltaFile) (hp : s.pass = some p)
      (hidle : p.reading = none) (hfile : s.files.get? name = some file) :
      Moves s (.read name) { s with pass := some { p with reading := some (name, file) } }
  | delete (p : Pass ι) (name : ι × ℕ) (file : DeltaFile) (hp : s.pass = some p)
      (hread : p.reading = some (name, file)) :
      Moves s (.delete true) { s with
        files := s.files.erase name
        pass := some { p with summed := p.summed ++ [file], reading := none } }
  | delete_fails (p : Pass ι) (name : ι × ℕ) (file : DeltaFile) (hp : s.pass = some p)
      (hread : p.reading = some (name, file)) :
      Moves s (.delete false) { s with
        pass := some { p with
          summed := p.summed ++ [file], reading := none, stuck := name :: p.stuck } }
  | update (ok : Bool) (p : Pass ι) (hp : s.pass = some p) (hidle : p.reading = none)
      (hok : ok = true ∨ sum_delta s.summed = 0 ∧ sum_write_cache_delta s.summed = 0) :
      Moves s (.update ok) { s with
        pass := none
        size_state := atomic_update_size_delta s.size_state (sum_delta s.summed)
          (sum_write_cache_delta s.summed)
        applied := s.applied ++ [s.summed] }
  | update_fails (p : Pass ι) (hp : s.pass = some p) (hidle : p.reading = none)
      (hsum : sum_delta s.summed ≠ 0 ∨ sum_write_cache_delta s.summed ≠ 0) :
      Moves s (.update false) { s with pass := none }
  | restart (i : ι) : Moves s (.restart i) (s.restarted i)

/-- **Inversion.** Every step is one of the moves. -/
theorem moves_of_step {s' : Tracking ι τ} {e : Event ι τ} (h : s.step e = some s') :
    Moves s e s' := by
  cases e with (simp only [step] at h; try split at h <;> try cases h)
  | record i op =>
    cases h
    exact .record i op
  | swap_delta t i => exact .swap_delta t i ‹_›
  | swap_write_cache t =>
    rename_i i d ht
    split_ifs with hzero
    · exact .swap_nothing t i (hzero.1 ▸ ht) hzero.2
    · exact .swap_write_cache t i d ht
  | take_sequence t => exact .take_sequence t _ _ _ ‹_›
  | write t => exact .write t _ _ _ _ ‹_›
  | write_fails t =>
    rename_i ht
    exact .write_fails t _ ht
  | begin_pass i => exact .begin_pass i ‹_›
  | read name =>
    rename_i i summed stuck hp
    split at h
    · rename_i file hfile
      split at h
      · cases h
      · split at h
        · cases h
          exact .read_zero name
        · cases h
          exact .read name _ file hp rfl hfile
    · cases h
  | delete ok =>
    rename_i i summed name file stuck hp
    cases ok with
    | true =>
      cases h
      exact .delete _ name file hp rfl
    | false =>
      cases h
      exact .delete_fails _ name file hp rfl
  | update ok =>
    rename_i i summed stuck hp
    have hsummed : s.summed = summed := by simp [Tracking.summed, hp]
    rw [← hsummed] at h
    split_ifs at h with hfail
    · cases h
      rw [hfail.2]
      exact .update_fails _ hp rfl hfail.1
    · cases h
      refine .update ok _ hp rfl ?_
      cases ok with
      | true => exact .inl rfl
      | false =>
        right
        by_contra hne
        exact hfail ⟨by omega, rfl⟩
  | restart i =>
    cases h
    exact .restart i

end Tracking

end HybridCache.SizeTracking
