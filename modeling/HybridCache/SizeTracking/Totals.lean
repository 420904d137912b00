/-
What the size state adds up to (`journal_consolidator.rs`).

As long as nothing fails and no process restarts no byte is lost on the way from an accumulator to
the size state. The size state is the clamped running total of the batches added to it, and
therefore what was recorded plus the deepest point the running sum of the batches reaches below
zero.
-/
import HybridCache.Lib.Clamp
import HybridCache.SizeTracking.Delivery

namespace HybridCache.SizeTracking

open Lib List

inductive Figure where
  | total
  | write_cache
deriving DecidableEq, Repr

namespace Figure

variable {ι τ : Type}

def of_acc : Figure → SizeAccumulator → ℤ
  | total, a => a.delta
  | write_cache, a => a.write_cache_delta

def of_flush : Figure → Flush ι → ℤ
  | total, f => f.delta
  | write_cache, f => f.wc_delta

def of_file : Figure → DeltaFile → ℤ
  | total, f => f.delta
  | write_cache, f => f.write_cache_delta

def of_state : Figure → SizeState → ℕ
  | total, s => s.total_size
  | write_cache, s => s.write_cache_size

def of_op : Figure → AccOp → ℤ
  | total, op => op.amount
  | write_cache, op => op.write_cache_amount

/-- The figure of a batch of files. -/
def of_files (c : Figure) (files : List DeltaFile) : ℤ :=
  (files.map c.of_file).sum

def recorded (c : Figure) : Event ι τ → ℤ
  | .record _ op => c.of_op op
  | _ => 0

theorem of_acc_apply (c : Figure) (op : AccOp) (a : SizeAccumulator) :
    c.of_acc (op.apply a) = c.of_acc a + c.of_op op := by
  cases c with
  | total => exact AccOp.apply_delta
  | write_cache => exact AccOp.apply_write_cache_delta

theorem of_state_update (c : Figure) (state : SizeState) (files : List DeltaFile) :
    (c.of_state
      (atomic_update_size_delta state (sum_delta files) (sum_write_cache_delta files)) : ℤ)
      = max 0 (c.of_state state + c.of_files files) := by
  cases c with
  | total | write_cache => exact saturating_apply_eq _ _

end Figure

/-- A step in which nothing fails and no process stops. -/
def Event.Faultless {ι τ : Type} : Event ι τ → Prop
  | .write_fails _ => False
  | .delete ok => ok = true
  | .update ok => ok = true
  | .restart _ => False
  | _ => True

instance {ι τ : Type} : (e : Event ι τ) → Decidable e.Faultless
  | .write_fails _ | .restart _ => isFalse id
  | .delete ok | .update ok => inferInstanceAs (Decidable (ok = true))
  | .record _ _ | .swap_delta _ _ | .swap_write_cache _ | .take_sequence _ | .write _
  | .begin_pass _ | .read _ => isTrue trivial

open Figure

namespace Tracking

variable {ι τ : Type} [DecidableEq ι]

/-! ## File names -/

/-- The names in use: sequence numbers below the owner's next one, no two flushes with
one name, and no flush with a name on disk. -/
structure Names (s : Tracking ι τ) : Prop where
  file_lt : ∀ i n, s.files.get? (i, n) ≠ none → n < (s.acc i).flush_sequence
  flight_lt : ∀ t i n, s.flight_name t = some (i, n) → n < (s.acc i).flush_sequence
  flight_free : ∀ t name, s.flight_name t = some name → s.files.get? name = none
  flight_inj : ∀ t t' name, s.flight_name t = some name → s.flight_name t' = some name → t = t'

variable {f : Option (Flush ι)} {s s' : Tracking ι τ} {t : τ} {c : Figure}

theorem Names.shrink (hn : s.Names)
    (hseq : ∀ i, (s.acc i).flush_sequence ≤ (s'.acc i).flush_sequence)
    (hflight : ∀ t name, s'.flight_name t = some name → s.flight_name t = some name)
    (hfiles : ∀ name, s'.files.get? name ≠ none → s.files.get? name ≠ none) : s'.Names where
  file_lt i n hget := (hn.file_lt i n (hfiles _ hget)).trans_le (hseq i)
  flight_lt t i n ht := (hn.flight_lt t i n (hflight t _ ht)).trans_le (hseq i)
  flight_free t name ht := by
    by_contra hget
    exact hfiles name hget (hn.flight_free t name (hflight t name ht))
  flight_inj t t' name ht ht' := hn.flight_inj t t' name (hflight t name ht) (hflight t' name ht')

theorem Names.of_eq (hn : s.Names) (hacc : s'.acc = s.acc) (hflush : s'.flushing = s.flushing)
    (hfiles : s'.files = s.files) : s'.Names := by
  refine hn.shrink (fun i => ?_) (fun t name ht => ?_) (fun name hget => ?_)
  · rw [hacc]
  · rwa [flight_name, hflush] at ht
  · rwa [hfiles] at hget

variable {s : Tracking ι τ} {a : SizeAccumulator}

theorem Names.set_acc (hn : s.Names) (i : ι) (ha : a.flush_sequence = (s.acc i).flush_sequence) :
    (s.set_acc i a).Names := by
  refine hn.shrink (fun j => ?_) (fun _ _ ht => ht) (fun _ hget => hget)
  by_cases hj : j = i
  · simp [Tracking.set_acc, hj, ha]
  · simp [Tracking.set_acc, hj]

variable {e : Event ι τ}

theorem kept_of_faultless (hn : s.Names) (he : e.Faultless) : s.Kept e := by
  cases e with
  | write t => exact hn.flight_free t
  | delete ok => exact he
  | update ok => exact .inl he
  | restart i => exact absurd he id
  | _ => trivial

def Quiet (s : Tracking ι τ) : Prop :=
  (∀ i, (s.acc i).delta = 0 ∧ (s.acc i).write_cache_delta = 0) ∧ (∀ t, s.flushing t = none) ∧
    s.files.entries = [] ∧ s.pass = none

instance [Fintype ι] [Fintype τ] (s : Tracking ι τ) : Decidable s.Quiet :=
  inferInstanceAs (Decidable (_ ∧ _))

omit [DecidableEq ι] in
theorem Quiet.stored (c : Figure) (h : s.Quiet) :
    stored c.of_file s = (s.applied.map c.of_files).sum := by
  obtain ⟨-, -, hfiles, hpass⟩ := h
  have hflat : (s.applied.flatten.map c.of_file).sum = (s.applied.map c.of_files).sum := by
    rw [map_flatten, sum_flatten, List.map_map]
    rfl
  rw [Tracking.stored, hflat]
  simp [Directory.total, hfiles, summed, hpass]

theorem Quiet.names (h : s.Quiet) : s.Names := by
  obtain ⟨-, hflush, hfiles, -⟩ := h
  have hflight : ∀ t, s.flight_name t = none := fun t => by simp [flight_name, hflush]
  have hget : ∀ name, s.files.get? name = none := fun name => by simp [Directory.get?, hfiles]
  exact ⟨fun i n hn => absurd (hget _) hn, fun t i n ht => by simp [hflight] at ht,
    fun t name ht => by simp [hflight] at ht, fun t t' name ht => by simp [hflight] at ht⟩

theorem Quiet.readingOnDisk (h : s.Quiet) : s.ReadingOnDisk := by
  intro p name file hp
  rw [h.2.2.2] at hp
  cases hp

variable [DecidableEq τ]

omit [DecidableEq ι] in
theorem flight_name_set_flush (s : Tracking ι τ) (t : τ) (f : Option (Flush ι)) (t' : τ) :
    (s.set_flush t f).flight_name t' = if t' = t then f.bind Flush.name? else s.flight_name t' := by
  by_cases h : t' = t <;> simp [flight_name, set_flush, h]

theorem Names.set_flush (hn : s.Names) (i : ι) (ha : (s.acc i).flush_sequence = a.flush_sequence)
    (t : τ) (hf : f.bind Flush.name? = none) : ((s.set_acc i a).set_flush t f).Names := by
  refine (hn.set_acc i ha.symm).shrink (fun _ => Nat.le_refl _) (fun t' name ht' => ?_)
    (fun _ hget => hget)
  rw [flight_name_set_flush, hf] at ht'
  split_ifs at ht'
  exact ht'

theorem names_take_sequence (hn : s.Names) (t : τ) (i : ι) (d w : ℤ) :
    ((s.set_acc i { s.acc i with flush_sequence := (s.acc i).flush_sequence + 1 }).set_flush t
      (some (.named i d w (s.acc i).flush_sequence))).Names := by
  have hseq : ∀ j, (s.acc j).flush_sequence ≤
      (Function.update s.acc i { s.acc i with
        flush_sequence := (s.acc i).flush_sequence + 1 } j).flush_sequence := by
    intro j
    by_cases hj : j = i <;> simp [hj]
  -- the name taken has the next number, which no file and no flush has
  have hother : ∀ t', s.flight_name t' ≠ some (i, (s.acc i).flush_sequence) := by
    intro t' ht'
    exact Nat.lt_irrefl _ (hn.flight_lt t' i _ ht')
  refine ⟨fun j n hget => (hn.file_lt j n hget).trans_le (hseq j), ?_, ?_, ?_⟩
  · intro t' j n ht'
    rw [flight_name_set_flush] at ht'
    split at ht'
    · obtain ⟨rfl, rfl⟩ := Prod.mk.inj (Option.some.inj ht')
      simp [Tracking.set_flush, set_acc]
    · exact (hn.flight_lt t' j n ht').trans_le (hseq j)
  · intro t' name ht'
    rw [flight_name_set_flush] at ht'
    split at ht'
    · cases ht'
      by_contra hget
      exact Nat.lt_irrefl _ (hn.file_lt i _ hget)
    · exact hn.flight_free t' name ht'
  · intro t₁ t₂ name h₁ h₂
    rw [flight_name_set_flush] at h₁ h₂
    split at h₁ <;> split at h₂
    · exact ‹t₁ = t›.trans ‹t₂ = t›.symm
    · cases h₁
      exact absurd h₂ (hother t₂)
    · cases h₂
      exact absurd h₁ (hother t₁)
    · exact hn.flight_inj t₁ t₂ name h₁ h₂

theorem names_write (hn : s.Names) {i : ι} {seq : ℕ} (ht : s.flight_name t = some (i, seq))
    (file : DeltaFile) (clock : ℕ) :
    ({ s.set_flush t none with files := s.files.put (i, seq) file, clock := clock } :
      Tracking ι τ).Names := by
  have hflight : ∀ t' name, (s.set_flush t none).flight_name t' = some name →
      t' ≠ t ∧ s.flight_name t' = some name := by
    intro t' name ht'
    rw [flight_name_set_flush] at ht'
    split at ht'
    · cases ht'
    · exact ⟨‹_›, ht'⟩
  refine ⟨?_, fun t' j n ht' => hn.flight_lt t' j n (hflight t' _ ht').2, ?_, ?_⟩
  · intro j n hget
    by_cases hname : (j, n) = (i, seq)
    · obtain ⟨rfl, rfl⟩ := Prod.mk.inj hname
      exact hn.flight_lt t j n ht
    · rw [Directory.get?_put_ne _ hname] at hget
      exact hn.file_lt j n hget
  · intro t' name ht'
    obtain ⟨hne, ht'⟩ := hflight t' name ht'
    have hname : name ≠ (i, seq) := by
      intro heq
      exact hne (hn.flight_inj t' t name ht' (heq ▸ ht))
    rw [Directory.get?_put_ne _ hname]
    exact hn.flight_free t' name ht'
  · intro t₁ t₂ name h₁ h₂
    exact hn.flight_inj t₁ t₂ name (hflight t₁ name h₁).2 (hflight t₂ name h₂).2

theorem names_step (hn : s.Names) (he : e.Faultless) (h : Moves s e s') : s'.Names := by
  cases h with
  | record i op => exact hn.set_acc i AccOp.apply_flush_sequence
  | swap_delta t i hidle | swap_nothing t i ht hw | swap_write_cache t i d ht =>
    exact hn.set_flush i (by rfl) t (by rfl)
  | take_sequence t i d w ht => exact names_take_sequence hn t i d w
  | write t i d w seq ht =>
    exact names_write hn (by simp [flight_name, ht, Flush.name?]) _ _
  | delete p name file hp hread =>
    refine hn.shrink (fun _ => Nat.le_refl _) (fun _ _ ht => ht) (fun name' hget => ?_)
    by_cases hname : name' = name
    · exact absurd (hname ▸ Directory.get?_erase_self) hget
    · rwa [Directory.get?_erase_ne _ hname] at hget
  | write_fails t f ht | restart i => exact absurd he id
  | _ => exact hn.of_eq rfl rfl rfl

/-! ## The size state -/

theorem of_state_step (c : Figure) {start : ℤ} (h : Moves s e s')
    (hs : (c.of_state s.size_state : ℤ) = clamped start (s.applied.map c.of_files)) :
    (c.of_state s'.size_state : ℤ) = clamped start (s'.applied.map c.of_files) := by
  cases h with
  | update ok p hp hidle hok =>
    rw [map_append, map_cons, map_nil, clamped_append, ← hs]
    exact c.of_state_update s.size_state s.summed
  | _ => exact hs

theorem faultless_inv (hs : s.Names ∧ s.ReadingOnDisk) (he : e.Faultless) (h : s.step e = some s') :
    s'.Names ∧ s'.ReadingOnDisk :=
  ⟨names_step hs.1 he (moves_of_step h),
    readingOnDisk_step hs.2 (kept_of_faultless hs.1 he) (moves_of_step h)⟩

omit [DecidableEq τ] in
theorem faultless_inv_set_acc (hs : s.Names ∧ s.ReadingOnDisk) (i : ι)
    (ha : a.flush_sequence = (s.acc i).flush_sequence) :
    (s.set_acc i a).Names ∧ (s.set_acc i a).ReadingOnDisk :=
  ⟨hs.1.set_acc i ha, hs.2⟩

/-! ## Bytes not yet in a file -/

section Sums

variable [Fintype ι] [Fintype τ] (c : Figure)

/-- What is in the accumulators and in the flushes. -/
def unflushed (s : Tracking ι τ) : ℤ :=
  ∑ i, c.of_acc (s.acc i) + ∑ t, (s.flushing t).elim 0 c.of_flush

variable {i : ι} {f : Option (Flush ι)} {t : τ}

omit [DecidableEq τ] in
theorem unflushed_set_acc (s : Tracking ι τ) (i : ι) (a : SizeAccumulator) :
    unflushed c (s.set_acc i a) = unflushed c s - c.of_acc (s.acc i) + c.of_acc a := by
  have hsum := sum_update s.acc i a c.of_acc
  simp only [unflushed, set_acc]
  omega

omit [DecidableEq ι] in
theorem unflushed_set_flush (s : Tracking ι τ) (t : τ) (f : Option (Flush ι)) :
    unflushed c (s.set_flush t f) =
      unflushed c s - (s.flushing t).elim 0 c.of_flush + f.elim 0 c.of_flush := by
  have hsum := sum_update s.flushing t f fun f => f.elim 0 c.of_flush
  simp only [unflushed, set_flush]
  omega

theorem unflushed_transfer
    (h : c.of_acc a + f.elim 0 c.of_flush = c.of_acc (s.acc i) + (s.flushing t).elim 0 c.of_flush) :
    unflushed c ((s.set_acc i a).set_flush t f) = unflushed c s := by
  rw [unflushed_set_flush, unflushed_set_acc]
  simp only [set_acc]
  omega

variable {s s' : Tracking ι τ} {e : Event ι τ}

/-- A step without a restart moves bytes from the accumulators to the flushes and from
there to the file it writes, and adds what it records. -/
theorem unflushed_step (he : ∀ i, e ≠ .restart i) (h : Moves s e s') :
    unflushed c s' + c.of_files (s.written e) = unflushed c s + c.recorded e := by
  cases h with
  | record i op =>
    rw [unflushed_set_acc, of_acc_apply]
    simp only [of_files, written, recorded, map_nil, sum_nil]
    omega
  | swap_delta t i hidle =>
    rw [unflushed_transfer _ (by
      cases c <;> simp [hidle, of_acc, of_flush, Flush.delta, Flush.wc_delta])]
    rfl
  | swap_nothing t i ht hw =>
    rw [unflushed_transfer _ (by
      cases c <;> simp [ht, hw, of_acc, of_flush, Flush.delta, Flush.wc_delta])]
    rfl
  | swap_write_cache t i d ht | take_sequence t i d w ht =>
    rw [unflushed_transfer _ (by
      cases c <;> simp [ht, of_acc, of_flush, Flush.delta, Flush.wc_delta])]
    rfl
  | write t i d w seq ht =>
    have hflush := unflushed_set_flush c s t none
    simp only [unflushed, set_flush] at hflush ⊢
    rw [hflush]
    cases c <;> simp [ht, of_files, written, recorded, of_flush,
      of_file, Flush.delta, Flush.wc_delta]
  | write_fails t f ht =>
    rw [unflushed_transfer _ (by
      cases c <;> simp [ht, of_acc, of_flush])]
    rfl
  | restart i => exact absurd rfl (he i)
  | _ => simp [unflushed, of_files, written, recorded]

omit [DecidableEq ι] [DecidableEq τ] in
theorem Quiet.unflushed {s : Tracking ι τ} (h : s.Quiet) : unflushed c s = 0 := by
  obtain ⟨hacc, hflush, -, -⟩ := h
  have hzero : ∀ i, c.of_acc (s.acc i) = 0 := by
    intro i
    cases c with
    | total => exact (hacc i).1
    | write_cache => exact (hacc i).2
  simp [Tracking.unflushed, hzero, hflush]

theorem conservation_step (hs : s.Names ∧ s.ReadingOnDisk) (he : e.Faultless)
    (h : s.step e = some s') :
    unflushed c s' + stored c.of_file s' = unflushed c s + stored c.of_file s + c.recorded e := by
  have hmoves := moves_of_step h
  have hflush := unflushed_step c (fun i hi => by rw [hi] at he; exact he) hmoves
  have hstore := stored_step c.of_file hs.2 (kept_of_faultless hs.1 he) hmoves
  have hwritten : ((s.written e).map c.of_file).sum = c.of_files (s.written e) := rfl
  omega

/-- **Conservation.** In a faultless run every recorded byte is in an accumulator, in a
flush, in a file, or in the size state. -/
theorem conservation {events : List (Event ι τ)} (hnames : s.Names) (hdisk : s.ReadingOnDisk)
    (hfault : ∀ e ∈ events, e.Faultless) (hrun : run step s events = some s') :
    unflushed c s' + stored c.of_file s' =
      unflushed c s + stored c.of_file s + (events.map c.recorded).sum :=
  run_sum
    (fun s => unflushed c s + stored c.of_file s) c.recorded
    (fun _ _ _ hs he h => faultless_inv hs he h) (fun _ _ _ hs he h => conservation_step c hs he h)
    ⟨hnames, hdisk⟩ (guarded_of_forall hfault) hrun

/-- **The size state once everything is collected.** Each figure is its first value plus
all that was recorded plus the deepest dip below zero of the running sum of the batches,
in the order they were added; so it is the true value exactly if that sum never dips. -/
theorem size_state_when_all_collected {s₀ s : Tracking ι τ} {events : List (Event ι τ)}
    (hstart : s₀.Quiet) (hfresh : s₀.applied = []) (hfault : ∀ e ∈ events, e.Faultless)
    (hrun : run step s₀ events = some s) (hquiet : s.Quiet) (c : Figure) :
    (c.of_state s.size_state : ℤ) =
        c.of_state s₀.size_state + (events.map c.recorded).sum +
          dip (c.of_state s₀.size_state) (s.applied.map c.of_files) ∧
      ((c.of_state s.size_state : ℤ) = c.of_state s₀.size_state + (events.map c.recorded).sum ↔
        ∀ n, 0 ≤ (c.of_state s₀.size_state : ℤ) + ((s.applied.map c.of_files).take n).sum) := by
  have hsum := conservation c hstart.names hstart.readingOnDisk hfault hrun
  rw [hquiet.unflushed, hstart.unflushed, hquiet.stored c, hstart.stored c, hfresh] at hsum
  simp only [map_nil, sum_nil, add_zero, zero_add] at hsum
  have hstate : (c.of_state s.size_state : ℤ) =
      clamped (c.of_state s₀.size_state) (s.applied.map c.of_files) := by
    refine run_invariant
      (fun s => (c.of_state s.size_state : ℤ) =
        clamped (c.of_state s₀.size_state) (s.applied.map c.of_files))
      (fun s e s' hs _ h => of_state_step c (moves_of_step h) hs) ?_ (guarded_of_forall hfault) hrun
    rw [hfresh]
    rfl
  rw [hstate, clamped_eq_add_dip (Int.natCast_nonneg _), hsum]
  refine ⟨rfl, ?_⟩
  rw [← dip_eq_zero_iff]
  omega

/-- Instance 0 records a credit of 10 bytes, instance 1 a debit of 10 bytes. -/
def credit_and_debit : List (Event (Fin 2) (Fin 2)) :=
  [.record 0 (.add 10), .record 1 (.subtract 10)]

/-- Flush and collect, the debit's instance first. -/
def debit_first : List (Event (Fin 2) (Fin 2)) :=
  credit_and_debit ++ flush_events 1 1 (.add 0) ++ collect_events 0 (1, 0) ++
    flush_events 0 0 (.add 0) ++ collect_events 0 (0, 0)

/-- Flush and collect, the credit's instance first. -/
def credit_first : List (Event (Fin 2) (Fin 2)) :=
  credit_and_debit ++ flush_events 0 0 (.add 0) ++ collect_events 0 (0, 0) ++
    flush_events 1 1 (.add 0) ++ collect_events 0 (1, 0)

/-- The true value is 0; collected first, the debit is cut off at zero and 10 bytes stay. -/
theorem debit_collected_first_leaves_its_bytes :
    (debit_first.map total.recorded).sum = 0 ∧
    (run step (init ⟨0, 0⟩) debit_first).map
      (fun s => (s.size_state.total_size, decide s.Quiet)) = some (10, true) ∧
    (run step (init ⟨0, 0⟩) credit_first).map
      (fun s => (s.size_state.total_size, decide s.Quiet)) = some (0, true) := by
  decide

/-- With the credit collected first the total ends at its true value. -/
theorem size_state_after_credit_first :
    ∃ s, run step (init ⟨0, 0⟩) credit_first = some s ∧ s.Quiet ∧
      (total.of_state s.size_state : ℤ) = (credit_first.map total.recorded).sum := by
  obtain ⟨s, hrun⟩ := Option.isSome_iff_exists.mp
    (show (run step (init ⟨0, 0⟩) credit_first).isSome by decide)
  have hend : ∀ s ∈ run step (init ⟨0, 0⟩) credit_first,
      s.Quiet ∧ dip 0 (s.applied.map total.of_files) = 0 := by
    decide
  obtain ⟨hquiet, hdip⟩ := hend s hrun
  have hstate := (size_state_when_all_collected (by decide) rfl (by decide) hrun hquiet .total).1
  refine ⟨s, hrun, hquiet, ?_⟩
  rw [hstate]
  exact (congrArg _ hdip).trans (by decide)

/-! ## Where a figure is heading -/

/-- What is on its way to the size state. -/
def outstanding (s : Tracking ι τ) : ℤ :=
  unflushed c s + s.files.total c.of_file + c.of_files s.summed

def tracked (s : Tracking ι τ) : ℤ :=
  c.of_state s.size_state + outstanding c s

/-- The step does not cut the figure off at zero. -/
def Uncut (s : Tracking ι τ) : Event ι τ → Prop
  | .update _ => 0 ≤ (c.of_state s.size_state : ℤ) + c.of_files s.summed
  | _ => True

instance (s : Tracking ι τ) : (e : Event ι τ) → Decidable (s.Uncut c e)
  | .update _ =>
    inferInstanceAs (Decidable (0 ≤ (c.of_state s.size_state : ℤ) + c.of_files s.summed))
  | .record _ _ | .swap_delta _ _ | .swap_write_cache _ | .take_sequence _ | .write _
  | .write_fails _ | .begin_pass _ | .read _ | .delete _ | .restart _ => isTrue trivial

theorem tracked_step (hs : s.Names ∧ s.ReadingOnDisk) (he : e.Faultless) (hcut : s.Uncut c e)
    (h : s.step e = some s') :
    tracked c s' = tracked c s + c.recorded e := by
  have hall := conservation_step c hs he h
  -- an update moves its batch from one place to the other
  have hstate : (c.of_state s'.size_state : ℤ) - (s'.applied.flatten.map c.of_file).sum =
      c.of_state s.size_state - (s.applied.flatten.map c.of_file).sum := by
    cases moves_of_step h with
    | update ok p hp hidle hok =>
      have hmax := c.of_state_update s.size_state s.summed
      rw [max_eq_right hcut] at hmax
      simp only [flatten_append, map_append, sum_append, flatten_cons,
        flatten_nil, append_nil, hmax]
      simp only [of_files]
      omega
    | _ => rfl
  simp only [tracked, outstanding, stored, of_files] at hall ⊢
  omega

omit [DecidableEq τ] in
theorem tracked_set_acc (s : Tracking ι τ) (i : ι) (a : SizeAccumulator) :
    tracked c (s.set_acc i a) = tracked c s - c.of_acc (s.acc i) + c.of_acc a := by
  have hacc := unflushed_set_acc c s i a
  simp only [tracked, outstanding] at hacc ⊢
  rw [hacc]
  simp only [set_acc, summed]
  omega

omit [DecidableEq ι] [DecidableEq τ] in
theorem Quiet.tracked {s : Tracking ι τ} (h : s.Quiet) : tracked c s = c.of_state s.size_state := by
  have hflush := h.unflushed c
  obtain ⟨-, -, hfiles, hpass⟩ := h
  simp [Tracking.tracked, outstanding, hflush, Directory.total, hfiles, summed, hpass, of_files]

end Sums

end Tracking

end HybridCache.SizeTracking
