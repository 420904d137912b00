/-
Where a delta file goes after it has been written (`write_delta_file`, `collect_and_apply_deltas`,
`atomic_update_size_delta`): it is on disk, then in the sum of a collection pass, then in the size
state. `stored` adds any measure of files over these three places, and every file is in exactly one
of them all along a run exactly if every step meets `Kept`.
-/
import HybridCache.SizeTracking.Tracking

namespace HybridCache.SizeTracking

open Lib List

namespace Tracking

variable {ι τ : Type}

/-! ## The places a file can be in -/

/-- Files written and not yet in the size state. -/
def pending (s : Tracking ι τ) : List DeltaFile :=
  s.files.entries.map Prod.snd ++ s.summed

/-- Every file written so far (they are stamped in order) is waiting or has been added
to the size state, and that once. -/
def ExactlyOnce (s : Tracking ι τ) : Prop :=
  ((s.pending ++ s.applied.flatten).map DeltaFile.timestamp).Perm (List.range s.clock)

instance (s : Tracking ι τ) : Decidable s.ExactlyOnce :=
  inferInstanceAs (Decidable (List.Perm _ _))

/-- A measure of files, added up over all places. -/
def stored {M : Type} [AddCommMonoid M] (m : DeltaFile → M) (s : Tracking ι τ) : M :=
  s.files.total m + (s.summed.map m).sum + (s.applied.flatten.map m).sum

variable {s s' : Tracking ι τ} {e : Event ι τ} (state : SizeState)

theorem sum_stamps (files : List DeltaFile) :
    (files.map fun f => ({f.timestamp} : Multiset ℕ)).sum =
      (files.map DeltaFile.timestamp : List ℕ) := by
  induction files with
  | nil => rfl
  | cons f rest ih => rw [map_cons, sum_cons, ih]; rfl

theorem stored_eq_sum {M : Type} [AddCommMonoid M] (m : DeltaFile → M) (s : Tracking ι τ) :
    stored m s = ((s.pending ++ s.applied.flatten).map m).sum := by
  have htotal : s.files.total m = ((s.files.entries.map Prod.snd).map m).sum := by
    rw [List.map_map]
    rfl
  simp only [stored, pending, map_append, sum_append, htotal]

theorem exactlyOnce_iff_stored :
    s.ExactlyOnce ↔ stored (fun f => ({f.timestamp} : Multiset ℕ)) s =
      (List.range s.clock : Multiset ℕ) := by
  rw [stored_eq_sum, sum_stamps, Multiset.coe_eq_coe]
  rfl

theorem ExactlyOnce.stored_one (h : s.ExactlyOnce) : stored (fun _ => 1) s = s.clock := by
  have hlen := h.length_eq
  rw [length_map, length_range] at hlen
  rw [stored_eq_sum, ← hlen, map_const', sum_replicate, smul_eq_mul, mul_one]

theorem exactlyOnce_init : (init state : Tracking ι τ).ExactlyOnce := by
  simp [ExactlyOnce, init, pending, summed, Directory.empty]

variable [DecidableEq ι]

/-- The file a pass has just read is still there. -/
def ReadingOnDisk (s : Tracking ι τ) : Prop :=
  ∀ p name file, s.pass = some p → p.reading = some (name, file) → s.files.get? name = some file

theorem readingOnDisk_init : (init state : Tracking ι τ).ReadingOnDisk := by
  intro p name file hp
  cases hp

def written (s : Tracking ι τ) : Event ι τ → List DeltaFile
  | .write t =>
    match s.flushing t with
    | some (.named _ d w _) => [⟨d, w, s.clock⟩]
    | _ => []
  | _ => []

/-- A step that loses no file and counts none twice: a flush writes under a name that is
not taken, a collected file does get deleted, an update of the size state that has
something to add succeeds, and no process stops between deleting files and updating. -/
def Kept (s : Tracking ι τ) : Event ι τ → Prop
  | .write t => ∀ name ∈ s.flight_name t, s.files.get? name = none
  | .delete ok => ok = true
  | .update ok => ok = true ∨ sum_delta s.summed = 0 ∧ sum_write_cache_delta s.summed = 0
  | .restart i => ∀ p ∈ s.pass, p.holder = i → p.summed = []
  | _ => True

instance (s : Tracking ι τ) : (e : Event ι τ) → Decidable (s.Kept e)
  | .write t => inferInstanceAs (Decidable (∀ name ∈ s.flight_name t, s.files.get? name = none))
  | .delete ok => inferInstanceAs (Decidable (ok = true))
  | .update ok => inferInstanceAs (Decidable
      (ok = true ∨ sum_delta s.summed = 0 ∧ sum_write_cache_delta s.summed = 0))
  | .restart i => inferInstanceAs (Decidable (∀ p ∈ s.pass, p.holder = i → p.summed = []))
  | .record _ _ | .swap_delta _ _ | .swap_write_cache _ | .take_sequence _ | .write_fails _
  | .begin_pass _ | .read _ => isTrue trivial

/-! ## One step -/

variable [DecidableEq τ]

theorem readingOnDisk_step (hdisk : s.ReadingOnDisk) (hkept : s.Kept e) (h : Moves s e s') :
    s'.ReadingOnDisk := by
  intro p' name' file' hp' hread'
  cases h with
  | record | swap_delta | swap_nothing | swap_write_cache | take_sequence | write_fails
  | read_zero =>
    exact hdisk p' name' file' hp' hread'
  | write t i d w seq ht =>
    have hthere := hdisk p' name' file' hp' hread'
    have hfree := hkept (i, seq) (by simp [flight_name, ht, Flush.name?])
    -- the name being read is taken, so it is not the one written
    have hne : name' ≠ (i, seq) := by
      intro heq
      rw [heq, hfree] at hthere
      cases hthere
    rw [← hthere]
    exact Directory.get?_put_ne _ hne
  | begin_pass i hfree | delete p name file hp hread | delete_fails p name file hp hread =>
    cases hp'
    cases hread'
  | read name p file hp hidle hfile =>
    cases hp'
    obtain ⟨rfl, rfl⟩ := Prod.mk.inj (Option.some.inj hread')
    exact hfile
  | update ok p hp hidle hok | update_fails p hp hidle hsum => cases hp'
  | restart i =>
    exact hdisk p' name' file' (Option.filter_eq_some_iff.mp hp').1 hread'

section Measure

variable {M : Type} [AddCommMonoid M] (m : DeltaFile → M)

/-- **A kept step only adds the file it writes.** -/
theorem stored_step {s s' : Tracking ι τ} {e : Event ι τ} (hdisk : s.ReadingOnDisk)
    (hkept : s.Kept e) (h : Moves s e s') :
    stored m s' = stored m s + ((s.written e).map m).sum := by
  cases h with
  | record | swap_delta | swap_nothing | swap_write_cache | take_sequence | write_fails
  | read_zero =>
    simp [stored, written, summed, set_acc, set_flush]
  | write t i d w seq ht =>
    have hput := Directory.total_put m s.files (i, seq) ⟨d, w, s.clock⟩
    rw [Directory.measure_of_none m (hkept (i, seq) (by simp [flight_name, ht, Flush.name?])),
      add_zero] at hput
    have hwritten : s.written (.write t) = [⟨d, w, s.clock⟩] := by simp [written, ht]
    rw [hwritten]
    simp only [stored, summed, set_flush, hput, map_cons, map_nil, sum_cons, sum_nil, add_zero]
    ac_rfl
  | begin_pass i hfree =>
    simp [stored, written, summed, hfree]
  | read name p file hp hidle hfile =>
    simp [stored, written, summed, hp]
  | delete p name file hp hread =>
    -- what goes off disk is what goes into the sum
    have herase := Directory.total_erase m s.files name
    rw [Directory.measure_of_get? m (hdisk p name file hp hread)] at herase
    simp only [stored, written, summed, hp, Option.elim_some, ← herase, map_append,
      sum_append, map_cons, map_nil, sum_cons, sum_nil, add_zero]
    ac_rfl
  | delete_fails p name file hp hread => cases hkept
  | update ok p hp hidle hok =>
    simp only [stored, written, summed_of_pass hp,
      flatten_append, flatten_cons, flatten_nil, append_nil, map_append,
      sum_append, map_nil, sum_nil, add_zero]
    ac_rfl
  | update_fails p hp hidle hsum =>
    rcases hkept with hok | ⟨hd, hw⟩
    · cases hok
    · exact absurd hsum (by simp [hd, hw])
  | restart i =>
    have hsummed : (s.restarted i).summed = s.summed := by
      rw [summed_restarted]
      split
      · obtain ⟨p, hp, hi⟩ := ‹∃ p, s.pass = some p ∧ p.holder = i›
        rw [summed_of_pass hp, hkept p hp hi]
      · rfl
    rw [stored, hsummed]
    simp [stored, written, restarted]

end Measure

theorem range_clock_step (h : Moves s e s') :
    List.range s'.clock = List.range s.clock ++ (s.written e).map DeltaFile.timestamp := by
  cases h with
  | write t i d w seq ht => simp [written, ht, range_succ]
  | _ => simp [written, set_acc, set_flush, restarted]

/-! ## Exactly once -/

theorem exactlyOnce_step (honce : s.ExactlyOnce) (hdisk : s.ReadingOnDisk) (hkept : s.Kept e)
    (h : Moves s e s') : s'.ExactlyOnce := by
  rw [exactlyOnce_iff_stored] at honce ⊢
  rw [stored_step _ hdisk hkept h, honce, sum_stamps, range_clock_step h]
  exact Multiset.coe_add _ _

theorem kept_of_exactlyOnce (honce : s.ExactlyOnce) (h : Moves s e s') (honce' : s'.ExactlyOnce) :
    s.Kept e := by
  have hcount := honce.stored_one
  have hcount' := honce'.stored_one
  cases h with
  | write t i d w seq ht =>
    intro name hname
    obtain rfl : (i, seq) = name := by simpa [flight_name, ht, Flush.name?] using hname
    by_contra hsome
    obtain ⟨file, hfile⟩ := Option.ne_none_iff_exists'.mp hsome
    have hput := Directory.total_put (fun _ => 1) s.files (i, seq) ⟨d, w, s.clock⟩
    rw [Directory.measure_of_get? _ hfile] at hput
    simp only [stored, summed, set_flush] at hcount hcount'
    omega
  | delete p name file hp hread => rfl
  | delete_fails p name file hp hread =>
    simp only [stored, summed, hp, Option.elim_some, map_append, sum_append,
      map_cons, map_nil, sum_cons, sum_nil] at hcount hcount'
    omega
  | update ok p hp hidle hok => exact hok
  | update_fails p hp hidle hsum =>
    -- something was summed up, and it is in no place any more
    have hlen : (s.summed.map fun _ => 1).sum ≠ 0 := by
      intro hzero
      have hnil : s.summed = [] := by simpa using hzero
      simp [hnil, sum_delta, sum_write_cache_delta] at hsum
    have hnone : ({ s with pass := none } : Tracking ι τ).summed = [] := rfl
    simp only [stored, hnone, map_nil, sum_nil] at hcount hcount'
    omega
  | restart i =>
    intro p hp hi
    have hgone : (s.restarted i).summed = [] := by
      rw [summed_restarted, if_pos ⟨p, hp, hi⟩]
    rw [stored, hgone] at hcount'
    simp only [stored, summed_of_pass hp, restarted, map_nil, sum_nil] at hcount hcount'
    have hzero : (p.summed.map fun _ => 1).sum = 0 := by omega
    simpa using hzero
  | _ => trivial

/-- **Exactly-once delivery.** All along a run, every delta file flushed so far is waiting
or has been added to the size state, exactly once, if and only if every step of the run
meets `Kept`. -/
theorem delta_files_counted_exactly_once_iff {state : SizeState} {events : List (Event ι τ)}
    {s : Tracking ι τ} (hrun : run step (init state) events = some s) :
    (∀ n s', run step (init state) (events.take n) = some s' → s'.ExactlyOnce) ↔
      Guarded step Kept (init state) events := by
  refine run_forall_iff_guarded (fun s => s.ExactlyOnce ∧ s.ReadingOnDisk) ExactlyOnce
    (fun s h => h.1) ?_ ?_ ⟨exactlyOnce_init state, readingOnDisk_init state⟩ hrun
  · rintro s e s' ⟨honce, hdisk⟩ hkept hs
    have hmoves := moves_of_step hs
    exact ⟨exactlyOnce_step honce hdisk hkept hmoves, readingOnDisk_step hdisk hkept hmoves⟩
  · rintro s e s' ⟨honce, hdisk⟩ hs honce'
    exact kept_of_exactlyOnce honce (moves_of_step hs) honce'

def flush_events (i : ι) (t : τ) (op : AccOp) : List (Event ι τ) :=
  [.record i op, .swap_delta t i, .swap_write_cache t, .take_sequence t, .write t]

def collect_events (i : ι) (name : ι × ℕ) : List (Event ι τ) :=
  [.begin_pass i, .read name, .delete true, .update true]

/-- A restarted process gives its first file the name it gave its first file before: 100
bytes flushed, a restart, 7 bytes flushed, one collection. -/
theorem flush_after_restart_loses_a_delta_file :
    (run step (init ⟨0, 0⟩ : Tracking (Fin 1) (Fin 1))
      (flush_events 0 0 (.add 100) ++ [Event.restart 0] ++ flush_events 0 0 (.add 7) ++
        collect_events 0 (0, 0))).map (fun s =>
      (s.clock, s.pending, s.applied, s.size_state.total_size, decide s.ExactlyOnce)) =
      some (2, [], [[⟨7, 0, 1⟩]], 7, false) := by
  decide

/-- 100 bytes flushed and collected, a restart, 7 bytes flushed under the first file's name. -/
def restart_after_collection : List (Event (Fin 1) (Fin 1)) :=
  flush_events 0 0 (.add 100) ++ collect_events 0 (0, 0) ++ [.restart 0] ++
    flush_events 0 0 (.add 7)

/-- A restart once the file has been collected is harmless. -/
theorem delta_files_counted_exactly_once_across_restart :
    Guarded step Kept (init ⟨0, 0⟩) restart_after_collection ∧
      ∀ n s', run step (init ⟨0, 0⟩) (restart_after_collection.take n) = some s' →
        s'.ExactlyOnce :=
  have hkept : Guarded step Kept (init ⟨0, 0⟩) restart_after_collection := by decide
  ⟨hkept, (delta_files_counted_exactly_once_iff rfl).mpr hkept⟩

end Tracking

end HybridCache.SizeTracking
