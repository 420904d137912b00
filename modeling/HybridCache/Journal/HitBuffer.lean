/-
The buffer of cache-hit updates (`cache_hit_update_buffer.rs`).

A flush takes the whole buffer before it touches the disk, and updates go on being recorded while it
writes. If the directory cannot be made, it puts back what it took, behind those; what it fails to
sync stays in the file, and what it fails to write it has lost.

`υ` are the updates. `serializes` says which of them become a line of the journal.
-/
import HybridCache.Lib.Transition

namespace HybridCache.Journal

open Lib List

/-- `CacheHitUpdateBuffer`, with what the flush under way has taken, the lines appended to the
journal file, and those of them that a sync has made durable. -/
structure CacheHitUpdateBuffer (υ : Type) where
  buffer : List υ
  taken : Option (List υ)
  journal : List υ
  durable : List υ

/-- What fails first in a flush. A write may leave some of the lines. -/
inductive FlushFault where
  | nothing
  | create_dir_all
  | open_file
  | write_all (lines : ℕ)
  | sync_data

inductive HitEvent (υ : Type) where
  | add_to_buffer (update : υ)
  | flush
  | flushed (fault : FlushFault)

namespace CacheHitUpdateBuffer

variable {υ : Type}

def new : CacheHitUpdateBuffer υ := ⟨[], none, [], []⟩

variable (serializes : υ → Bool)

/-- The rest of `flush`, once it has taken the entries. -/
def finish (b : CacheHitUpdateBuffer υ) (entries : List υ) (fault : FlushFault) :
    CacheHitUpdateBuffer υ :=
  let content := entries.filter serializes
  let b := { b with taken := none }
  match fault with
  | .create_dir_all => { b with buffer := b.buffer ++ entries }
  | .open_file => b
  | .write_all lines => { b with journal := b.journal ++ content.take lines }
  | .sync_data => { b with journal := b.journal ++ content }
  | .nothing => { b with journal := b.journal ++ content, durable := b.journal ++ content }

/-- A flush is skipped while another is under way, and ends at once if nothing is buffered. -/
def step (b : CacheHitUpdateBuffer υ) : HitEvent υ → Option (CacheHitUpdateBuffer υ)
  | .add_to_buffer update => some { b with buffer := b.buffer ++ [update] }
  | .flush =>
    if b.taken.isSome ∨ b.buffer = [] then some b
    else some { b with buffer := [], taken := some b.buffer }
  | .flushed fault => b.taken.map fun entries => b.finish serializes entries fault

/-- The updates that have been recorded. -/
def recorded (events : List (HitEvent υ)) : List υ :=
  events.flatMap fun | .add_to_buffer update => [update] | _ => []

def held (b : CacheHitUpdateBuffer υ) : List υ := b.buffer ++ (b.taken.getD [] ++ b.journal)

/-- The update can be written as a line, and the file can be opened and written to. -/
def Writable : HitEvent υ → Prop
  | .add_to_buffer update => serializes update = true
  | .flushed fault => fault = .nothing ∨ fault = .create_dir_all ∨ fault = .sync_data
  | .flush => True

variable {serializes} {b b' : CacheHitUpdateBuffer υ}

theorem finish_held {entries : List υ} {fault : FlushFault} (htaken : b.taken = some entries)
    (hserializes : ∀ u ∈ entries, serializes u = true)
    (hfault : fault = .nothing ∨ fault = .create_dir_all ∨ fault = .sync_data) :
    (b.finish serializes entries fault).held.Perm b.held := by
  have hcontent : entries.filter serializes = entries := filter_eq_self.mpr hserializes
  have hheld : b.held = b.buffer ++ (entries ++ b.journal) := by rw [held, htaken, Option.getD_some]
  have hwritten : (b.buffer ++ (b.journal ++ entries.filter serializes)).Perm b.held := by
    rw [hheld, hcontent]
    exact perm_append_comm.append_left _
  rcases hfault with rfl | rfl | rfl
  · exact hwritten
  · rw [hheld, ← append_assoc]
    rfl
  · exact hwritten

theorem step_held {past : List (HitEvent υ)} {event : HitEvent υ}
    (hinv : (recorded past).Perm b.held ∧ ∀ u ∈ recorded past, serializes u = true)
    (hwritable : Writable serializes event) (h : b.step serializes event = some b') :
    (recorded (past ++ [event])).Perm b'.held ∧
      ∀ u ∈ recorded (past ++ [event]), serializes u = true := by
  obtain ⟨hperm, hserializes⟩ := hinv
  have hmore : recorded (past ++ [event]) = recorded past ++ recorded [event] := flatMap_append
  rw [hmore]
  cases event with
  | add_to_buffer update =>
    cases h
    refine ⟨(hperm.append_right [update]).trans ?_, fun u hu => ?_⟩
    · have hswap := @List.perm_append_comm _ (b.taken.getD [] ++ b.journal) [update]
      simpa only [held, append_assoc] using hswap.append_left b.buffer
    · rcases mem_append.mp hu with hu | hu
      · exact hserializes u hu
      · exact mem_singleton.mp hu ▸ hwritable
  | flush =>
    rw [show recorded [(.flush : HitEvent υ)] = [] from rfl, append_nil]
    refine ⟨?_, hserializes⟩
    simp only [step] at h
    split at h
    · cases h
      exact hperm
    · rename_i hidle
      cases h
      have hnone : b.taken = none := by simpa using fun h => hidle (.inl h)
      simpa [held, hnone] using hperm
  | flushed fault =>
    obtain ⟨entries, htaken, rfl⟩ := Option.map_eq_some_iff.mp h
    have hentries : ∀ u ∈ entries, serializes u = true := by
      intro u hu
      apply hserializes u
      rw [hperm.mem_iff, held, htaken]
      exact mem_append_right _ (mem_append_left _ hu)
    rw [show recorded [(.flushed fault : HitEvent υ)] = [] from rfl, append_nil]
    exact ⟨hperm.trans (finish_held htaken hentries hwritable).symm, hserializes⟩

/-- **No update is lost** while updates can be written as lines and the file can be opened and
written to: each that was recorded is in the buffer, in the flush under way, or in the journal, and
a flush without a fault writes all that is buffered. -/
theorem updates_kept {events : List (HitEvent υ)} (hrun : run (step serializes) new events = some b)
    (hwritable : ∀ event ∈ events, Writable serializes event) :
    (recorded events).Perm (b.buffer ++ (b.taken.getD [] ++ b.journal)) ∧
      (b.taken = none → b.buffer ≠ [] →
        ∃ b', run (step serializes) b [.flush, .flushed .nothing] = some b' ∧ b'.buffer = [] ∧
          b'.durable = b.journal ++ b.buffer) := by
  obtain ⟨hperm, hserializes⟩ := run_invariant_past
    (fun past b => (recorded past).Perm (held b) ∧ ∀ u ∈ recorded past, serializes u = true)
    (fun _ _ _ _ => step_held) ⟨List.Perm.refl _, fun u hu => absurd hu (not_mem_nil)⟩
    (guarded_of_forall hwritable) hrun
  refine ⟨hperm, fun hidle hne => ?_⟩
  have hcontent : b.buffer.filter serializes = b.buffer := by
    refine filter_eq_self.mpr fun u hu => hserializes u ?_
    rw [hperm.mem_iff]
    exact mem_append_left _ hu
  have hflush : b.step serializes .flush = some { b with buffer := [], taken := some b.buffer } :=
    if_neg (by simp [hidle, hne])
  refine ⟨_, run_cons.mpr ⟨_, hflush, rfl⟩, rfl, ?_⟩
  exact congrArg (b.journal ++ ·) hcontent

theorem updates_kept_past_faults : ∃ b,
    run (step fun _ => true) new [.add_to_buffer 1, .flush, .add_to_buffer 2,
      .flushed .create_dir_all, .flush, .flushed .sync_data] = some b ∧
    [1, 2].Perm (b.buffer ++ (b.taken.getD [] ++ b.journal)) := by
  refine ⟨⟨[], none, [2, 1], []⟩, rfl, ?_⟩
  exact (@updates_kept _ (fun _ => true) _ [.add_to_buffer 1, .flush, .add_to_buffer 2,
    .flushed .create_dir_all, .flush, .flushed .sync_data] rfl (by simp [Writable])).1

/-- After a failed sync the update is neither durable nor buffered. -/
theorem unsynced_update_leaves_buffer : ∃ b,
    run (step fun _ => true) new [.add_to_buffer 1, .flush, .flushed .sync_data] = some b ∧
      1 ∉ b.durable ∧ 1 ∉ b.buffer :=
  ⟨_, rfl, by decide, by decide⟩

end CacheHitUpdateBuffer

end HybridCache.Journal
