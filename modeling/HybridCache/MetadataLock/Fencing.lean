/-
The fence epoch of the metadata lock (`try_acquire_lock_once`, `break_stale_lock` and
`refresh_heartbeat` in `metadata_lock_manager.rs`), one call after another.

Only a lock file of another host is overwritten with the next epoch. Whoever finds the file not
locked, or deletes it as one of the own host, starts again at zero, and a release unlinks the file
and its epoch with it. So an epoch comes back.

Whether a call finds the file locked is left open, since the lock of a remote host may be lost.
-/
import HybridCache.MetadataLock.Protocol

namespace HybridCache.MetadataLock

open Lib

structure FenceState (ω η : Type) where
  file : Option (LockFileContent η)
  holders : List (ω × ℕ)

/-- What a call meets that finds the file locked: the clock, the age of the file, the processes
that are alive, and the reads that fail. -/
structure Contention where
  now : ℕ
  modified : ℕ
  alive : ℕ → Bool
  check_fails : Bool
  break_fails : Bool
  epoch_fails : Bool

inductive FenceEvent (ω : Type) where
  | acquire (w : ω) (now : ℕ) (fails : Bool)
  | contend (w : ω) (c : Contention) (fails : Bool)
  | release
  | refresh (epoch now : ℕ)

namespace FenceState

variable {ω η : Type} [DecidableEq η] (metadata_lock_timeout_ms : ℕ) (hostname : ω → η)
  (pid : ω → ℕ)

def init : FenceState ω η :=
  ⟨none, []⟩

/-- The content is written, and the lock returned unless there is an error. -/
def write_and_verify (s : FenceState ω η) (w : ω) (now epoch : ℕ) (fails : Bool) :
    FenceState ω η where
  file := some ⟨hostname w, pid w, now, epoch⟩
  holders := if fails then s.holders else (w, epoch) :: s.holders

def read (s : FenceState ω η) (fails : Bool) : Option (LockText η) :=
  if fails then none else s.file.map .written

def stale (s : FenceState ω η) (w : ω) (c : Contention) : Bool :=
  is_lock_stale metadata_lock_timeout_ms (hostname w) c.alive c.now c.modified
    (s.read c.check_fails)

def refresh_heartbeat (s : FenceState ω η) (epoch now : ℕ) : Option (FenceState ω η) :=
  s.file.bind fun lock_info =>
    if lock_info.fence_epoch = epoch then
      some { s with file := some { lock_info with acquired_at_ms := now } }
    else none

def step (s : FenceState ω η) : FenceEvent ω → Option (FenceState ω η)
  | .acquire w now fails => some (s.write_and_verify hostname pid w now 0 fails)
  | .contend w c fails =>
    if s.stale metadata_lock_timeout_ms hostname w c then
      match takeover (hostname w) (s.read c.break_fails) with
      | some epoch =>
        -- the epoch that was written is read again, and is zero if that fails
        some (s.write_and_verify hostname pid w c.now (if c.epoch_fails then 0 else epoch) fails)
      | none =>
        if s.file.isNone then some s else some (s.write_and_verify hostname pid w c.now 0 fails)
    else some s
  | .release => some { s with file := none }
  | .refresh epoch now => some ((s.refresh_heartbeat epoch now).getD s)

/-- Whoever comes after the first takes the lock over from another host, and reads its epoch. -/
def TakenOver (s : FenceState ω η) : FenceEvent ω → Prop
  | .acquire _ _ _ => s.holders = []
  | .contend w c _ => s.stale metadata_lock_timeout_ms hostname w c = true →
      s.holders = [] ∨ c.epoch_fails = false ∧ (takeover (hostname w) (s.read c.break_fails)).isSome
  | _ => True

/-- The epochs of the holders increase, up to the one in the file. -/
structure Fenced (s : FenceState ω η) : Prop where
  increasing : s.holders.Pairwise fun later earlier => earlier.2 < later.2
  file : ∀ lock_info, s.file = some lock_info → ∀ holder ∈ s.holders,
    holder.2 ≤ lock_info.fence_epoch

section Steps

variable {metadata_lock_timeout_ms hostname pid} {s s' : FenceState ω η} {w : ω} {now epoch : ℕ}
  {fails : Bool}

omit [DecidableEq η] in
theorem Fenced.write_and_verify (h : s.Fenced) (hepoch : ∀ holder ∈ s.holders, holder.2 < epoch) :
    (s.write_and_verify hostname pid w now epoch fails).Fenced := by
  unfold FenceState.write_and_verify
  cases fails with
  | true =>
    refine ⟨h.increasing, ?_⟩
    rintro _ ⟨⟩ holder hholder
    exact (hepoch holder hholder).le
  | false =>
    refine ⟨List.pairwise_cons.mpr ⟨hepoch, h.increasing⟩, ?_⟩
    rintro _ ⟨⟩ holder hholder
    rcases List.mem_cons.mp hholder with rfl | hholder
    · exact le_rfl
    · exact (hepoch holder hholder).le

theorem epoch_of_takeover {unreadable : Bool}
    (h : takeover (hostname w) (s.read unreadable) = some epoch) :
    ∃ lock_info, s.file = some lock_info ∧ epoch = lock_info.fence_epoch + 1 := by
  unfold takeover read at h
  split_ifs at h
  · cases h
  cases hfile : s.file with
  | none =>
    rw [hfile] at h
    cases h
  | some lock_info =>
    rw [hfile] at h
    obtain ⟨content, hcontent, h⟩ := Option.bind_eq_some_iff.mp h
    cases hcontent
    split_ifs at h
    exact ⟨lock_info, rfl, (Option.some.inj h).symm⟩

theorem Fenced.step {event : FenceEvent ω} (h : s.Fenced)
    (htaken : s.TakenOver metadata_lock_timeout_ms hostname event)
    (hstep : s.step metadata_lock_timeout_ms hostname pid event = some s') : s'.Fenced := by
  cases event with
  | acquire w now fails =>
    cases hstep
    have hfirst : s.holders = [] := htaken
    exact h.write_and_verify (by simp [hfirst])
  | contend w c fails =>
    simp only [FenceState.step] at hstep
    split at hstep
    · rename_i hstale
      have htaken := htaken hstale
      split at hstep
      · rename_i epoch htakeover
        obtain ⟨lock_info, hfile, rfl⟩ := epoch_of_takeover htakeover
        cases hstep
        rcases htaken with hfirst | ⟨hread, -⟩
        · exact h.write_and_verify (by simp [hfirst])
        · rw [hread]
          exact h.write_and_verify fun holder hholder =>
            Nat.lt_succ_of_le (h.file lock_info hfile holder hholder)
      · rename_i htakeover
        have hfirst : s.holders = [] := htaken.resolve_right (by simp [htakeover])
        split_ifs at hstep
        · cases hstep
          exact h
        · cases hstep
          exact h.write_and_verify (by simp [hfirst])
    · cases hstep
      exact h
  | release =>
    cases hstep
    refine ⟨h.increasing, fun lock_info hfile => ?_⟩
    cases hfile
  | refresh epoch now =>
    cases hstep
    unfold refresh_heartbeat
    cases hfile : s.file with
    | none => exact h
    | some lock_info =>
      by_cases hepoch : lock_info.fence_epoch = epoch
      · rw [Option.bind_some, if_pos hepoch]
        refine ⟨h.increasing, ?_⟩
        rintro _ ⟨⟩
        exact h.file lock_info hfile
      · rw [Option.bind_some, if_neg hepoch]
        exact h

end Steps

omit [DecidableEq η] in
theorem fenced_init : (init : FenceState ω η).Fenced := by
  refine ⟨List.Pairwise.nil, fun lock_info hfile => ?_⟩
  cases hfile

/-- **Fencing**, in every run in which whoever comes after the first holder takes the lock over
from another host: the epochs of the holders increase, and no heartbeat of a superseded one is
refreshed. -/
theorem fenced_of_taken_over (events : List (FenceEvent ω)) (s : FenceState ω η)
    (hrun : run (step metadata_lock_timeout_ms hostname pid) init events = some s)
    (htaken : Guarded (step metadata_lock_timeout_ms hostname pid)
      (TakenOver metadata_lock_timeout_ms hostname) init events) :
    s.holders.Pairwise (fun later earlier => earlier.2 < later.2) ∧
      ∀ holder ∈ s.holders.tail, ∀ now, s.refresh_heartbeat holder.2 now = none := by
  have hfenced : s.Fenced :=
    run_invariant Fenced (fun _ _ _ h htaken hstep => h.step htaken hstep)
      fenced_init htaken hrun
  refine ⟨hfenced.increasing, fun holder hholder now => ?_⟩
  have hincreasing := hfenced.increasing
  have hlast := hfenced.file
  unfold refresh_heartbeat
  cases hfile : s.file with
  | none => rfl
  | some lock_info =>
    cases hholders : s.holders with
    | nil =>
      rw [hholders] at hholder
      cases hholder
    | cons last rest =>
      rw [hholders] at hholder hincreasing hlast
      have hlt := (List.pairwise_cons.mp hincreasing).1 holder hholder
      have hle := hlast lock_info hfile last List.mem_cons_self
      rw [Option.bind_some, if_neg (by omega)]

end FenceState

section Samples

open FenceState

def late_heartbeat : Contention :=
  ⟨100, 0, fun _ => true, false, false, false⟩

theorem takeover_fenced :
    ∃ s, run (FenceState.step 10 (fun w : ℕ => w) fun _ => 1) FenceState.init
        [.acquire 0 0 false, .contend 1 late_heartbeat false] = some s ∧
      s.holders = [(1, 1), (0, 0)] ∧ s.refresh_heartbeat 0 7 = none := by
  refine ⟨_, rfl, rfl, ?_⟩
  refine (fenced_of_taken_over 10 (fun w : ℕ => w) (fun _ => 1) [.acquire 0 0 false,
    .contend 1 late_heartbeat false] _ rfl ?_).2 (0, 0) List.mem_cons_self 7
  refine ⟨rfl, ?_⟩
  rintro _ ⟨⟩
  exact ⟨fun _ => .inr ⟨rfl, rfl⟩, fun _ _ => trivial⟩

/-- Host 1 cannot read the file and deletes it: the epoch is 0 again, and the heartbeat of host 0 is
refreshed in the file of host 1. A release and a new acquisition repeat the epoch as well. -/
theorem superseded_heartbeat_refreshed :
    (∃ s s', run (FenceState.step 10 (fun w : ℕ => w) fun _ => 1) FenceState.init
        [.acquire 0 0 false,
          .contend 1 { late_heartbeat with check_fails := true, break_fails := true } false] =
          some s ∧
      s.holders = [(1, 0), (0, 0)] ∧ s.refresh_heartbeat 0 102 = some s' ∧
      s'.file = some ⟨1, 1, 102, 0⟩) ∧
    ∃ s, run (FenceState.step 10 (fun w : ℕ => w) fun _ => 1) FenceState.init
        [.acquire 0 0 false, .release, .acquire 2 101 false] = some s ∧
      s.holders = [(2, 0), (0, 0)] :=
  ⟨⟨_, _, rfl, rfl, rfl, rfl⟩, _, rfl, rfl⟩

end Samples

end HybridCache.MetadataLock
