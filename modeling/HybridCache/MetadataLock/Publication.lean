/-
The publication of a multipart upload under the metadata lock (`finalize_multipart_upload` in
`signed_put_handler.rs`, and `invalidate_cache_hierarchy` in `cache.rs`).

Finalization acquires the lock, invalidates what is cached, moves the part files, renames the new
`.meta` into place, and drops the lock. But invalidation of a record that it can read deletes the
`.meta` and then the `meta.lock` beside it, which is the file that finalization has locked.
-/
import HybridCache.MetadataLock.Protocol

namespace HybridCache.MetadataLock

open Lib

inductive PublicationStage where
  | other
  | acquiring
  | deleting_meta
  | deleting_lock
  /-- Part files are moved, and the new record is written beside the `.meta`. -/
  | moving
  | published
deriving DecidableEq, Repr

/-- From the acquisition to the rename. -/
def PublicationStage.unpublished : PublicationStage → Bool
  | .other | .published => false
  | .acquiring | .deleting_meta | .deleting_lock | .moving => true

def PublicationStage.deletes : PublicationStage → Bool
  | .deleting_meta | .deleting_lock => true
  | .other | .acquiring | .moving | .published => false

/-- The lock of a key, its `.meta`, and the finalizations. -/
structure PublicationState (ω η : Type) where
  locks : LockState ω η
  /-- There is a `.meta` that parses. -/
  readable : Bool
  stage : ω → PublicationStage

/-- The steps of finalizations, and of anyone who acquires the lock. -/
inductive PublicationEvent (ω : Type) where
  | lock (event : LockEvent ω)
  | begin_ (w : ω) (now : ℕ)
  /-- Invalidation looks for a record; it may fail before that, or the read may. -/
  | inspect (w : ω) (fails : Bool)
  | delete_meta (w : ω) (fails : Bool)
  | delete_lock (w : ω) (fails : Bool)
  | publish (w : ω)
  /-- Another writer of metadata replaces or removes the `.meta`. -/
  | set_meta (readable : Bool)

namespace PublicationState

variable {ω η : Type}

def init : PublicationState ω η where
  locks := .init
  readable := false
  stage := fun _ => .other

def publishing (s : PublicationState ω η) (w : ω) : Bool :=
  (s.locks.phase w).holds && (s.stage w).unpublished

variable [DecidableEq ω] [DecidableEq η] (metadata_lock_timeout_ms : ℕ) (hostname : ω → η)
  (pid : ω → ℕ)

def enter (s : PublicationState ω η) (w : ω) (before after : PublicationStage) :
    Option (PublicationState ω η) :=
  if (s.locks.phase w).holds = true ∧ s.stage w = before then
    some { s with stage := Function.update s.stage w after }
  else none

def step (s : PublicationState ω η) : PublicationEvent ω → Option (PublicationState ω η)
  | .lock event =>
    (s.locks.step metadata_lock_timeout_ms hostname pid event).map fun locks =>
      { s with
        locks := locks
        stage := fun w => if locks.phase w = .idle then .other else s.stage w }
  | .begin_ w now =>
    (s.locks.step metadata_lock_timeout_ms hostname pid (.open_file w now)).map fun locks =>
      { s with
        locks := locks
        stage := Function.update s.stage w .acquiring }
  | .inspect w fails =>
    s.enter w .acquiring (if s.readable && !fails then .deleting_meta else .moving)
  | .delete_meta w fails =>
    { s with readable := s.readable && fails }.enter w .deleting_meta .deleting_lock
  | .delete_lock w fails =>
    { s with locks := s.locks.unlink (!fails) }.enter w .deleting_lock .moving
  | .publish w => { s with readable := true }.enter w .moving .published
  | .set_meta readable => some { s with readable := readable }

/-- The condition of `Protocol` on the steps of the lock. -/
def LocksClear (s : PublicationState ω η) : PublicationEvent ω → Prop
  | .lock event => s.locks.Clear event
  | _ => True

/-- There is no readable record when a finalization comes to invalidate it. -/
def NothingToDelete (s : PublicationState ω η) : PublicationEvent ω → Prop
  | .inspect _ fails => s.readable = false ∨ fails = true
  | _ => True

instance (s : PublicationState ω η) : ∀ event, Decidable (s.LocksClear event)
  | .lock event => inferInstanceAs (Decidable (s.locks.Clear event))
  | .begin_ _ _ | .inspect _ _ | .delete_meta _ _ | .delete_lock _ _ | .publish _ | .set_meta _ =>
    isTrue trivial

instance (s : PublicationState ω η) : ∀ event, Decidable (s.NothingToDelete event)
  | .inspect _ fails => inferInstanceAs (Decidable (s.readable = false ∨ fails = true))
  | .begin_ _ _ | .lock _ | .delete_meta _ _ | .delete_lock _ _ | .publish _ | .set_meta _ =>
    isTrue trivial

/-! ## The invariant -/

/-- The lock excludes, and no finalization deletes anything. -/
structure Sound (s : PublicationState ω η) : Prop where
  locks : s.locks.Sound
  stage : ∀ w, (s.stage w).deletes = false

section Steps

variable {metadata_lock_timeout_ms : ℕ} {hostname : ω → η} {pid : ω → ℕ}
  {s s' : PublicationState ω η} {w : ω} {before after : PublicationStage}

omit [DecidableEq η] in
theorem deletes_update (h : s.Sound) (hafter : after.deletes = false) :
    ∀ w', (Function.update s.stage w after w').deletes = false := by
  rw [Function.forall_update_iff s.stage fun _ stage => stage.deletes = false]
  exact ⟨hafter, fun w' _ => h.stage w'⟩

omit [DecidableEq η] in
theorem Sound.enter (h : s.Sound) (hafter : after.deletes = false)
    (hstep : s.enter w before after = some s') : s'.Sound := by
  unfold PublicationState.enter at hstep
  split at hstep <;> cases hstep
  exact ⟨h.locks, deletes_update h hafter⟩

omit [DecidableEq η] in
theorem enter_eq_none (hstage : (s.stage w).deletes = false) (hbefore : before.deletes = true) :
    s.enter w before after = none := by
  unfold PublicationState.enter
  rw [if_neg]
  rintro ⟨-, heq⟩
  rw [heq, hbefore] at hstage
  cases hstage

theorem Sound.step {event : PublicationEvent ω} (h : s.Sound) (hclear : s.LocksClear event)
    (hnothing : s.NothingToDelete event)
    (hstep : s.step metadata_lock_timeout_ms hostname pid event = some s') : s'.Sound := by
  cases event with
  | lock event =>
    obtain ⟨locks, hlocks, rfl⟩ := Option.map_eq_some_iff.mp hstep
    refine ⟨h.locks.step hclear hlocks, fun w => ?_⟩
    show (if locks.phase w = .idle then PublicationStage.other else s.stage w).deletes = false
    split_ifs
    · rfl
    · exact h.stage w
  | begin_ w now =>
    obtain ⟨locks, hlocks, rfl⟩ := Option.map_eq_some_iff.mp hstep
    have hopen : s.locks.Clear (.open_file w now) := trivial
    exact ⟨h.locks.step hopen hlocks, deletes_update h rfl⟩
  | inspect w fails =>
    -- there is nothing to delete, so invalidation is over at once
    have hmoving : (s.readable && !fails) = false := by
      rcases hnothing with hnone | hfails
      · rw [hnone, Bool.false_and]
      · rw [hfails, Bool.not_true, Bool.and_false]
    refine h.enter ?_ hstep
    rw [hmoving]
    rfl
  | delete_meta w fails =>
    have hnone : PublicationState.step metadata_lock_timeout_ms hostname pid s
        (.delete_meta w fails) = none := enter_eq_none (h.stage w) rfl
    rw [hnone] at hstep
    cases hstep
  | delete_lock w fails =>
    have hnone : PublicationState.step metadata_lock_timeout_ms hostname pid s
        (.delete_lock w fails) = none := enter_eq_none (h.stage w) rfl
    rw [hnone] at hstep
    cases hstep
  | publish w =>
    have hsound : Sound { s with readable := true } := ⟨h.locks, h.stage⟩
    exact @Sound.enter _ _ _ _ _ _ _ .published hsound rfl hstep
  | set_meta readable =>
    cases hstep
    exact ⟨h.locks, h.stage⟩

/-- **The publication is exclusive.** In every run in which the lock excludes and no finalization
finds a readable record to invalidate, nobody else holds the metadata lock from the moment a
finalization acquires it until its `.meta` is in place. -/
theorem publication_exclusive (metadata_lock_timeout_ms : ℕ) (hostname : ω → η) (pid : ω → ℕ)
    (events : List (PublicationEvent ω)) (s : PublicationState ω η)
    (hclear : Guarded (step metadata_lock_timeout_ms hostname pid)
      (fun s event => s.LocksClear event ∧ s.NothingToDelete event) init events)
    (hrun : run (step metadata_lock_timeout_ms hostname pid) init events = some s) :
    ∀ w w', s.publishing w = true → (s.locks.phase w').holds = true → w' = w := by
  have hsound : s.Sound := by
    refine run_invariant Sound (fun s event s' hinv hguard hstep => ?_)
      ⟨LockState.sound_init, fun _ => rfl⟩ hclear hrun
    exact hinv.step hguard.1 hguard.2 hstep
  intro w w' hpublishing hw'
  have hw : (s.locks.phase w).holds = true := (Bool.and_eq_true_iff.mp hpublishing).1
  obtain ⟨file, hfile⟩ := LockPhase.owned?_of_holds hw
  obtain ⟨file', hfile'⟩ := LockPhase.owned?_of_holds hw'
  exact hsound.locks.exclusive hfile' hfile

end Steps

/-! ## Two runs -/

def acquire_steps {ω : Type} (w : ω) (now : ℕ) : List (PublicationEvent ω) :=
  (LockState.acquire_opened w now).map .lock

/-- Process 0 overwrites a cached object by a multipart upload; 1 comes for the lock when the
cached record has been invalidated. -/
def invalidated_publication : List (PublicationEvent ℕ) :=
  [.set_meta true, .begin_ 0 0] ++ acquire_steps 0 1 ++
    [.inspect 0 false, .delete_meta 0 false, .delete_lock 0 false, .lock (.open_file 1 2)] ++
    acquire_steps 1 3

/-- Process 1 holds the lock before the `.meta` of process 0 is in place, although every lock was
taken on the file that the path named. -/
theorem invalidation_lets_another_in :
    Guarded (step 30000 (fun w : ℕ => w) fun _ => 1) LocksClear init
        invalidated_publication ∧
      ∃ s, run (step 30000 (fun w : ℕ => w) fun _ => 1) init invalidated_publication = some s ∧
        s.publishing 0 = true ∧ (s.locks.phase 1).holds = true := by
  refine ⟨by decide +kernel, _, rfl, rfl, rfl⟩

/-- Process 0 publishes an object that was not cached; 1 comes for the lock before the rename. -/
def first_publication : List (PublicationEvent ℕ) :=
  [.begin_ 0 0] ++ acquire_steps 0 1 ++
    [.inspect 0 false, .lock (.open_file 1 2), .lock (.try_lock 1 false),
      .lock (.check 1 2 (fun _ => true) false)]

/-- Process 0 is still publishing, and the only one to hold the lock. -/
theorem first_publication_is_exclusive :
    ∃ s, run (step 30000 (fun w : ℕ => w) fun _ => 1) init first_publication = some s ∧
      Guarded (step 30000 (fun w : ℕ => w) fun _ => 1)
        (fun s event => s.LocksClear event ∧ s.NothingToDelete event) init first_publication ∧
      s.publishing 0 = true ∧
      ∀ w w', s.publishing w = true → (s.locks.phase w').holds = true → w' = w := by
  have hclear : Guarded (step 30000 (fun w : ℕ => w) fun _ => 1)
      (fun s event => s.LocksClear event ∧ s.NothingToDelete event) init first_publication := by
    decide +kernel
  refine ⟨_, rfl, hclear, rfl, ?_⟩
  exact publication_exclusive 30000 (fun w : ℕ => w) (fun _ => 1) first_publication _ hclear rfl

end PublicationState

end HybridCache.MetadataLock
