/-
The metadata lock of a cache key (`metadata_lock_manager.rs`), as a protocol of processes over one
lock file.

To acquire, a process opens the lock file, takes an exclusive lock on what it has opened, writes
who it is under the path, and reads that back. To release, it unlinks the path and closes the file.
A stale lock is broken: a file of its own host, or one it cannot read, is deleted, a file of
another host overwritten.

A lock is on a file, and the path may have come to name another one since the file was opened. So a
process that has opened the file before the holder unlinks it locks a file without a name, and one
that comes later makes and locks another.
-/
import HybridCache.Lib.LockFile
import HybridCache.Lib.Outcome
import HybridCache.Lib.Transition

namespace HybridCache.MetadataLock

open Lib

/-! ## The lock file -/

/-- `LockFileContent`, without the `instance_id` that repeats the host and the process. -/
structure LockFileContent (η : Type) where
  hostname : η
  pid : ℕ
  acquired_at_ms : ℕ
  fence_epoch : ℕ
deriving DecidableEq, Repr

/-- What is in a lock file: nothing, something that does not parse, or a content. -/
inductive LockText (η : Type) where
  | empty
  | torn
  | written (content : LockFileContent η)
deriving DecidableEq, Repr

variable {η : Type}

def LockText.parse : LockText η → Option (LockFileContent η)
  | .empty | .torn => none
  | .written content => some content

def file_age_ms (now modified : ℕ) : ℕ :=
  if modified ≤ now then now - modified else u64_max

/-- `is_lock_stale` on what was read, `none` if nothing could be. -/
def is_lock_stale [DecidableEq η] (metadata_lock_timeout_ms : ℕ) (hostname : η)
    (alive : ℕ → Bool) (now modified : ℕ) : Option (LockText η) → Bool
  | none => true
  | some .empty | some .torn => decide (file_age_ms now modified > metadata_lock_timeout_ms)
  | some (.written content) =>
    if content.hostname = hostname then !alive content.pid
    else decide (now - content.acquired_at_ms > metadata_lock_timeout_ms)

/-- How `break_stale_lock` goes about it: a file of another host gets the next epoch, any other
file is deleted. -/
def takeover [DecidableEq η] (hostname : η) (text : Option (LockText η)) : Option ℕ :=
  (text.bind LockText.parse).bind fun content =>
    if content.hostname = hostname then none else some (content.fence_epoch + 1)

/-! ## The processes -/

/-- Where a process stands in `try_acquire_lock_once`, in the lock's life, or in its drop. -/
inductive LockPhase where
  | idle
  | opened (file : ℕ)
  | busy
  | stale
  | deleting
  | overwriting (epoch : ℕ)
  | overwrite_opened (target epoch : ℕ)
  | overwritten (epoch : ℕ)
  | broken
  | reopening (epoch : ℕ)
  | waiting (file epoch : ℕ)
  /-- The file is locked, and its content is to be written under the path. -/
  | locked (file epoch : ℕ)
  | writing (file target epoch : ℕ)
  | written (file epoch : ℕ)
  | held (file epoch : ℕ)
  | failed (file : ℕ)
  | releasing (file : ℕ)
deriving DecidableEq, Repr

/-- The file the process is about to lock. -/
def LockPhase.wanted? : LockPhase → Option ℕ
  | .opened file | .waiting file _ => some file
  | _ => none

/-- The file the process has locked. -/
def LockPhase.flock? : LockPhase → Option ℕ
  | .locked file _ | .writing file _ _ | .written file _ | .held file _ | .failed file
  | .releasing file => some file
  | _ => none

/-- The file the process goes by as the lock. -/
def LockPhase.owned? : LockPhase → Option ℕ
  | .locked file _ | .writing file _ _ | .written file _ | .held file _ => some file
  | _ => none

/-- The process holds the metadata lock. -/
def LockPhase.holds : LockPhase → Bool
  | .held _ _ => true
  | _ => false

structure LockState (ω η : Type) where
  lock : LockFile ω
  texts : ℕ → LockText η
  modified : ℕ → ℕ
  phase : ω → LockPhase

/-- One step of a process. Its clock, and what can go wrong, come with the step. -/
inductive LockEvent (ω : Type) where
  | open_file (w : ω) (now : ℕ)
  | try_lock (w : ω) (fails : Bool)
  | check (w : ω) (now : ℕ) (alive : ℕ → Bool) (unreadable : Bool)
  | inspect (w : ω) (unreadable : Bool)
  | delete (w : ω)
  | overwrite (w : ω) (now : ℕ)
  | write (w : ω) (now : ℕ) (torn : Bool)
  | verify (w : ω)
  | read_epoch (w : ω)
  | reopen (w : ω) (now : ℕ)
  | wait (w : ω)
  | open_content (w : ω) (now : ℕ)
  /-- The write or the sync of the content fails, and the path is unlinked if that succeeds. -/
  | write_fails (w : ω) (unlinked : Bool)
  /-- Any other error before the lock is held. -/
  | give_up (w : ω)
  | drop (w : ω) (unlinked : Bool)
  | close (w : ω)
  /-- The process ends, and its files are closed. -/
  | exit (w : ω)

open Function

namespace LockState

variable {ω : Type}

def init : LockState ω η where
  lock := .empty
  texts := fun _ => .empty
  modified := fun _ => 0
  phase := fun _ => .idle

def text (s : LockState ω η) : Option (LockText η) :=
  s.lock.named.map s.texts

def read_text (s : LockState ω η) (unreadable : Bool) : Option (LockText η) :=
  if unreadable then none else s.text

def write_text (s : LockState ω η) (file : ℕ) (text : LockText η) (now : ℕ) : LockState ω η :=
  { s with
    texts := update s.texts file text
    modified := update s.modified file now }

def open_path (s : LockState ω η) (now : ℕ) : ℕ × LockState ω η :=
  match s.lock.named with
  | some file => (file, s)
  | none =>
    (s.lock.open_create.1,
      { s with lock := s.lock.open_create.2 }.write_text s.lock.open_create.1 .empty now)

variable [DecidableEq ω] [DecidableEq η] (metadata_lock_timeout_ms : ℕ) (hostname : ω → η)
  (pid : ω → ℕ)

def enter (s : LockState ω η) (w : ω) (p : LockPhase) : LockState ω η :=
  { s with phase := update s.phase w p }

def unlink (s : LockState ω η) (unlinked : Bool) : LockState ω η :=
  if unlinked then { s with lock := s.lock.unlink } else s

def close (s : LockState ω η) : Option ℕ → LockState ω η
  | none => s
  | some file => { s with lock := s.lock.unlock file }

def new_content (w : ω) (now epoch : ℕ) : LockFileContent η :=
  ⟨hostname w, pid w, now, epoch⟩

/-- `write_all` to a file that is open, as far as it gets. -/
def write_content (s : LockState ω η) (w : ω) (now target epoch : ℕ) (torn : Bool) :
    LockState ω η :=
  s.write_text target (if torn then .torn else .written (new_content hostname pid w now epoch)) now

/-- The epoch under the path is the one that was written. -/
def verified (s : LockState ω η) (epoch : ℕ) : Bool :=
  (s.text.bind LockText.parse).any fun content => content.fence_epoch = epoch

def step (s : LockState ω η) : LockEvent ω → Option (LockState ω η)
  | .open_file w now =>
    match s.phase w with
    | .idle => some ((s.open_path now).2.enter w (.opened (s.open_path now).1))
    | _ => none
  | .try_lock w fails =>
    match s.phase w with
    | .opened file =>
      if fails then some (s.enter w .busy)
      else
        match s.lock.try_lock file w with
        | some f => some ({ s with lock := f }.enter w (.locked file 0))
        | none => some (s.enter w .busy)
    | _ => none
  | .check w now alive unreadable =>
    match s.phase w with
    | .busy =>
      some (s.enter w
        (if is_lock_stale metadata_lock_timeout_ms (hostname w) alive now
            (s.lock.named.elim 0 s.modified) (s.read_text unreadable)
          then .stale else .idle))
    | _ => none
  | .inspect w unreadable =>
    match s.phase w with
    | .stale =>
      some (s.enter w
        ((takeover (hostname w) (s.read_text unreadable)).elim .deleting .overwriting))
    | _ => none
  | .delete w =>
    match s.phase w with
    | .deleting =>
      match s.lock.named with
      | none => some (s.enter w .idle)
      | some _ => some ((s.unlink true).enter w .broken)
    | _ => none
  | .overwrite w now =>
    match s.phase w with
    | .overwriting epoch =>
      match s.lock.named with
      | none => some (s.enter w .idle)
      | some target =>
        some ((s.write_text target .empty now).enter w (.overwrite_opened target epoch))
    | _ => none
  | .write w now torn =>
    match s.phase w with
    | .overwrite_opened target epoch =>
      some ((s.write_content hostname pid w now target epoch torn).enter w
        (if torn then .overwrite_opened target epoch else .overwritten epoch))
    | .writing file target epoch =>
      some ((s.write_content hostname pid w now target epoch torn).enter w
        (if torn then .writing file target epoch else .written file epoch))
    | _ => none
  | .verify w =>
    match s.phase w with
    | .overwritten epoch => some (s.enter w (if s.verified epoch then .broken else .idle))
    | .written file epoch =>
      some (s.enter w (if s.verified epoch then .held file epoch else .failed file))
    | _ => none
  | .read_epoch w =>
    match s.phase w with
    | .broken =>
      some (s.enter w
        (.reopening ((s.text.bind LockText.parse).elim 0 LockFileContent.fence_epoch)))
    | _ => none
  | .reopen w now =>
    match s.phase w with
    | .reopening epoch =>
      some (((s.open_path now).2.write_text (s.open_path now).1 .empty now).enter w
        (.waiting (s.open_path now).1 epoch))
    | _ => none
  | .wait w =>
    match s.phase w with
    | .waiting file epoch =>
      (s.lock.try_lock file w).map fun f => { s with lock := f }.enter w (.locked file epoch)
    | _ => none
  | .open_content w now =>
    match s.phase w with
    | .locked file epoch =>
      some (((s.open_path now).2.write_text (s.open_path now).1 .empty now).enter w
        (.writing file (s.open_path now).1 epoch))
    | _ => none
  | .write_fails w unlinked =>
    match s.phase w with
    | .writing file _ _ => some ((s.unlink unlinked).enter w (.failed file))
    | _ => none
  | .give_up w =>
    match s.phase w with
    | .locked file _ | .written file _ => some (s.enter w (.failed file))
    | .held _ _ | .failed _ | .releasing _ | .writing _ _ _ => none
    | _ => some (s.enter w .idle)
  | .drop w unlinked =>
    match s.phase w with
    | .held file _ => some ((s.unlink unlinked).enter w (.releasing file))
    | _ => none
  | .close w =>
    match s.phase w with
    | .failed file | .releasing file => some ((s.close (some file)).enter w .idle)
    | _ => none
  | .exit w => some ((s.close (s.phase w).flock?).enter w .idle)

/-! ## The condition and the invariant -/

/-- A lock is taken on the file that the path names, and a lock that is deleted is not taken. -/
def Clear (s : LockState ω η) : LockEvent ω → Prop
  | .try_lock w _ | .wait w =>
    ∀ file ∈ (s.phase w).wanted?, s.lock.holder file = none → s.lock.named = some file
  | .delete _ => ∀ file ∈ s.lock.named, s.lock.holder file = none
  | _ => True

instance (s : LockState ω η) : ∀ event, Decidable (s.Clear event)
  | .try_lock w _ | .wait w =>
    inferInstanceAs (Decidable
      (∀ file ∈ (s.phase w).wanted?, s.lock.holder file = none → s.lock.named = some file))
  | .delete _ => inferInstanceAs (Decidable (∀ file ∈ s.lock.named, s.lock.holder file = none))
  | .open_file _ _ | .check _ _ _ _ | .inspect _ _ | .overwrite _ _ | .write _ _ _ | .verify _
  | .read_epoch _ | .reopen _ _ | .open_content _ _ | .write_fails _ _ | .give_up _ | .drop _ _
  | .close _ | .exit _ => isTrue trivial

/-- A process has the lock of the file it thinks it has, and the file it goes by is the one that
the path names. -/
structure PhaseSound (f : LockFile ω) (w : ω) (p : LockPhase) : Prop where
  flock : ∀ file ∈ p.flock?, f.holder file = some w
  named : ∀ file ∈ p.owned?, f.named = some file

def Sound (s : LockState ω η) : Prop :=
  ∀ w, PhaseSound s.lock w (s.phase w)

end LockState

theorem LockPhase.flock?_of_owned? {p : LockPhase} {file : ℕ} (h : file ∈ p.owned?) :
    file ∈ p.flock? := by
  cases p <;> first | exact h | cases h

theorem LockPhase.owned?_of_holds {p : LockPhase} (h : p.holds = true) :
    ∃ file, p.owned? = some file := by
  cases p with
  | held file epoch => exact ⟨file, rfl⟩
  | _ => cases h

namespace LockState

section Invariant

variable {ω : Type} {s s' : LockState ω η} {w w' : ω} {p : LockPhase} {f : LockFile ω} {file : ℕ}

/-- **Mutual exclusion.** Only one process goes by a lock. -/
theorem Sound.exclusive (h : s.Sound) {file' : ℕ} (hw : file ∈ (s.phase w).owned?)
    (hw' : file' ∈ (s.phase w').owned?) : w = w' := by
  have hsame : file = file' := by
    have hnamed := (h w).named file hw
    rw [(h w').named file' hw'] at hnamed
    exact (Option.some.inj hnamed).symm
  have hholder := (h w).flock file (LockPhase.flock?_of_owned? hw)
  rw [hsame, (h w').flock file' (LockPhase.flock?_of_owned? hw')] at hholder
  exact (Option.some.inj hholder).symm

theorem PhaseSound.of_none (h : p.flock? = none) : PhaseSound f w p := by
  constructor
  · intro file hfile
    rw [h] at hfile
    cases hfile
  · intro file hfile
    have hflock := LockPhase.flock?_of_owned? hfile
    rw [h] at hflock
    cases hflock

variable {q : LockPhase}

theorem PhaseSound.mono (h : PhaseSound f w p) (hflock : ∀ file ∈ q.flock?, file ∈ p.flock?)
    (howned : ∀ file ∈ q.owned?, file ∈ p.owned?) : PhaseSound f w q :=
  ⟨fun file hfile => h.flock file (hflock file hfile),
    fun file hfile => h.named file (howned file hfile)⟩

theorem Sound.of_eq (h : s.Sound) (hlock : s'.lock = s.lock) (hphase : s'.phase = s.phase) :
    s'.Sound := by
  intro w
  rw [hlock, hphase]
  exact h w

theorem Sound.open_path (h : s.Sound) (now : ℕ) : (s.open_path now).2.Sound := by
  unfold LockState.open_path
  split
  · exact h
  · rename_i hnone
    intro w
    refine ⟨fun file hfile => ?_, fun file hfile => ?_⟩
    · show s.lock.open_create.2.holder file = some w
      rw [LockFile.holder_open_create]
      exact (h w).flock file hfile
    · have hnamed := (h w).named file hfile
      rw [hnone] at hnamed
      cases hnamed

theorem phase_open_path (now : ℕ) : (s.open_path now).2.phase = s.phase := by
  unfold LockState.open_path
  split <;> rfl

theorem Sound.owned?_eq_none (h : s.Sound)
    (hfree : ∀ file ∈ s.lock.named, s.lock.holder file = none) (w : ω) :
    (s.phase w).owned? = none := by
  rw [Option.eq_none_iff_forall_not_mem]
  intro file hfile
  have hholder := (h w).flock file (LockPhase.flock?_of_owned? hfile)
  rw [hfree file ((h w).named file hfile)] at hholder
  cases hholder

theorem Sound.others_owned? (h : s.Sound) (hfile : (s.phase w).owned? = some file) (hne : w' ≠ w) :
    (s.phase w').owned? = none := by
  rw [Option.eq_none_iff_forall_not_mem]
  intro file' hfile'
  exact hne (h.exclusive hfile' hfile)

theorem sound_init : (init : LockState ω η).Sound := fun _ => .of_none rfl

variable [DecidableEq ω]

theorem Sound.enter (hothers : ∀ w', w' ≠ w → PhaseSound s.lock w' (s.phase w'))
    (hself : PhaseSound s.lock w p) : (s.enter w p).Sound := by
  show ∀ w', PhaseSound s.lock w' (update s.phase w p w')
  rw [forall_update_iff s.phase fun w' => PhaseSound s.lock w']
  exact ⟨hself, hothers⟩

theorem Sound.move (h : s.Sound) (hflock : ∀ file ∈ p.flock?, file ∈ (s.phase w).flock?)
    (howned : ∀ file ∈ p.owned?, file ∈ (s.phase w).owned?) : (s.enter w p).Sound :=
  Sound.enter (fun w' _ => h w') ((h w).mono hflock howned)

theorem Sound.carry (h : s.Sound) (hphase : s.phase w = q) (hflock : p.flock? = q.flock?)
    (howned : p.owned? = q.owned? ∨ p.owned? = none) : (s.enter w p).Sound := by
  refine h.move (fun file hfile => ?_) fun file hfile => ?_
  · rw [hphase, ← hflock]
    exact hfile
  · rcases howned with hsame | hnone
    · rw [hphase, ← hsame]
      exact hfile
    · rw [hnone] at hfile
      cases hfile

theorem Sound.forget (h : s.Sound) (hp : p.flock? = none) : (s.enter w p).Sound :=
  Sound.enter (fun w' _ => h w') (.of_none hp)

theorem Sound.take (h : s.Sound)
    (hclear : ∀ file ∈ (s.phase w).wanted?, s.lock.holder file = none → s.lock.named = some file)
    (hwanted : (s.phase w).wanted? = some file) (hlock : s.lock.try_lock file w = some f)
    (hp : p.flock? = some file) : ({ s with lock := f }.enter w p).Sound := by
  obtain ⟨hfree, hnamed', hholder⟩ := LockFile.try_lock_eq_some hlock
  have hnamed := hclear file hwanted hfree
  refine Sound.enter (fun w' _ => ⟨fun file' hfile' => ?_, fun file' hfile' => ?_⟩)
    ⟨fun file' hfile' => ?_, fun file' hfile' => ?_⟩
  · -- what another has locked is not the file that was free
    have hother := (h w').flock file' hfile'
    have hne : file' ≠ file := by
      intro heq
      rw [heq, hfree] at hother
      cases hother
    rw [hholder, update_of_ne hne]
    exact hother
  · show f.named = some file'
    rw [hnamed']
    exact (h w').named file' hfile'
  · rw [hp] at hfile'
    rw [hholder, ← Option.some.inj hfile', update_self]
  · have hflock := LockPhase.flock?_of_owned? hfile'
    rw [hp] at hflock
    rw [hnamed', hnamed]
    exact hflock

theorem Sound.unlink (h : s.Sound) (unlinked : Bool)
    (hothers : ∀ w', w' ≠ w → (s.phase w').owned? = none)
    (hflock : ∀ file ∈ p.flock?, file ∈ (s.phase w).flock?) (howned : p.owned? = none) :
    ((s.unlink unlinked).enter w p).Sound := by
  cases unlinked with
  | false =>
    refine h.move hflock fun file hfile => ?_
    rw [howned] at hfile
    cases hfile
  | true =>
    refine Sound.enter (fun w' hne => ⟨(h w').flock, fun file hfile => ?_⟩)
      ⟨fun file hfile => (h w).flock file (hflock file hfile), fun file hfile => ?_⟩
    · have hnone : (s.phase w').owned? = some file := hfile
      rw [hothers w' hne] at hnone
      cases hnone
    · rw [howned] at hfile
      cases hfile

theorem Sound.unlink_owned (h : s.Sound) (unlinked : Bool) (hphase : s.phase w = q)
    (hq : q.owned? = some file) (hflock : p.flock? = q.flock?) (howned : p.owned? = none) :
    ((s.unlink unlinked).enter w p).Sound := by
  rw [← hphase] at hq
  refine h.unlink unlinked (fun w' hne => h.others_owned? hq hne) (fun file' hfile' => ?_) howned
  rw [hphase, ← hflock]
  exact hfile'

theorem Sound.close (h : s.Sound) (hfile : (s.phase w).flock? = some file) :
    ((s.close (some file)).enter w .idle).Sound := by
  have hself := (h w).flock file hfile
  refine Sound.enter (fun w' hne => ⟨fun file' hfile' => ?_, (h w').named⟩) (.of_none rfl)
  have hother := (h w').flock file' hfile'
  have hdiff : file' ≠ file := by
    intro heq
    rw [heq, hself] at hother
    exact hne (Option.some.inj hother).symm
  show update s.lock.holder file none file' = some w'
  rw [update_of_ne hdiff]
  exact hother

end Invariant

section Steps

variable {ω : Type} [DecidableEq ω] [DecidableEq η] {metadata_lock_timeout_ms : ℕ}
  {hostname : ω → η} {pid : ω → ℕ} {s s' : LockState ω η}

theorem Sound.step {event : LockEvent ω} (h : s.Sound) (hclear : s.Clear event)
    (hstep : s.step metadata_lock_timeout_ms hostname pid event = some s') : s'.Sound := by
  -- a process that is not at the point where the event happens does nothing
  cases event with (simp only [LockState.step] at hstep; try split at hstep <;> try cases hstep)
  | open_file w now => exact (h.open_path now).forget rfl
  | try_lock w fails =>
    rename_i file hphase
    split at hstep
    · cases hstep
      exact h.forget rfl
    split at hstep
    · rename_i f hlock
      cases hstep
      exact h.take hclear (by rw [hphase]; rfl) hlock rfl
    · cases hstep
      exact h.forget rfl
  | check w now alive unreadable => exact h.forget (by split <;> rfl)
  | inspect w unreadable =>
    refine h.forget ?_
    cases takeover (hostname w) (s.read_text unreadable) <;> rfl
  | delete w =>
    split at hstep
    · cases hstep
      exact h.forget rfl
    · cases hstep
      -- the file that loses its name is not locked, so nobody goes by it
      refine h.unlink true (fun w' _ => h.owned?_eq_none hclear w') ?_ rfl
      intro file hfile
      cases hfile
  | overwrite w now =>
    split at hstep
    · cases hstep
      exact h.forget rfl
    · cases hstep
      exact Sound.forget (h.of_eq rfl rfl) rfl
  | write w now torn =>
    rename_i hphase
    -- a process that has the lock goes by the same file before and after the write
    cases torn <;> first
    | exact Sound.forget (h.of_eq rfl rfl) rfl
    | exact Sound.carry (h.of_eq rfl rfl) hphase rfl (.inl rfl)
  | verify w =>
    rename_i hphase
    split
    · first
      | exact h.forget rfl
      | exact h.carry hphase rfl (.inl rfl)
    · -- another epoch is under the path, and the process ceases to go by its file
      first
      | exact h.forget rfl
      | exact h.carry hphase rfl (.inr rfl)
  | read_epoch w => exact h.forget rfl
  | reopen w now => exact Sound.forget ((h.open_path now).of_eq rfl rfl) rfl
  | wait w =>
    rename_i file epoch hphase
    obtain ⟨f, hlock, rfl⟩ := Option.map_eq_some_iff.mp hstep
    exact h.take hclear (by rw [hphase]; rfl) hlock rfl
  | open_content w now =>
    rename_i file epoch hphase
    have hopen : LockState.Sound
        ((s.open_path now).2.write_text (s.open_path now).1 .empty now) :=
      (h.open_path now).of_eq rfl rfl
    have hphase' : (s.open_path now).2.phase w = .locked file epoch := by
      rw [phase_open_path, hphase]
    exact hopen.carry hphase' rfl (.inl rfl)
  | write_fails w unlinked | drop w unlinked =>
    rename_i hphase
    exact h.unlink_owned unlinked hphase rfl rfl rfl
  | give_up w =>
    rename_i hphase
    first
    | exact h.forget rfl
    | exact h.carry hphase rfl (.inr rfl)
  | close w =>
    rename_i hphase
    exact h.close (by rw [hphase]; rfl)
  | exit w =>
    cases hstep
    cases hfile : (s.phase w).flock? with
    | none => exact h.forget rfl
    | some file => exact h.close hfile

/-- **At most one holder.** In every run in which each lock is taken on the file that the path
names, and no lock is deleted that is taken, two processes that hold the metadata lock are one. -/
theorem at_most_one_holder (metadata_lock_timeout_ms : ℕ) (hostname : ω → η) (pid : ω → ℕ)
    (events : List (LockEvent ω)) (s : LockState ω η)
    (hclear : Guarded (step metadata_lock_timeout_ms hostname pid) Clear init events)
    (hrun : run (step metadata_lock_timeout_ms hostname pid) init events = some s) :
    ∀ w w', (s.phase w).holds = true → (s.phase w').holds = true → w = w' := by
  have hsound : s.Sound := by
    refine run_invariant Sound (fun s event s' hinv hguard hstep => ?_) sound_init hclear hrun
    exact hinv.step hguard hstep
  intro w w' hw hw'
  obtain ⟨file, hfile⟩ := LockPhase.owned?_of_holds hw
  obtain ⟨file', hfile'⟩ := LockPhase.owned?_of_holds hw'
  exact hsound.exclusive hfile hfile'

end Steps

/-! ## Two runs -/

/-- The steps of an acquisition that finds the lock free, after the file was opened. -/
def acquire_opened {ω : Type} (w : ω) (now : ℕ) : List (LockEvent ω) :=
  [.try_lock w false, .open_content w now, .write w now false, .verify w]

/-- Process 1 opens the lock file while 0 holds the lock, and locks it when 0 has unlinked and
closed it. Process 2 comes later. Nobody asks whether a lock is stale. -/
def late_lock : List (LockEvent ℕ) :=
  .open_file 0 0 :: acquire_opened 0 1 ++ [.open_file 1 2, .drop 0 true, .close 0] ++
    acquire_opened 1 3 ++ .open_file 2 4 :: acquire_opened 2 5

/-- Process 1 has locked a file without a name, and what it has written and verified is in the
file that process 2 finds and locks. Both hold the lock. -/
theorem late_lock_has_two_holders :
    ∃ s, run (step 30000 (fun w : ℕ => w) fun _ => 1) init late_lock = some s ∧
      (s.phase 1).holds = true ∧ (s.phase 2).holds = true := by
  exact ⟨_, rfl, rfl, rfl⟩

/-- Process 1 finds the lock taken and not stale, and comes back when 0 is done with it. -/
def lock_in_turn : List (LockEvent ℕ) :=
  .open_file 0 0 :: acquire_opened 0 1 ++
    [.open_file 1 2, .try_lock 1 false, .check 1 2 (fun _ => true) false, .drop 0 true, .close 0,
      .open_file 1 4] ++ acquire_opened 1 5

/-- In the run above process 1 ends up as the only holder. -/
theorem lock_in_turn_has_one_holder :
    ∃ s, run (step 30000 (fun w : ℕ => w) fun _ => 1) init lock_in_turn = some s ∧
      Guarded (step 30000 (fun w : ℕ => w) fun _ => 1) Clear init lock_in_turn ∧
      (s.phase 1).holds = true ∧
      ∀ w w', (s.phase w).holds = true → (s.phase w').holds = true → w = w' := by
  have hclear : Guarded (step 30000 (fun w : ℕ => w) fun _ => 1) Clear init lock_in_turn := by
    decide +kernel
  refine ⟨_, rfl, hclear, rfl, ?_⟩
  exact at_most_one_holder 30000 (fun w : ℕ => w) (fun _ => 1) lock_in_turn _ hclear rfl

end LockState

end HybridCache.MetadataLock
