/-
The writers of the journal files, step by step: appends (`journal_manager.rs`), flushes of the
cache-hit buffer (`cache_hit_update_buffer.rs`), cleanups, and the removal of stale lock files
(`journal_consolidator.rs`).

An append and a cleanup exclude each other by a lock on `<journal>.lock`. Under it they read the
file, write the new content beside it and rename it over. An append that finds the lock taken
writes a journal of its own. A flush takes no lock. And a lock file is unlinked when its journal
was seen to be missing, no matter who has it open. A journal is the list of its entries here.
-/
import HybridCache.Journal.Cleanup
import HybridCache.Lib.Inodes
import HybridCache.Lib.LockFile
import HybridCache.Lib.Transition

namespace HybridCache.Journal

open Lib

/-! ## Files and writers -/

/-- The names of journals: `<instance>.journal` and `<instance>:<nanos>.journal`. -/
inductive JournalName (ι : Type) where
  | primary (inst : ι)
  | fresh (inst : ι) (nanos : ℕ)
deriving DecidableEq, Repr

inductive JournalWriter (ι γ : Type) where
  | appender (inst : ι)
  | cleaner (cleanup : γ)
deriving DecidableEq, Repr, Fintype

inductive JournalJob (ε : Type) where
  | append (entries : List ε)
  | clean (consolidated_entries : List ε)

namespace JournalJob

variable {ε κ : Type} [DecidableEq κ] (identity : ε → κ)

def rewrite (content : List ε) : JournalJob ε → List ε
  | .append entries => content ++ entries
  | .clean consolidated_entries =>
    content.filter fun entry => decide (identity entry ∉ consolidated_entries.map identity)

/-- A cleanup leaves a journal alone that has nothing to remove. -/
def changes (content : List ε) : JournalJob ε → Bool
  | .append _ => true
  | .clean consolidated_entries =>
    content.any fun entry => decide (identity entry ∈ consolidated_entries.map identity)

/-- A cleanup deletes a journal of which nothing remains, if there is a colon in its name. -/
def deletes (colon : Bool) (content : List ε) : JournalJob ε → Bool
  | .append _ => false
  | .clean consolidated_entries =>
    colon && (rewrite identity content (.clean consolidated_entries)).isEmpty

/-- Every entry a cleanup takes for a consolidated one is one. -/
def Exact (content : List ε) : JournalJob ε → Prop
  | .append _ => True
  | .clean consolidated_entries =>
    ∀ entry ∈ content, identity entry ∈ consolidated_entries.map identity →
      entry ∈ consolidated_entries

instance [DecidableEq ε] (content : List ε) : ∀ job : JournalJob ε,
    Decidable (job.Exact identity content)
  | .append _ => isTrue trivial
  | .clean consolidated_entries =>
    inferInstanceAs (Decidable
      (∀ entry ∈ content, identity entry ∈ consolidated_entries.map identity →
        entry ∈ consolidated_entries))

def added : JournalJob ε → List ε
  | .append entries => entries
  | .clean _ => []

variable {content : List ε} {entry : ε} {job : JournalJob ε}

theorem mem_rewrite {identity : ε → κ} (hexact : job.Exact identity content)
    (hnew : ∀ entries, job = .clean entries → entry ∉ entries) (hentry : entry ∈ content) :
    entry ∈ job.rewrite identity content := by
  cases job with
  | append entries => exact List.mem_append_left entries hentry
  | clean entries =>
    refine List.mem_filter.mpr ⟨hentry, decide_eq_true fun hidentity => ?_⟩
    exact hnew entries rfl (hexact entry hentry hidentity)

theorem added_subset_rewrite {identity : ε → κ} (hentry : entry ∈ job.added) :
    entry ∈ job.rewrite identity content := by
  cases job with
  | append entries => exact List.mem_append_right content hentry
  | clean entries => cases hentry

end JournalJob

inductive WriterPhase (ι ε : Type) where
  | idle
  | opened (name : JournalName ι) (lock : ℕ) (job : JournalJob ε)
  | locked (name : JournalName ι) (lock : ℕ) (job : JournalJob ε)
  | read (name : JournalName ι) (lock : ℕ) (job : JournalJob ε) (content : List ε)
  | written (name : JournalName ι) (lock : ℕ) (job : JournalJob ε) (content : List ε)

namespace WriterPhase

variable {ι ε : Type}

def lock? : WriterPhase ι ε → Option (JournalName ι × ℕ)
  | .idle => none
  | .opened name lock _ | .locked name lock _ | .read name lock _ _ | .written name lock _ _ =>
    some (name, lock)

def held? : WriterPhase ι ε → Option (JournalName ι × ℕ)
  | .idle | .opened _ _ _ => none
  | .locked name lock _ | .read name lock _ _ | .written name lock _ _ => some (name, lock)

def content? : WriterPhase ι ε → Option (JournalName ι × List ε)
  | .idle | .opened _ _ _ | .locked _ _ _ => none
  | .read name _ _ content | .written name _ _ content => some (name, content)

def job? : WriterPhase ι ε → Option (JournalJob ε)
  | .idle => none
  | .opened _ _ job | .locked _ _ job | .read _ _ job _ | .written _ _ job _ => some job

variable {p : WriterPhase ι ε}

theorem lock?_of_held? {x : JournalName ι × ℕ} (h : p.held? = some x) : p.lock? = some x := by
  cases p <;> first | exact h | cases h

theorem held?_of_content? {name : JournalName ι} {content : List ε}
    (h : p.content? = some (name, content)) : ∃ lock, p.held? = some (name, lock) := by
  cases p with
  | idle | opened | locked => cases h
  | read name' lock job content' | written name' lock job content' =>
    cases h
    exact ⟨lock, rfl⟩

end WriterPhase

structure Journals (ι γ ε : Type) where
  files : Inodes (JournalName ι) (List ε)
  temp : JournalName ι → List ε
  locks : JournalName ι → LockFile (JournalWriter ι γ)
  phase : JournalWriter ι γ → WriterPhase ι ε
  /-- The file a flush of the instance has opened, and what it is to write. -/
  flushing : ι → Option (ℕ × List ε)
  /-- The journal whose lock file a sweep has found to be stale. -/
  stale : γ → Option (JournalName ι)
  acknowledged : List ε
  consolidated : List ε

/-- The steps. A write that fails may have written the first few entries, `some written`. -/
inductive JournalEvent (ι γ ε : Type) where
  | append (inst : ι) (entries : List ε)
  | clean (cleanup : γ) (name : JournalName ι) (consolidated_entries : List ε)
  | lock (writer : JournalWriter ι γ)
  /-- The lock was not to be had: the entries go to a fresh journal. -/
  | fresh (inst : ι) (nanos : ℕ) (failed : Option ℕ)
  | read (writer : JournalWriter ι γ) (fails : Bool)
  | write_temp (writer : JournalWriter ι γ)
  | publish (writer : JournalWriter ι γ)
  | delete (writer : JournalWriter ι γ)
  | give_up (writer : JournalWriter ι γ)
  | flush_open (inst : ι) (entries : List ε)
  | flush_write (inst : ι) (failed : Option ℕ)
  | flush_fail (inst : ι)
  /-- `cleanup_stale_lock_files` finds no journal to a lock file. -/
  | find_stale (cleanup : γ) (name : JournalName ι)
  | unlink_lock (cleanup : γ)
  | consolidate (entry : ε)

namespace Journals

variable {ι γ ε κ : Type}

def init : Journals ι γ ε where
  files := .empty []
  temp := fun _ => []
  locks := fun _ => .empty
  phase := fun _ => .idle
  flushing := fun _ => none
  stale := fun _ => none
  acknowledged := []
  consolidated := []

def content (s : Journals ι γ ε) (name : JournalName ι) : List ε :=
  (s.files.content name).getD []

variable [DecidableEq ι] [DecidableEq γ] [DecidableEq κ]
  (identity : ε → κ) (colon : JournalName ι → Bool)

/-! ## The steps -/

section Steps

variable (s : Journals ι γ ε) (w : JournalWriter ι γ)

def enter (p : WriterPhase ι ε) : Journals ι γ ε :=
  { s with phase := Function.update s.phase w p }

def set_lock (name : JournalName ι) (f : LockFile (JournalWriter ι γ)) : Journals ι γ ε :=
  { s with locks := Function.update s.locks name f }

def write_entries (files : Inodes (JournalName ι) (List ε)) (file : ℕ) (entries : List ε) :
    Option ℕ → Journals ι γ ε
  | none =>
    { s with
      files := files.write file (files.contents file ++ entries)
      acknowledged := s.acknowledged ++ entries }
  | some written =>
    { s with files := files.write file (files.contents file ++ entries.take written) }

def open_lock (name : JournalName ι) (job : JournalJob ε) : Option (Journals ι γ ε) :=
  match s.phase w with
  | .idle =>
    let opened := (s.locks name).open_create
    some ((s.set_lock name opened.2).enter w (.opened name opened.1 job))
  | _ => none

def take_lock : Option (Journals ι γ ε) :=
  match s.phase w with
  | .opened name lock job =>
    ((s.locks name).try_lock lock w).map fun f =>
      (s.set_lock name f).enter w (.locked name lock job)
  | _ => none

/-- The content an append or a cleanup goes by. An append that cannot read the journal starts
with an empty one, a cleanup gives up. -/
def read_content (name : JournalName ι) (fails : Bool) : Option (List ε) :=
  match w with
  | .appender _ => some (if fails then [] else s.content name)
  | .cleaner _ => if fails then none else s.files.content name

def read_journal (fails : Bool) : Option (Journals ι γ ε) :=
  match s.phase w with
  | .locked name lock job =>
    (s.read_content w name fails).map fun content => s.enter w (.read name lock job content)
  | _ => none

def write_temp : Option (Journals ι γ ε) :=
  match s.phase w with
  | .read name lock job content =>
    if job.changes identity content && !job.deletes identity (colon name) content then
      some
        ({ s with temp := Function.update s.temp name (job.rewrite identity content) }.enter w
          (.written name lock job content))
    else none
  | _ => none

def release (name : JournalName ι) (lock : ℕ) : Journals ι γ ε :=
  (s.set_lock name ((s.locks name).unlock lock)).enter w .idle

def publish : Option (Journals ι γ ε) :=
  match s.phase w with
  | .written name lock job _ =>
    some
      ({ s with
          files := s.files.replace name (s.temp name)
          acknowledged := s.acknowledged ++ job.added }.release w name lock)
  | _ => none

def delete : Option (Journals ι γ ε) :=
  match s.phase w with
  | .read name lock job content =>
    if job.changes identity content && job.deletes identity (colon name) content then
      some ({ s with files := s.files.remove name }.release w name lock)
    else none
  | _ => none

def give_up : Option (Journals ι γ ε) :=
  match s.phase w with
  | .idle => none
  | .opened _ _ _ => some (s.enter w .idle)
  | .locked name lock _ | .read name lock _ _ | .written name lock _ _ =>
    some (s.release w name lock)

def write_fresh (inst : ι) (nanos : ℕ) (failed : Option ℕ) : Option (Journals ι γ ε) :=
  match s.phase (.appender inst) with
  | .opened _ _ (.append entries) =>
    -- `tokio::fs::write` truncates what is there
    let opened := s.files.open_create (.fresh inst nanos) []
    some
      ((s.write_entries (opened.2.write opened.1 []) opened.1 entries failed).enter
        (.appender inst) .idle)
  | _ => none

def flush_write (inst : ι) (failed : Option ℕ) : Option (Journals ι γ ε) :=
  (s.flushing inst).map fun flush =>
    { s.write_entries s.files flush.1 flush.2 failed with
      flushing := Function.update s.flushing inst none }

end Steps

def step [DecidableEq ε] (s : Journals ι γ ε) : JournalEvent ι γ ε → Option (Journals ι γ ε)
  | .append inst entries => s.open_lock (.appender inst) (.primary inst) (.append entries)
  | .clean cleanup name entries =>
    if ∀ entry ∈ entries, entry ∈ s.consolidated then
      s.open_lock (.cleaner cleanup) name (.clean entries)
    else none
  | .lock w => s.take_lock w
  | .fresh inst nanos failed => s.write_fresh inst nanos failed
  | .read w fails => s.read_journal w fails
  | .write_temp w => s.write_temp identity colon w
  | .publish w => s.publish w
  | .delete w => s.delete identity colon w
  | .give_up w => s.give_up w
  | .flush_open inst entries =>
    -- `flush_in_progress`: one flush at a time
    if s.flushing inst = none then
      let opened := s.files.open_create (.primary inst) []
      some
        { s with
          files := opened.2
          flushing := Function.update s.flushing inst (some (opened.1, entries)) }
    else none
  | .flush_write inst failed => s.flush_write inst failed
  | .flush_fail inst => some { s with flushing := Function.update s.flushing inst none }
  | .find_stale cleanup name =>
    if s.files.names name = none then
      some { s with stale := Function.update s.stale cleanup (some name) }
    else none
  | .unlink_lock cleanup =>
    (s.stale cleanup).map fun name =>
      { s.set_lock name (s.locks name).unlink with
        stale := Function.update s.stale cleanup none }
  | .consolidate entry => some { s with consolidated := s.consolidated ++ [entry] }

/-! ## What a run has to keep clear of -/

/-- Every acknowledged entry that is not consolidated is in a journal. -/
def Kept (s : Journals ι γ ε) : Prop :=
  ∀ entry ∈ s.acknowledged, entry ∉ s.consolidated → ∃ name, entry ∈ s.content name

/-- The condition on a step and the state it is taken from. -/
def Clear (s : Journals ι γ ε) : JournalEvent ι γ ε → Prop
  -- the time stamp in the name of a fresh journal is new
  | .fresh inst nanos _ => s.files.names (.fresh inst nanos) = none
  -- an append that cannot read its journal overwrites nothing
  | .read w true => ∀ x ∈ (s.phase w).lock?, s.content x.1 = []
  -- a cleanup does not take an entry for another
  | .publish w | .delete w =>
    ∀ x ∈ (s.phase w).content?, ∀ job ∈ (s.phase w).job?, job.Exact identity x.2
  -- a flush writes into the file that is the journal, while nobody has read it to rewrite it
  | .flush_write inst _ =>
    ∀ flush ∈ s.flushing inst, s.files.names (.primary inst) = some flush.1 ∧
      ∀ w, ∀ x ∈ (s.phase w).content?, x.1 ≠ .primary inst
  -- a lock file that is unlinked is not in use
  | .unlink_lock cleanup =>
    ∀ name ∈ s.stale cleanup, ∀ w, ∀ x ∈ (s.phase w).lock?, x.1 ≠ name
  | _ => True

instance [DecidableEq ε] [Fintype ι] [Fintype γ] (s : Journals ι γ ε) :
    ∀ event, Decidable (s.Clear identity event)
  | .fresh inst nanos _ => inferInstanceAs (Decidable (s.files.names (.fresh inst nanos) = none))
  | .read w true => inferInstanceAs (Decidable (∀ x ∈ (s.phase w).lock?, s.content x.1 = []))
  | .publish w | .delete w =>
    inferInstanceAs (Decidable
      (∀ x ∈ (s.phase w).content?, ∀ job ∈ (s.phase w).job?, job.Exact identity x.2))
  | .flush_write inst _ =>
    inferInstanceAs (Decidable
      (∀ flush ∈ s.flushing inst, s.files.names (.primary inst) = some flush.1 ∧
        ∀ w, ∀ x ∈ (s.phase w).content?, x.1 ≠ .primary inst))
  | .unlink_lock cleanup =>
    inferInstanceAs (Decidable
      (∀ name ∈ s.stale cleanup, ∀ w, ∀ x ∈ (s.phase w).lock?, x.1 ≠ name))
  | .append _ _ | .clean _ _ _ | .lock _ | .read _ false | .write_temp _ | .give_up _
  | .flush_open _ _ | .flush_fail _ | .find_stale _ _ | .consolidate _ => isTrue trivial

end Journals

end HybridCache.Journal
