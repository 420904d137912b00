/-
Graduation on read (`refresh_write_cache_ttl` in `cache.rs`) against the other writers of one
`.meta` file.

A GET reads the record without a lock. It then takes the metadata lock, looks whether the record on
disk is still flagged as write-cached, and if so puts the graduated form of what it read in its
place. Every other writer holds the lock from its read to its write, so it is one step. `τ` are the
reads that graduate.
-/
import HybridCache.Lib.Transition
import HybridCache.Metadata.Record

namespace HybridCache.Metadata

open Lib

variable {ω π τ : Type} [DecidableEq τ]

/-! ## The function, cut at its lock -/

/-- A graduation between its unlocked read and its lock: the record it read, and the expiry
it computed. -/
structure Graduation (ω π : Type) where
  read : NewCacheMetadata ω π
  expires_at : ℕ

def Graduation.record (g : Graduation ω π) : NewCacheMetadata ω π :=
  g.read.graduated g.expires_at

/-- `refresh_write_cache_ttl` up to the lock; `none` if there is nothing to do. -/
def refresh_read (file : Option (NewCacheMetadata ω π)) (now get_ttl : ℕ) :
    Option (Graduation ω π) :=
  match file with
  | none => none
  | some metadata =>
    if metadata.is_write_cached = false then none
    else if metadata.effective_last_modified.isNone then none
    else some ⟨metadata, safe_expiry now get_ttl⟩

/-- `refresh_write_cache_ttl` under the lock: the file it leaves. -/
def refresh_publish (file : Option (NewCacheMetadata ω π)) (g : Graduation ω π) :
    Option (NewCacheMetadata ω π) :=
  -- only the flag of the record on disk is looked at; what is written is the older read
  if file.any fun current => current.is_write_cached then some g.record else file

/-! ## One file and its writers -/

structure MetaFile (ω π τ : Type) where
  file : Option (NewCacheMetadata ω π)
  graduating : τ → Option (Graduation ω π)
  last_written : Option (NewCacheMetadata ω π)

inductive MetaEvent (ω π τ : Type) where
  | read (t : τ) (now get_ttl : ℕ)
  | publish (t : τ)
  | write (record : Option (NewCacheMetadata ω π))

namespace MetaFile

def init (file : Option (NewCacheMetadata ω π)) : MetaFile ω π τ :=
  ⟨file, fun _ => none, file⟩

def step (s : MetaFile ω π τ) : MetaEvent ω π τ → Option (MetaFile ω π τ)
  | .read t now get_ttl =>
    some { s with graduating := Function.update s.graduating t (refresh_read s.file now get_ttl) }
  | .publish t =>
    match s.graduating t with
    | some g =>
      some { s with
        file := refresh_publish s.file g
        graduating := Function.update s.graduating t none }
    | none => none
  | .write record => some { s with file := record, last_written := record }

/-- Etag, object metadata and ranges on disk are those the last other writer left. -/
def LastWriterKept (s : MetaFile ω π τ) : Prop :=
  s.file.map NewCacheMetadata.content = s.last_written.map NewCacheMetadata.content

/-- A graduation that takes the lock and finds the record still write-cached had read the etag,
object metadata and ranges that are there now. -/
def Current (s : MetaFile ω π τ) : MetaEvent ω π τ → Prop
  | .publish t => ∀ g ∈ s.graduating t, ∀ current ∈ s.file,
      current.is_write_cached = true → g.read.content = current.content
  | _ => True

instance [DecidableEq ω] [DecidableEq π] (s : MetaFile ω π τ) (e : MetaEvent ω π τ) :
    Decidable (s.Current e) :=
  match e with
  | .publish t => inferInstanceAs (Decidable (∀ g ∈ s.graduating t, ∀ current ∈ s.file,
      current.is_write_cached = true → g.read.content = current.content))
  | .read _ _ _ => isTrue trivial
  | .write _ => isTrue trivial

theorem lastWriterKept_step_iff {s s' : MetaFile ω π τ} {e : MetaEvent ω π τ}
    (hs : s.LastWriterKept) (h : s.step e = some s') : s'.LastWriterKept ↔ s.Current e := by
  cases e with
  | read t now get_ttl =>
    cases h
    exact iff_of_true hs trivial
  | write record =>
    cases h
    exact iff_of_true rfl trivial
  | publish t =>
    simp only [step] at h
    split at h <;> cases h
    rename_i g hg
    -- the last other writer's content is the file's, so only the file matters
    unfold LastWriterKept at hs ⊢
    rw [← hs]
    cases hfile : s.file with
    | none => simp [refresh_publish, Current, hfile]
    | some current =>
      by_cases hflag : current.is_write_cached = true
      · simp [refresh_publish, Current, Graduation.record, hfile, hg, hflag]
      · simp [refresh_publish, Current, hfile, hflag]

/-- **Graduation and the other writers.** All along a run, etag, object metadata and ranges
on disk are those of the last other writer if and only if every graduation that publishes
over a record still flagged write-cached had read the same etag, object metadata and ranges. -/
theorem graduation_keeps_last_writers_content_iff {file : Option (NewCacheMetadata ω π)}
    {events : List (MetaEvent ω π τ)} {s : MetaFile ω π τ}
    (hrun : run step (init file) events = some s) :
    (∀ n s', run step (init file) (events.take n) = some s' → s'.LastWriterKept) ↔
      Guarded step Current (init file) events := by
  refine run_forall_iff_guarded LastWriterKept LastWriterKept (fun _ hs => hs) ?_ ?_ rfl hrun
  · intro s e s' hs hcurrent h
    exact (lastWriterKept_step_iff hs h).mpr hcurrent
  · intro s e s' hs h hs'
    exact (lastWriterKept_step_iff hs h).mp hs'

/-- A re-upload between a graduation's read and its lock is overwritten with the version that
was read. -/
theorem graduation_overwrites_a_reupload :
    ∃ s : MetaFile Unit String Unit,
      run step (init (some (uploaded "a" 10)))
        [.read () 1 60, .write (some (uploaded "b" 10)), .publish ()] = some s ∧
      s.last_written.map NewCacheMetadata.etag = some "b" ∧
      s.file.map NewCacheMetadata.etag = some "a" ∧ ¬ s.LastWriterKept := by
  refine ⟨_, rfl, rfl, rfl, ?_⟩
  unfold LastWriterKept
  decide

/-- A revalidation between the two only moves the expiry, and a second graduation finds the
flag cleared. -/
theorem graduation_after_revalidation_keeps_content :
    ∃ s : MetaFile Unit String Bool,
      run step (init (some (uploaded "a" 10)))
        [.read true 1 60, .read false 1 60,
          .write (some { uploaded "a" 10 with expires_at := 7200 }),
          .publish true, .publish false] = some s ∧
      (∀ n s', run step (init (some (uploaded "a" 10)))
        (List.take n [.read true 1 60, .read false 1 60,
          .write (some { uploaded "a" 10 with expires_at := 7200 }),
          .publish true, .publish false]) = some s' → s'.LastWriterKept) := by
  refine ⟨_, rfl, (graduation_keeps_last_writers_content_iff rfl).mpr ?_⟩
  decide

end MetaFile

end HybridCache.Metadata
