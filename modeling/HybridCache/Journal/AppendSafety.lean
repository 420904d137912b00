/-
No journal entry is lost (the model is in `Appends`).

As long as no lock file in use is unlinked, what a writer has read under the lock is what the
journal holds until it renames, unless a flush has written in between. `Clear` asks that no flush
falls between a read and its rename, or into a file that has lost its name; that no lock file in
use is unlinked; that an append can read the journal it rewrites; that the name of a fresh journal
is new; and that a cleanup takes no entry for another.
-/
import HybridCache.Journal.Appends

namespace HybridCache.Journal

open Lib Function WriterPhase Option

namespace Journals

variable {ι γ ε κ : Type}

/-! ## The invariant -/

section Invariant

variable [DecidableEq κ]

/-- What holds of a writer in phase `p`: the lock file it has open is the one that is named, it has
the lock it thinks it has, what it has read is what the journal holds, and what it has written
beside it is what becomes of that. -/
structure WriterSound (identity : ε → κ) (s : Journals ι γ ε) (w : JournalWriter ι γ)
    (p : WriterPhase ι ε) : Prop where
  named : ∀ x ∈ p.lock?, (s.locks x.1).named = some x.2
  held : ∀ x ∈ p.held?, (s.locks x.1).holder x.2 = some w
  primary : ∀ inst, w = .appender inst → ∀ x ∈ p.lock?, x.1 = .primary inst
  content : ∀ x ∈ p.content?, s.content x.1 = x.2
  file : ∀ x ∈ p.content?, ∀ inst nanos, x.1 = .fresh inst nanos → s.files.content x.1 ≠ none
  temp : ∀ name lock job content, p = .written name lock job content →
    s.temp name = job.rewrite identity content
  job : ∀ entries, p.job? = some (.clean entries) → ∀ entry ∈ entries, entry ∈ s.consolidated

structure Sound (identity : ε → κ) (s : Journals ι γ ε) : Prop where
  kept : s.Kept
  writers : ∀ w, WriterSound identity s w (s.phase w)

variable {identity : ε → κ} {s s' : Journals ι γ ε} {w w' : JournalWriter ι γ}
  {p : WriterPhase ι ε} {name : JournalName ι} {lock : ℕ} {job : JournalJob ε}

/-- A step of one writer leaves another sound if it keeps the locks and files that one relies on. -/
theorem WriterSound.frame (h : WriterSound identity s w p)
    (hnamed : ∀ x ∈ p.lock?, (s'.locks x.1).named = (s.locks x.1).named)
    (hheld : ∀ x ∈ p.held?, (s'.locks x.1).holder x.2 = (s.locks x.1).holder x.2)
    (hcontent : ∀ x ∈ p.content?, s'.content x.1 = s.content x.1)
    (hfile : ∀ x ∈ p.content?, s.files.content x.1 ≠ none → s'.files.content x.1 ≠ none)
    (htemp : ∀ x ∈ p.content?, s'.temp x.1 = s.temp x.1)
    (hcons : ∀ entry ∈ s.consolidated, entry ∈ s'.consolidated) :
    WriterSound identity s' w p where
  named x hx := (hnamed x hx).trans (h.named x hx)
  held x hx := (hheld x hx).trans (h.held x hx)
  primary := h.primary
  content x hx := (hcontent x hx).trans (h.content x hx)
  file x hx inst nanos hname := hfile x hx (h.file x hx inst nanos hname)
  temp name lock job content hp := by
    have hx : (name, content) ∈ p.content? := by rw [hp]; rfl
    rw [htemp _ hx]
    exact h.temp name lock job content hp
  job entries hp entry hentry := hcons entry (h.job entries hp entry hentry)

theorem WriterSound.same (h : WriterSound identity s w p) (hfiles : s'.files = s.files)
    (htemp : s'.temp = s.temp) (hlocks : s'.locks = s.locks)
    (hcons : ∀ entry ∈ s.consolidated, entry ∈ s'.consolidated) :
    WriterSound identity s' w p := by
  refine h.frame (fun x _ => ?_) (fun x _ => ?_) (fun x _ => ?_) (fun x _ => ?_) (fun x _ => ?_)
    hcons
  · rw [hlocks]
  · rw [hlocks]
  · rw [Journals.content, hfiles, ← Journals.content]
  · rw [hfiles]
    exact id
  · rw [htemp]

theorem WriterSound.idle : WriterSound identity s w .idle := by
  constructor <;>
    simp [lock?, held?, content?, job?]

/-- **The lock excludes.** Only one writer has the lock of a journal. -/
theorem Sound.exclusive (h : Sound identity s) {x y : JournalName ι × ℕ}
    (hx : x ∈ (s.phase w).held?) (hy : y ∈ (s.phase w').held?) (hname : x.1 = y.1) : w = w' := by
  have hx_named := (h.writers w).named x (lock?_of_held? hx)
  have hy_named := (h.writers w').named y (lock?_of_held? hy)
  have hlock : x.2 = y.2 := by
    rw [hname, hy_named] at hx_named
    exact (Option.some.inj hx_named).symm
  have hx_held := (h.writers w).held x hx
  rw [hname, hlock, (h.writers w').held y hy] at hx_held
  exact (Option.some.inj hx_held).symm

/-- Nobody else has read the journal of a writer that has its lock. -/
theorem Sound.read_apart (h : Sound identity s) (hheld : (s.phase w).held? = some (name, lock))
    (hne : w' ≠ w) : ∀ x ∈ (s.phase w').content?, x.1 ≠ name := by
  intro x hx hname
  obtain ⟨lock', hheld'⟩ := held?_of_content? hx
  exact hne (h.exclusive hheld' hheld hname)

theorem Kept.of_content (h : s.Kept)
    (hack : ∀ entry ∈ s'.acknowledged, entry ∈ s.acknowledged ∨ ∃ name, entry ∈ s'.content name)
    (hcons : ∀ entry ∈ s.consolidated, entry ∈ s'.consolidated)
    (hcontent : ∀ name, ∀ entry ∈ s.content name, entry ∉ s'.consolidated →
      ∃ name', entry ∈ s'.content name') : s'.Kept := by
  intro entry hentry hnew
  rcases hack entry hentry with hold | hthere
  · obtain ⟨name, hname⟩ := h entry hold fun hin => hnew (hcons entry hin)
    exact hcontent name entry hname hnew
  · exact hthere

theorem Sound.mem_rewrite (h : Sound identity s) {content : List ε}
    (hcontent : (s.phase w).content? = some (name, content)) (hjob : (s.phase w).job? = some job)
    (hexact : job.Exact identity content) {entry : ε} (hentry : entry ∈ s.content name)
    (hnew : entry ∉ s.consolidated) : entry ∈ job.rewrite identity content := by
  have hread := (h.writers w).content _ hcontent
  rw [hread] at hentry
  refine JournalJob.mem_rewrite hexact (fun entries hclean hin => hnew ?_) hentry
  rw [hclean] at hjob
  exact (h.writers w).job entries hjob entry hin

theorem sound_init : Sound identity (init : Journals ι γ ε) :=
  ⟨fun _ hentry => absurd hentry List.not_mem_nil, fun _ => .idle⟩

end Invariant

variable [DecidableEq ι] [DecidableEq γ] [DecidableEq κ]

/-! ## Each step keeps it -/

section Preservation

variable {identity : ε → κ} {colon : JournalName ι → Bool} {s s' : Journals ι γ ε}
  {w w' : JournalWriter ι γ} {p : WriterPhase ι ε} {name : JournalName ι} {lock : ℕ}
  {job : JournalJob ε}

theorem WriterSound.enter {q : WriterPhase ι ε} (h : WriterSound identity s w p) :
    WriterSound identity (s.enter w' q) w p :=
  h.same rfl rfl rfl fun _ => id

theorem Sound.enter (hkept : s.Kept)
    (hothers : ∀ w', w' ≠ w → WriterSound identity s w' (s.phase w'))
    (hself : WriterSound identity s w p) : Sound identity (s.enter w p) where
  kept := hkept
  writers := by
    show ∀ w', WriterSound identity (s.enter w p) w' (update s.phase w p w')
    rw [forall_update_iff s.phase fun w' => WriterSound identity (s.enter w p) w']
    exact ⟨hself.enter, fun w' hne => (hothers w' hne).enter⟩

omit [DecidableEq γ] in
theorem WriterSound.set_lock {f : LockFile (JournalWriter ι γ)} (h : WriterSound identity s w p)
    (hnamed : ∀ x ∈ p.lock?, x.1 = name → f.named = (s.locks name).named)
    (hheld : ∀ x ∈ p.held?, x.1 = name → f.holder x.2 = (s.locks name).holder x.2) :
    WriterSound identity (s.set_lock name f) w p := by
  refine h.frame (fun x hx => ?_) (fun x hx => ?_) (fun _ _ => rfl) (fun _ _ => id)
    (fun _ _ => rfl) fun _ => id
  · show (update s.locks name f x.1).named = (s.locks x.1).named
    by_cases hname : x.1 = name
    · rw [hname, update_self, hnamed x hx hname]
    · rw [update_of_ne hname]
  · show (update s.locks name f x.1).holder x.2 = (s.locks x.1).holder x.2
    by_cases hname : x.1 = name
    · rw [hname, update_self, hheld x hx hname]
    · rw [update_of_ne hname]

theorem Sound.release (hkept : s.Kept)
    (hothers : ∀ w', w' ≠ w → WriterSound identity s w' (s.phase w'))
    (hheld : (s.locks name).holder lock = some w) : Sound identity (s.release w name lock) := by
  refine Sound.enter hkept (fun w' hne => ?_) ?_
  · refine (hothers w' hne).set_lock (fun _ _ _ => rfl) fun x hx hname => ?_
    have hx_held := (hothers w' hne).held x hx
    refine update_of_ne (fun hlock => hne ?_) _ _
    rw [hname, hlock, hheld] at hx_held
    exact (Option.some.inj hx_held).symm
  · exact .idle

theorem Sound.open_lock (h : Sound identity s)
    (hprimary : ∀ inst, w = .appender inst → name = .primary inst)
    (hjob : ∀ entries, job = .clean entries → ∀ entry ∈ entries, entry ∈ s.consolidated)
    (hstep : s.open_lock w name job = some s') : Sound identity s' := by
  unfold Journals.open_lock at hstep
  split at hstep <;> cases hstep
  refine Sound.enter h.kept (fun w' _ => ?_) ?_
  · refine (h.writers w').set_lock (fun x hx hname => ?_) fun x _ _ => ?_
    · -- the file that `w'` has open has the name, so no new one is made
      have hnamed := (h.writers w').named x hx
      rw [hname] at hnamed
      rw [LockFile.open_create_of_named hnamed]
    · rw [LockFile.holder_open_create]
  · refine ⟨fun x hx => ?_, by simp [held?], fun inst hw x hx => ?_,
      by simp [content?], by simp [content?], by simp,
      fun entries hentries => hjob entries (Option.some.inj hentries)⟩
    · cases hx
      show (update s.locks name _ name).named = _
      rw [update_self]
      exact LockFile.named_open_create
    · cases hx
      exact hprimary inst hw

theorem Sound.take_lock (h : Sound identity s) (hstep : s.take_lock w = some s') :
    Sound identity s' := by
  unfold Journals.take_lock at hstep
  split at hstep
  swap
  · cases hstep
  rename_i name lock job hphase
  obtain ⟨f, hf, rfl⟩ := map_eq_some_iff.mp hstep
  obtain ⟨hfree, hnamed, hholder⟩ := LockFile.try_lock_eq_some hf
  have hself := h.writers w
  rw [hphase] at hself
  refine Sound.enter h.kept (fun w' _ => ?_) ?_
  · refine (h.writers w').set_lock (fun _ _ _ => hnamed) fun x hx hname => ?_
    have hheld := (h.writers w').held x hx
    rw [hholder]
    refine update_of_ne (fun hlock => ?_) _ _
    rw [hname, hlock, hfree] at hheld
    cases hheld
  · have hopen : WriterSound identity (s.set_lock name f) w (.opened name lock job) :=
      hself.set_lock (fun _ _ _ => hnamed) (by simp [held?])
    refine ⟨hopen.named, fun x hx => ?_, hopen.primary, by simp [content?],
      by simp [content?], by simp, hopen.job⟩
    cases hx
    show (update s.locks name f name).holder lock = some w
    rw [update_self, hholder, update_self]

variable {fails : Bool} {acknowledged : List ε} {failed : Option ℕ}

omit [DecidableEq ι] [DecidableEq γ] in
/-- A read that fails at most on an empty journal returns its content. -/
theorem content_of_read_content {content : List ε} (hclear : fails = true → s.content name = [])
    (h : s.read_content w name fails = some content) : s.content name = content := by
  cases w with
  | appender inst =>
    have hread := Option.some.inj h
    cases fails with
    | true => rw [hclear rfl, ← hread, if_pos rfl]
    | false => rw [← hread, if_neg (by simp)]
  | cleaner cleanup =>
    cases fails with
    | true => simp [read_content] at h
    | false =>
      have hread : s.files.content name = some content := by simpa [read_content] using h
      rw [Journals.content, hread, getD_some]

theorem Sound.read_journal (h : Sound identity s) (hclear : s.Clear identity (.read w fails))
    (hstep : s.read_journal w fails = some s') : Sound identity s' := by
  unfold Journals.read_journal at hstep
  split at hstep
  swap
  · cases hstep
  rename_i name lock job hphase
  obtain ⟨content, hcontent, rfl⟩ := map_eq_some_iff.mp hstep
  have hself := h.writers w
  have hnothing : fails = true → s.content name = [] := by
    intro hfails
    rw [hfails] at hclear
    exact hclear (name, lock) (by rw [hphase]; rfl)
  rw [hphase] at hself
  refine Sound.enter h.kept (fun w' _ => h.writers w') ?_
  refine ⟨hself.named, hself.held, hself.primary, fun x hx => ?_, fun x hx inst nanos hname => ?_,
    by simp, hself.job⟩
  · cases hx
    exact content_of_read_content hnothing hcontent
  · -- an append never reads a fresh journal, and a cleanup reads what exists
    cases hx
    cases w with
    | appender inst' =>
      have hprimary := hself.primary inst' rfl (name, lock) rfl
      rw [hprimary] at hname
      cases hname
    | cleaner cleanup =>
      intro hnone
      cases fails <;> simp [read_content] at hcontent
      rw [hnone] at hcontent
      cases hcontent

theorem Sound.write_temp (h : Sound identity s) (hstep : s.write_temp identity colon w = some s') :
    Sound identity s' := by
  unfold Journals.write_temp at hstep
  split at hstep
  swap
  · cases hstep
  rename_i name lock job content hphase
  split at hstep <;> cases hstep
  have hself := h.writers w
  rw [hphase] at hself
  refine Sound.enter h.kept (fun w' hne => ?_) ?_
  · refine (h.writers w').frame (fun _ _ => rfl) (fun _ _ => rfl) (fun _ _ => rfl)
      (fun _ _ => id) (fun x hx => ?_) fun _ => id
    have hheld : (s.phase w).held? = some (name, lock) := by rw [hphase]; rfl
    exact update_of_ne (h.read_apart hheld hne x hx) _ _
  · refine ⟨hself.named, hself.held, hself.primary, hself.content, hself.file, ?_, hself.job⟩
    rintro name' lock' job' content' hp
    cases hp
    exact update_self _ _ _

variable {files : Inodes (JournalName ι) (List ε)} {c : Option (List ε)}

omit [DecidableEq γ] in
theorem content_update (hfiles : files.content = update s.files.content name c)
    {name' : JournalName ι} (hne : name' ≠ name) : files.content name' = s.files.content name' := by
  rw [hfiles, update_of_ne hne]

omit [DecidableEq γ] in
theorem WriterSound.set_files (h : WriterSound identity s w p)
    (hfiles : files.content = update s.files.content name c)
    (hapart : ∀ x ∈ p.content?, x.1 ≠ name) :
    WriterSound identity { s with files := files, acknowledged := acknowledged } w p := by
  have hsame : ∀ x ∈ p.content?, files.content x.1 = s.files.content x.1 :=
    fun x hx => content_update hfiles (hapart x hx)
  refine h.frame (fun _ _ => rfl) (fun _ _ => rfl) (fun x hx => ?_) (fun x hx => ?_)
    (fun _ _ => rfl) fun _ => id
  · show (files.content x.1).getD [] = (s.files.content x.1).getD []
    rw [hsame x hx]
  · rw [← hsame x hx]
    exact id

omit [DecidableEq γ] in
theorem Kept.set_files (h : s.Kept) (hfiles : files.content = update s.files.content name c)
    (hold : ∀ entry ∈ s.content name, entry ∉ s.consolidated → entry ∈ c.getD [])
    (hack : ∀ entry ∈ acknowledged, entry ∈ s.acknowledged ∨ entry ∈ c.getD []) :
    Kept { s with files := files, acknowledged := acknowledged } := by
  have hself : (files.content name).getD [] = c.getD [] := by rw [hfiles, update_self]
  refine h.of_content (fun entry hentry => ?_) (fun _ => id) fun name' entry hentry hnew => ?_
  · refine (hack entry hentry).imp_right fun hin => ⟨name, ?_⟩
    show entry ∈ (files.content name).getD []
    rw [hself]
    exact hin
  · by_cases hname : name' = name
    · refine ⟨name, ?_⟩
      show entry ∈ (files.content name).getD []
      rw [hself]
      exact hold entry (hname ▸ hentry) hnew
    · refine ⟨name', ?_⟩
      show entry ∈ (files.content name').getD []
      rw [content_update hfiles hname]
      exact hentry

section

variable (h : Sound identity s)

include h

theorem Sound.publish (hclear : s.Clear identity (.publish w)) (hstep : s.publish w = some s') :
    Sound identity s' := by
  unfold Journals.publish at hstep
  split at hstep <;> cases hstep
  rename_i name lock job content hphase
  have hheld : (s.phase w).held? = some (name, lock) := by rw [hphase]; rfl
  have hread : (s.phase w).content? = some (name, content) := by rw [hphase]; rfl
  have hjob : (s.phase w).job? = some job := by rw [hphase]; rfl
  have htemp := (h.writers w).temp name lock job content hphase
  have hfiles := s.files.content_replace name (s.temp name)
  rw [htemp] at hfiles ⊢
  refine Sound.release ?_ (fun w' hne => ?_) ((h.writers w).held _ hheld)
  · refine h.kept.set_files hfiles (fun entry hentry hnew => ?_) fun entry hentry => ?_
    · exact h.mem_rewrite hread hjob (hclear _ hread job hjob) hentry hnew
    · exact (List.mem_append.mp hentry).imp_right JournalJob.added_subset_rewrite
  · exact (h.writers w').set_files hfiles (h.read_apart hheld hne)

theorem Sound.delete (hclear : s.Clear identity (.delete w))
    (hstep : s.delete identity colon w = some s') : Sound identity s' := by
  unfold Journals.delete at hstep
  split at hstep
  swap
  · cases hstep
  rename_i name lock job content hphase
  split at hstep <;> cases hstep
  rename_i hdeletes
  have hheld : (s.phase w).held? = some (name, lock) := by rw [hphase]; rfl
  have hread : (s.phase w).content? = some (name, content) := by rw [hphase]; rfl
  have hjob : (s.phase w).job? = some job := by rw [hphase]; rfl
  have hempty : job.rewrite identity content = [] := by
    cases job with
    | append entries => simp [JournalJob.deletes] at hdeletes
    | clean entries =>
      simp only [JournalJob.deletes, Bool.and_eq_true, List.isEmpty_iff] at hdeletes
      exact hdeletes.2.2
  have hfiles := s.files.content_remove name
  refine Sound.release ?_ (fun w' hne => ?_) ((h.writers w).held _ hheld)
  · refine h.kept.set_files hfiles (fun entry hentry hnew => ?_) fun _ => .inl
    have hleft := h.mem_rewrite hread hjob (hclear _ hread job hjob) hentry hnew
    rw [hempty] at hleft
    exact hleft
  · exact (h.writers w').set_files hfiles (h.read_apart hheld hne)

theorem Sound.give_up (hstep : s.give_up w = some s') : Sound identity s' := by
  have hrelease : ∀ name lock, (s.phase w).held? = some (name, lock) →
      Sound identity (s.release w name lock) := fun name lock hheld =>
    Sound.release h.kept (fun w' _ => h.writers w') ((h.writers w).held _ hheld)
  unfold Journals.give_up at hstep
  split at hstep <;> rename_i hphase
  · cases hstep
  · cases hstep
    exact Sound.enter h.kept (fun w' _ => h.writers w') .idle
  all_goals
    cases hstep
    exact hrelease _ _ (by rw [hphase]; rfl)

omit [DecidableEq γ] in
theorem Sound.write_entries {file : ℕ} (entries : List ε) (failed : Option ℕ)
    (hname : files.names name = some file)
    (hfiles : files.content = update s.files.content name (some (s.content name)))
    (hapart : ∀ w, ∀ x ∈ (s.phase w).content?, x.1 ≠ name) :
    Sound identity (s.write_entries files file entries failed) := by
  have hcontents : files.contents file = s.content name := by
    have hself := Inodes.content_of_names hname
    rw [hfiles, update_self] at hself
    exact (Option.some.inj hself).symm
  have hwrite : ∀ more, (files.write file (files.contents file ++ more)).content =
      update s.files.content name (some (s.content name ++ more)) := by
    intro more
    rw [Inodes.content_write hname, hcontents, hfiles, update_idem]
  cases failed with
  | none =>
    refine ⟨h.kept.set_files (hwrite entries) (fun entry hentry _ => ?_) fun entry hentry => ?_,
      fun w => (h.writers w).set_files (hwrite entries) (hapart w)⟩
    · exact List.mem_append_left entries hentry
    · exact (List.mem_append.mp hentry).imp_right (List.mem_append_right (s.content name))
  | some written =>
    have hpart := hwrite (entries.take written)
    refine ⟨h.kept.set_files hpart (fun entry hentry _ => ?_) fun _ => .inl,
      fun w => (h.writers w).set_files hpart (hapart w)⟩
    exact List.mem_append_left _ hentry

variable {inst : ι}

theorem Sound.write_fresh {nanos : ℕ} (hclear : s.Clear identity (.fresh inst nanos failed))
    (hstep : s.write_fresh inst nanos failed = some s') : Sound identity s' := by
  have hnone : s.files.content (.fresh inst nanos) = none := by
    have hnames : s.files.names (.fresh inst nanos) = none := hclear
    rw [Inodes.content, hnames, map_none]
  unfold Journals.write_fresh at hstep
  split at hstep <;> cases hstep
  rename_i name lock entries hphase
  set opened := s.files.open_create (.fresh inst nanos) [] with hopened
  have hnamed : (opened.2.write opened.1 []).names (.fresh inst nanos) = some opened.1 :=
    s.files.names_open_create _ _
  have hempty : s.content (.fresh inst nanos) = [] := by
    rw [Journals.content, hnone, getD_none]
  have hfiles : (opened.2.write opened.1 []).content =
      update s.files.content (.fresh inst nanos)
        (some (s.content (.fresh inst nanos))) := by
    rw [Inodes.content_write (d := opened.2) hnamed, hopened, Inodes.content_open_create,
      update_idem, hempty]
  have hapart : ∀ w, ∀ x ∈ (s.phase w).content?, x.1 ≠ .fresh inst nanos := by
    intro w x hx hfresh
    have hthere := (h.writers w).file x hx inst nanos hfresh
    rw [hfresh] at hthere
    exact hthere hnone
  have hwritten := h.write_entries entries failed hnamed hfiles
    hapart
  refine Sound.enter hwritten.kept (fun w' _ => ?_) .idle
  exact hwritten.writers w'

omit [DecidableEq γ] in
theorem Sound.flush_write (hclear : s.Clear identity (.flush_write inst failed))
    (hstep : s.flush_write inst failed = some s') : Sound identity s' := by
  obtain ⟨flush, hflush, rfl⟩ := map_eq_some_iff.mp hstep
  obtain ⟨hnamed, hapart⟩ := hclear flush hflush
  have hfiles : s.files.content =
      update s.files.content (.primary inst) (some (s.content (.primary inst))) := by
    rw [Journals.content, Inodes.content_of_names hnamed, getD_some,
      ← Inodes.content_of_names hnamed, update_eq_self]
  have hwritten := h.write_entries flush.2 failed hnamed hfiles hapart
  exact ⟨hwritten.kept, fun w => (hwritten.writers w).same rfl rfl rfl fun _ => id⟩

omit [DecidableEq γ] in
theorem Sound.flush_open {flushing : ι → Option (ℕ × List ε)} :
    Sound identity
      { s with
        files := (s.files.open_create (.primary inst) []).2
        flushing := flushing } := by
  have hfiles := s.files.content_open_create (.primary inst) []
  have hcontent : ∀ name,
      ((s.files.open_create (.primary inst) []).2.content name).getD [] = s.content name := by
    intro name
    rw [hfiles]
    by_cases hname : name = .primary inst
    · rw [hname, update_self]
      rfl
    · rw [update_of_ne hname]
      rfl
  refine ⟨?_, fun w => ?_⟩
  · refine h.kept.of_content (fun _ => .inl) (fun _ => id) fun name entry hentry _ => ⟨name, ?_⟩
    rw [← hcontent name] at hentry
    exact hentry
  · refine (h.writers w).frame (fun _ _ => rfl) (fun _ _ => rfl) (fun x _ => hcontent x.1)
      (fun x _ hthere => ?_) (fun _ _ => rfl) fun _ => id
    rw [hfiles]
    by_cases hname : x.1 = .primary inst
    · rw [hname, update_self]
      exact some_ne_none _
    · rw [update_of_ne hname]
      exact hthere

theorem Sound.step [DecidableEq ε] {event : JournalEvent ι γ ε} (hclear : s.Clear identity event)
    (hstep : s.step identity colon event = some s') : Sound identity s' := by
  cases event with
  | append inst entries =>
    refine h.open_lock (fun inst' hw => ?_) (fun entries' hjob => ?_) hstep
    · rw [JournalWriter.appender.inj hw]
    · cases hjob
  | clean cleanup name entries =>
    simp only [Journals.step] at hstep
    split_ifs at hstep with hsub
    refine h.open_lock (fun inst hw => ?_) (fun entries' hjob => ?_) hstep
    · cases hw
    · rw [← JournalJob.clean.inj hjob]
      exact hsub
  | lock w => exact h.take_lock hstep
  | fresh inst nanos failed => exact h.write_fresh hclear hstep
  | read w fails => exact h.read_journal hclear hstep
  | write_temp w => exact h.write_temp hstep
  | publish w => exact h.publish hclear hstep
  | delete w => exact h.delete hclear hstep
  | give_up w => exact h.give_up hstep
  | flush_open inst entries =>
    simp only [Journals.step] at hstep
    split at hstep <;> cases hstep
    exact h.flush_open
  | flush_write inst failed => exact h.flush_write hclear hstep
  | flush_fail inst =>
    cases hstep
    exact ⟨h.kept, fun w => (h.writers w).same rfl rfl rfl fun _ => id⟩
  | find_stale cleanup name =>
    simp only [Journals.step] at hstep
    split at hstep <;> cases hstep
    exact ⟨h.kept, fun w => (h.writers w).same rfl rfl rfl fun _ => id⟩
  | unlink_lock cleanup =>
    obtain ⟨name, hstale, rfl⟩ := map_eq_some_iff.mp hstep
    -- nobody has the file open that loses its name
    have hunused := hclear name hstale
    refine ⟨h.kept, fun w => ?_⟩
    have hset : WriterSound identity (s.set_lock name (s.locks name).unlink) w (s.phase w) :=
      (h.writers w).set_lock (fun x hx hname => absurd hname (hunused w x hx)) fun _ _ _ => rfl
    exact hset.same rfl rfl rfl fun _ => id
  | consolidate entry =>
    cases hstep
    have hmore : ∀ e ∈ s.consolidated, e ∈ s.consolidated ++ [entry] :=
      fun e he => List.mem_append_left _ he
    refine ⟨h.kept.of_content (fun _ => .inl) hmore fun name e he _ => ⟨name, he⟩, fun w => ?_⟩
    exact (h.writers w).same rfl rfl rfl hmore

end

end Preservation

/-- Entry 2 is flushed after an append of entry 1 has read the journal. -/
def flush_during_append : List (JournalEvent Unit Unit ℕ) :=
  [.append () [1], .lock (.appender ()), .read (.appender ()) false, .flush_open () [2],
    .flush_write () none, .write_temp (.appender ()), .publish (.appender ())]

/-- Entry 1 is consolidated and cleaned away; entry 3 comes while the lock is taken for that. -/
def append_during_cleanup : List (JournalEvent Unit Unit ℕ) :=
  [.append () [1], .lock (.appender ()), .read (.appender ()) false, .write_temp (.appender ()),
    .publish (.appender ()), .flush_open () [2], .flush_write () none, .consolidate 1,
    .clean () (.primary ()) [1], .lock (.cleaner ()), .append () [3], .read (.cleaner ()) false,
    .fresh () 7 none, .write_temp (.cleaner ()), .publish (.cleaner ()),
    .find_stale () (.fresh () 5), .unlink_lock ()]

end Journals

end HybridCache.Journal
