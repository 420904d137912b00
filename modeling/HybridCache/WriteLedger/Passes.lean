/-
The write ledger: appends and retirement passes (`write_ledger.rs`).

A pass of `retire_identities` reads a file before it takes the lock, and then writes what it read
without the entries it retires. What happens to the file between the two is undone: an entry
appended there is lost, and one that another pass has removed comes back
(`retirement_loses_and_revives`). A read that fails counts as a read of an empty file.

Files are lists of entries. An append that fails has not taken place.
-/
import HybridCache.CacheTypes.Record
import HybridCache.Lib.Directory
import HybridCache.Lib.Transition

namespace HybridCache.WriteLedger

open Lib List

/-! ## The model -/

structure WriteLedgerEntry where
  timestamp : ℕ
  cache_key : List Char
  range_start : ℕ
  range_end : ℕ
  compressed_size : ℕ
  instance_id : List Char
deriving DecidableEq, Repr

abbrev Identity := List Char × ℕ × ℕ × ℕ × List Char

def WriteLedgerEntry.identity (entry : WriteLedgerEntry) : Identity :=
  (entry.cache_key, entry.range_start, entry.range_end, entry.timestamp, entry.instance_id)

/-- A pass at work: what it retires, the files it has still to read, and the file that it has read
and not rewritten yet, with the entries it read. -/
structure Pass where
  retire : List Identity
  to_read : List (List Char)
  in_hand : Option (List Char × List WriteLedgerEntry)
  failed : Bool
  completed : Bool
deriving DecidableEq

/-- The ledger files by instance, the passes, and which entries were appended to which file. -/
structure LedgerState where
  files : Directory (List Char) (List WriteLedgerEntry)
  passes : Directory ℕ Pass
  appended : List (List Char × WriteLedgerEntry)

inductive LedgerEvent where
  | append (instance_id : List Char) (entry : WriteLedgerEntry)
  | start (pass : ℕ) (retire : List Identity) (ledger_files : List (List Char))
  | read_file (pass : ℕ) (fails : Bool)
  | rewrite (pass : ℕ) (fails : Bool)
  | complete (pass : ℕ)

namespace LedgerState

def init : LedgerState :=
  ⟨.empty, .empty, []⟩

def content (s : LedgerState) (file : List Char) : List WriteLedgerEntry :=
  (s.files.get? file).getD []

def set_pass (s : LedgerState) (p : ℕ) (pass : Pass) : LedgerState :=
  { s with passes := s.passes.put p pass }

/-- Write the entries that are kept, or remove the file if there are none. -/
def rewrite_file (s : LedgerState) (file : List Char) (kept : List WriteLedgerEntry) :
    LedgerState :=
  { s with files := if kept = [] then s.files.erase file else s.files.put file kept }

/-- `append`, and `retire_identities` cut at the points where others can come in: the list of the
files, each read, each rewriting, and the end. -/
def step (s : LedgerState) : LedgerEvent → Option LedgerState
  | .append instance_id entry =>
    some { s with
      files := s.files.put instance_id (s.content instance_id ++ [entry])
      appended := (instance_id, entry) :: s.appended }
  | .start p retire ledger_files =>
    -- a file whose directory entry cannot be read is left out
    if s.passes.get? p = none ∧ ledger_files <+~ s.files.keys then
      some (s.set_pass p
        ⟨retire, ledger_files, none, s.files.keys.any fun f => f ∉ ledger_files, false⟩)
    else none
  | .read_file p fails =>
    match s.passes.get? p with
    | some pass =>
      match pass.to_read, pass.in_hand with
      | file :: rest, none =>
        let entries := if fails then [] else s.content file
        some (s.set_pass p { pass with to_read := rest, in_hand := some (file, entries) })
      | _, _ => none
    | none => none
  | .rewrite p fails =>
    match s.passes.get? p with
    | some pass =>
      match pass.in_hand with
      | some (file, entries) =>
        if fails then some (s.set_pass p { pass with in_hand := none, failed := true })
        else
          let kept := entries.filter fun e => e.identity ∉ pass.retire
          some ((s.rewrite_file file kept).set_pass p { pass with in_hand := none })
      | none => none
    | none => none
  | .complete p =>
    match s.passes.get? p with
    | some pass =>
      if pass.to_read = [] ∧ pass.in_hand = none ∧ pass.completed = false then
        some (s.set_pass p { pass with completed := true })
      else none
    | none => none

/-! ## What is to hold -/

def Named (s : LedgerState) (identity : Identity) : Prop :=
  ∃ p pass, s.passes.get? p = some pass ∧ identity ∈ pass.retire

/-- Every entry that was appended and that no pass names is in its file, and no entry that a
completed pass names is in any. A pass that missed a file or could not rewrite one has not
completed. -/
structure Retained (s : LedgerState) : Prop where
  unnamed : ∀ file entry, (file, entry) ∈ s.appended → ¬ s.Named entry.identity →
    entry ∈ s.content file
  retired : ∀ p pass, s.passes.get? p = some pass → pass.completed = true → pass.failed = false →
    ∀ file, ∀ entry ∈ s.content file, entry.identity ∉ pass.retire

/-- The file that the pass has in hand has the entries that it read. -/
def AsRead (s : LedgerState) (p : ℕ) : Prop :=
  ∀ file entries, (s.passes.get? p).bind Pass.in_hand = some (file, entries) →
    s.content file = entries

/-- An appended entry has an identity that no pass names yet, and a pass rewrites a file that has
the entries it read. -/
def Undisturbed (s : LedgerState) : LedgerEvent → Prop
  | .append _ entry => ¬ s.Named entry.identity
  | .rewrite p fails => fails = false → s.AsRead p
  | _ => True

instance (s : LedgerState) (identity : Identity) : Decidable (s.Named identity) :=
  decidable_of_iff (∃ e ∈ s.passes.entries, identity ∈ e.2.retire) (by
    constructor
    · rintro ⟨e, he, hmem⟩
      exact ⟨e.1, e.2, Directory.get?_of_mem he, hmem⟩
    · rintro ⟨p, pass, hpass, hmem⟩
      exact ⟨(p, pass), Directory.mem_of_get? hpass, hmem⟩)

instance (s : LedgerState) (p : ℕ) : Decidable (s.AsRead p) :=
  match h : (s.passes.get? p).bind Pass.in_hand with
  | none => isTrue (by
      intro file entries hhand
      rw [h] at hhand
      cases hhand)
  | some (file, entries) => decidable_of_iff (s.content file = entries) (by
      rw [AsRead, h]
      constructor
      · intro hcontent file' entries' heq
        cases heq
        exact hcontent
      · exact fun hall => hall file entries rfl)

instance (s : LedgerState) : ∀ event, Decidable (s.Undisturbed event)
  | .append _ _ => inferInstanceAs (Decidable (¬ _))
  | .rewrite _ _ => inferInstanceAs (Decidable (_ → _))
  | .start _ _ _ => isTrue trivial
  | .read_file _ _ => isTrue trivial
  | .complete _ => isTrue trivial

/-- A file that a pass has not to read any more and has not in hand has no entry that it names. -/
structure Swept (s : LedgerState) : Prop where
  unnamed : ∀ file entry, (file, entry) ∈ s.appended → ¬ s.Named entry.identity →
    entry ∈ s.content file
  cleared : ∀ p pass, s.passes.get? p = some pass → pass.failed = false →
    ∀ file, file ∉ pass.to_read → (∀ entries, pass.in_hand ≠ some (file, entries)) →
      ∀ entry ∈ s.content file, entry.identity ∉ pass.retire
  ended : ∀ p pass, s.passes.get? p = some pass → pass.completed = true →
    pass.to_read = [] ∧ pass.in_hand = none

theorem Swept.retained {s : LedgerState} (h : s.Swept) : s.Retained := by
  refine ⟨h.unnamed, fun p pass hpass hcompleted hfailed file entry hentry => ?_⟩
  obtain ⟨hread, hhand⟩ := h.ended p pass hpass hcompleted
  refine h.cleared p pass hpass hfailed file ?_ ?_ entry hentry
  · rw [hread]
    exact not_mem_nil
  · intro entries
    rw [hhand]
    exact nofun

/-! ## What one step changes -/

section Steps

variable {s : LedgerState} {p : ℕ} {pass : Pass} {file : List Char} {f : List Char} {pass' : Pass}
  {q : ℕ}

theorem content_put (entries : List WriteLedgerEntry)
    (appended : List (List Char × WriteLedgerEntry)) :
    content { s with files := s.files.put file entries, appended := appended } f =
      if f = file then entries else s.content f := by
  unfold content
  split_ifs with hf
  · rw [hf, Directory.get?_put_self, Option.getD_some]
  · rw [Directory.get?_put_ne _ hf]

theorem content_rewrite_file (kept : List WriteLedgerEntry) :
    (s.rewrite_file file kept).content f = if f = file then kept else s.content f := by
  unfold rewrite_file
  by_cases hkept : kept = []
  · unfold content
    rw [if_pos hkept]
    split_ifs with hf
    · rw [hf, Directory.get?_erase_self, hkept, Option.getD_none]
    · rw [Directory.get?_erase_ne _ hf]
  · rw [if_neg hkept]
    exact content_put kept s.appended

theorem passes_set_pass :
    (s.set_pass p pass').passes.get? q = if q = p then some pass' else s.passes.get? q := by
  split_ifs with hqp
  · rw [hqp]
    exact Directory.get?_put_self
  · exact Directory.get?_put_ne _ hqp

theorem of_passes_set_pass {other : Pass} (h : (s.set_pass p pass').passes.get? q = some other) :
    (q = p ∧ other = pass') ∨ (q ≠ p ∧ s.passes.get? q = some other) := by
  rw [passes_set_pass] at h
  split at h
  case isTrue hqp => exact .inl ⟨hqp, (Option.some.inj h).symm⟩
  case isFalse hqp => exact .inr ⟨hqp, h⟩

theorem named_set_pass (hpass : s.passes.get? p = some pass)
    (hretire : pass'.retire = pass.retire) (identity : Identity) :
    (s.set_pass p pass').Named identity ↔ s.Named identity := by
  constructor
  · rintro ⟨q, other, hq, hmem⟩
    rcases of_passes_set_pass hq with ⟨-, rfl⟩ | ⟨-, hq⟩
    · exact ⟨p, pass, hpass, hretire ▸ hmem⟩
    · exact ⟨q, other, hq, hmem⟩
  · rintro ⟨q, other, hq, hmem⟩
    by_cases hqp : q = p
    · rw [hqp, hpass, Option.some.injEq] at hq
      refine ⟨p, pass', by rw [passes_set_pass, if_pos rfl], ?_⟩
      rw [hretire, hq]
      exact hmem
    · exact ⟨q, other, by rw [passes_set_pass, if_neg hqp, hq], hmem⟩

theorem Swept.set_pass (h : s.Swept) (hpass : s.passes.get? p = some pass)
    (hretire : pass'.retire = pass.retire)
    (hcleared : pass'.failed = false → ∀ f, f ∉ pass'.to_read →
      (∀ entries, pass'.in_hand ≠ some (f, entries)) →
      ∀ entry ∈ s.content f, entry.identity ∉ pass'.retire)
    (hended : pass'.completed = true → pass'.to_read = [] ∧ pass'.in_hand = none) :
    (s.set_pass p pass').Swept := by
  refine ⟨?_, ?_, ?_⟩
  · intro f entry happended hunnamed
    rw [named_set_pass hpass hretire] at hunnamed
    exact h.unnamed f entry happended hunnamed
  · intro q other hq
    rcases of_passes_set_pass hq with ⟨-, rfl⟩ | ⟨-, hq⟩
    · exact hcleared
    · exact h.cleared q other hq
  · intro q other hq
    rcases of_passes_set_pass hq with ⟨-, rfl⟩ | ⟨-, hq⟩
    · exact hended
    · exact h.ended q other hq

theorem Swept.append (h : s.Swept) {entry : WriteLedgerEntry}
    (hfresh : ¬ s.Named entry.identity) :
    Swept { s with
      files := s.files.put file (s.content file ++ [entry])
      appended := (file, entry) :: s.appended } := by
  refine ⟨?_, ?_, h.ended⟩
  · intro f e happended hunnamed
    rw [content_put]
    rcases mem_cons.mp happended with heq | hbefore
    · obtain ⟨rfl, rfl⟩ := Prod.mk.inj heq
      rw [if_pos rfl]
      exact mem_append_right _ mem_cons_self
    · have hin := h.unnamed f e hbefore hunnamed
      split_ifs with hf
      · exact mem_append_left _ (hf ▸ hin)
      · exact hin
  · intro q other hq hfailed f hread hhand e he
    rw [content_put] at he
    split_ifs at he with hf
    · rw [mem_append, mem_singleton] at he
      rcases he with he | rfl
      · exact h.cleared q other hq hfailed f hread hhand e (hf ▸ he)
      · exact fun hmem => hfresh ⟨q, other, hq, hmem⟩
    · exact h.cleared q other hq hfailed f hread hhand e he

theorem Swept.start (h : s.Swept) (hnew : s.passes.get? p = none) {retire : List Identity}
    {ledger_files : List (List Char)} : (s.set_pass p ⟨retire, ledger_files, none,
      s.files.keys.any fun f => f ∉ ledger_files, false⟩).Swept := by
  refine ⟨?_, ?_, ?_⟩
  · intro f entry happended hunnamed
    refine h.unnamed f entry happended fun hnamed => hunnamed ?_
    obtain ⟨q, other, hq, hmem⟩ := hnamed
    have hqp : q ≠ p := by
      rintro rfl
      rw [hnew] at hq
      cases hq
    exact ⟨q, other, by rw [passes_set_pass, if_neg hqp, hq], hmem⟩
  · intro q other hq hfailed f hread hhand entry hentry
    change entry ∈ s.content f at hentry
    rcases of_passes_set_pass hq with ⟨-, rfl⟩ | ⟨-, hq⟩
    · -- a file that is not on the list is missing
      have hkey : f ∉ s.files.keys := fun hkey =>
        absurd (any_eq_false.mp hfailed f hkey) (by simpa using hread)
      rw [Directory.mem_keys_iff, Option.not_isSome_iff_eq_none] at hkey
      rw [content, hkey, Option.getD_none] at hentry
      cases hentry
    · exact h.cleared q other hq hfailed f hread hhand entry hentry
  · intro q other hq hcompleted
    rcases of_passes_set_pass hq with ⟨-, rfl⟩ | ⟨-, hq⟩
    · cases hcompleted
    · exact h.ended q other hq hcompleted

theorem Swept.rewrite_file (h : s.Swept) (hpass : s.passes.get? p = some pass) :
    (s.rewrite_file file ((s.content file).filter fun e => e.identity ∉ pass.retire)).Swept := by
  have hsub : ∀ f, ∀ entry ∈ (s.rewrite_file file
      ((s.content file).filter fun e => e.identity ∉ pass.retire)).content f,
      entry ∈ s.content f := by
    intro f entry hentry
    rw [content_rewrite_file] at hentry
    split_ifs at hentry with hf
    · exact hf ▸ mem_of_mem_filter hentry
    · exact hentry
  refine ⟨?_, ?_, h.ended⟩
  · intro f entry happended hunnamed
    have hin := h.unnamed f entry happended hunnamed
    rw [content_rewrite_file]
    split_ifs with hf
    · refine mem_filter.mpr ⟨hf ▸ hin, decide_eq_true fun hmem => ?_⟩
      exact hunnamed ⟨p, pass, hpass, hmem⟩
    · exact hin
  · intro q other hq hfailed f hread hhand entry hentry
    exact h.cleared q other hq hfailed f hread hhand entry (hsub f entry hentry)

/-- **Every step that is undisturbed keeps the ledger swept.** -/
theorem Swept.step {s' : LedgerState} (h : s.Swept) (event : LedgerEvent)
    (hguard : s.Undisturbed event) (hstep : s.step event = some s') : s'.Swept := by
  cases event with
  | append instance_id entry =>
    simp only [LedgerState.step, Option.some.injEq] at hstep
    subst hstep
    exact h.append hguard
  | start p retire ledger_files =>
    simp only [LedgerState.step, Option.ite_none_right_eq_some, Option.some.injEq] at hstep
    obtain ⟨⟨hnew, -⟩, rfl⟩ := hstep
    exact h.start hnew
  | read_file p fails =>
    simp only [LedgerState.step] at hstep
    split at hstep
    case h_1 pass hpass =>
      split at hstep
      case h_1 file rest hread hhand =>
        cases hstep
        refine h.set_pass hpass rfl (fun hfailed f hf hother => ?_) (fun hcompleted => ?_)
        · -- what is not in hand now was not to be read before
          refine h.cleared p pass hpass hfailed f ?_ ?_
          · rw [hread, mem_cons, not_or]
            exact ⟨fun hfile => hother _ (by rw [hfile]), hf⟩
          · rw [hhand]
            exact nofun
        · rw [(h.ended p pass hpass hcompleted).1] at hread
          cases hread
      case h_2 => cases hstep
    case h_2 => cases hstep
  | rewrite p fails =>
    simp only [LedgerState.step] at hstep
    split at hstep
    case h_1 pass hpass =>
      split at hstep
      case h_1 file entries hhand =>
        have hended : pass.completed = true → False := by
          intro hcompleted
          rw [(h.ended p pass hpass hcompleted).2] at hhand
          cases hhand
        split at hstep
        case isTrue =>
          cases hstep
          exact h.set_pass hpass rfl nofun (fun hcompleted => absurd hcompleted hended)
        case isFalse hfails =>
          cases hstep
          have hcontent : s.content file = entries :=
            hguard (Bool.eq_false_iff.mpr hfails) file entries (by
              rw [hpass, Option.bind_some, hhand])
          subst hcontent
          refine (h.rewrite_file hpass).set_pass hpass rfl (fun hfailed f hread hother => ?_)
            (fun hcompleted => absurd hcompleted hended)
          intro entry hentry
          rw [content_rewrite_file] at hentry
          split_ifs at hentry with hf
          · have hkept := of_mem_filter hentry
            exact of_decide_eq_true hkept
          · refine h.cleared p pass hpass hfailed f hread (fun entries heq => ?_) entry hentry
            rw [hhand] at heq
            exact hf (Prod.mk.inj (Option.some.inj heq)).1.symm
      case h_2 => cases hstep
    case h_2 => cases hstep
  | complete p =>
    simp only [LedgerState.step] at hstep
    split at hstep
    case h_1 pass hpass =>
      split at hstep
      case isTrue hdone =>
        cases hstep
        exact h.set_pass hpass rfl (h.cleared p pass hpass) (fun _ => ⟨hdone.1, hdone.2.1⟩)
      case isFalse => cases hstep
    case h_2 => cases hstep

theorem swept_init : init.Swept where
  unnamed := nofun
  cleared := nofun
  ended := nofun

end Steps

def staged (timestamp : ℕ) : WriteLedgerEntry :=
  ⟨timestamp, ['k'], 0, 9, 10, ['a']⟩

/-- A pass retires one of two entries, undisturbed. -/
def quiet_events : List LedgerEvent :=
  [.append ['a'] (staged 1), .append ['a'] (staged 2), .start 0 [(staged 1).identity] [['a']],
    .read_file 0 false, .rewrite 0 false, .complete 0]

/-- A pass reads the file, an entry is appended, and the pass rewrites the file. -/
def losing_events : List LedgerEvent :=
  [.append ['a'] (staged 1), .append ['a'] (staged 2), .start 0 [(staged 1).identity] [['a']],
    .read_file 0 false, .append ['a'] (staged 3), .rewrite 0 false, .complete 0]

/-- A pass reads the file, another one goes through, and the first one rewrites the file. -/
def reviving_events : List LedgerEvent :=
  [.append ['a'] (staged 1), .append ['a'] (staged 2), .append ['a'] (staged 3),
    .start 0 [(staged 1).identity] [['a']], .start 1 [(staged 2).identity] [['a']],
    .read_file 1 false, .read_file 0 false, .rewrite 0 false, .complete 0, .rewrite 1 false]

end LedgerState

end HybridCache.WriteLedger
