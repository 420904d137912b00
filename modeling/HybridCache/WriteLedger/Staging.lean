/-
The candidates of a staging eviction (`read_merged_oldest_first`, `group_by_key` and
`order_staging_candidates` in `write_ledger.rs`).

The entries of all ledger files are merged oldest first and, if there is a cap, cut after it.
Entries of one key make one candidate. Its bytes are added up without going past the largest `u64`;
everything else about it is exact.
-/
import HybridCache.Lib.Outcome
import HybridCache.Lib.SortByKey
import HybridCache.WriteLedger.Retire

namespace HybridCache.WriteLedger

open Lib LedgerState List

/-! ## The model -/

structure StagedCandidate where
  cache_key : List Char
  oldest_entry_at : ℕ
  newest_entry_at : ℕ
  hinted_bytes : ℕ
  identities : List Identity
deriving DecidableEq, Repr

section Model

variable (json : LedgerJson) (faults : RetireFaults)

def listed_entries (files : LedgerDir) : List WriteLedgerEntry :=
  (ledger_files faults files).flatMap fun name =>
    read_file json (faults.read name) (files.get? name)

/-- What entries are sorted by: the time, then the key, then the start of the range. -/
def merge_key (entry : WriteLedgerEntry) : ℕ ×ₗ List Char ×ₗ ℕ :=
  toLex (entry.timestamp, toLex (entry.cache_key, entry.range_start))

/-- `read_merged_oldest_first`; `none` is its error. -/
def read_merged_oldest_first (cap : ℕ) (files : LedgerDir) : Option (List WriteLedgerEntry) :=
  if faults.directory then none
  else
    let all := sort_by_key merge_key (listed_entries json faults files)
    some (if 0 < cap ∧ cap < all.length then all.take cap else all)

end Model

namespace StagedCandidate

def of_entry (entry : WriteLedgerEntry) : StagedCandidate :=
  ⟨entry.cache_key, entry.timestamp, entry.timestamp, entry.compressed_size, [entry.identity]⟩

def absorb (existing : StagedCandidate) (entry : WriteLedgerEntry) : StagedCandidate :=
  { existing with
    hinted_bytes := u64_saturating_add existing.hinted_bytes entry.compressed_size
    newest_entry_at :=
      if existing.newest_entry_at < entry.timestamp then entry.timestamp
      else existing.newest_entry_at
    oldest_entry_at :=
      if entry.timestamp < existing.oldest_entry_at then entry.timestamp
      else existing.oldest_entry_at
    identities := existing.identities ++ [entry.identity] }

end StagedCandidate

open StagedCandidate

def add_candidate (grouped : List StagedCandidate) (entry : WriteLedgerEntry) :
    List StagedCandidate :=
  match lookup cache_key grouped entry.cache_key with
  | some existing => insert_row cache_key grouped (existing.absorb entry)
  | none => insert_row cache_key grouped (of_entry entry)

def group_by_key (entries : List WriteLedgerEntry) : List StagedCandidate :=
  entries.foldl add_candidate []

def order_staging_candidates (candidates : List StagedCandidate) (watermark : ℕ) :
    List StagedCandidate :=
  let sorted := sort_by_key oldest_entry_at candidates
  (sorted.filter fun c => c.oldest_entry_at < watermark) ++
    sorted.filter fun c => ¬ c.oldest_entry_at < watermark

/-! ## The candidate of a key -/

/-- What a candidate says of the entries of its key. -/
structure Describes (c : StagedCandidate) (entries : List WriteLedgerEntry) : Prop where
  oldest : IsLeast {t | t ∈ entries.map WriteLedgerEntry.timestamp} c.oldest_entry_at
  newest : IsGreatest {t | t ∈ entries.map WriteLedgerEntry.timestamp} c.newest_entry_at
  bytes : (entries.map WriteLedgerEntry.compressed_size).sum ≤ u64_max →
    c.hinted_bytes = (entries.map WriteLedgerEntry.compressed_size).sum
  saturated : u64_max ≤ (entries.map WriteLedgerEntry.compressed_size).sum →
    u64_max ≤ c.hinted_bytes
  identities : c.identities = entries.map WriteLedgerEntry.identity

/-- A key has a candidate exactly if it has entries. -/
def Tells (c : Option StagedCandidate) (entries : List WriteLedgerEntry) : Prop :=
  c.elim (entries = []) fun c => Describes c entries

section Grouping

variable {c : StagedCandidate} {entries : List WriteLedgerEntry} {entry : WriteLedgerEntry}

theorem describes_of_entry : Describes (of_entry entry) [entry] := by
  refine ⟨?_, ?_, fun _ => by simp [of_entry], fun h => by simpa [of_entry] using h, rfl⟩
  all_goals simp [of_entry]

theorem Describes.absorb (h : Describes c entries) (entry : WriteLedgerEntry) :
    Describes (c.absorb entry) (entries ++ [entry]) := by
  have htimes : {t | t ∈ (entries ++ [entry]).map WriteLedgerEntry.timestamp} =
      insert entry.timestamp {t | t ∈ entries.map WriteLedgerEntry.timestamp} := by
    ext t
    simp [or_comm]
  have hsum : ((entries ++ [entry]).map WriteLedgerEntry.compressed_size).sum =
      (entries.map WriteLedgerEntry.compressed_size).sum + entry.compressed_size := by simp
  refine ⟨?_, ?_, ?_, ?_, ?_⟩
  · rw [htimes, StagedCandidate.absorb, ← min_def_lt]
    exact h.oldest.insert _
  · rw [htimes, StagedCandidate.absorb, ← max_def_lt, max_comm]
    exact h.newest.insert _
  · rw [hsum, StagedCandidate.absorb, u64_saturating_add]
    intro hle
    rw [h.bytes (Nat.le_of_add_right_le hle), min_eq_left hle]
  · rw [hsum, StagedCandidate.absorb, u64_saturating_add]
    intro hle
    refine le_min ?_ le_rfl
    rcases Nat.le_total (entries.map WriteLedgerEntry.compressed_size).sum u64_max with hold | hold
    · rw [h.bytes hold]
      exact hle
    · exact (h.saturated hold).trans (Nat.le_add_right _ _)
  · rw [StagedCandidate.absorb, h.identities, map_append]
    rfl

/-- What the loop has made of the entries so far. -/
structure Grouped (entries : List WriteLedgerEntry) (grouped : List StagedCandidate) : Prop where
  nodup : (grouped.map cache_key).Nodup
  tells : ∀ key, Tells (lookup cache_key grouped key)
    (entries.filter fun entry => entry.cache_key = key)

variable {grouped : List StagedCandidate}

theorem Grouped.insert (h : Grouped entries grouped) (hkey : c.cache_key = entry.cache_key)
    (hc : Describes c ((entries ++ [entry]).filter fun e => e.cache_key = entry.cache_key)) :
    Grouped (entries ++ [entry]) (insert_row cache_key grouped c) := by
  refine ⟨nodup_map_key_insert_row h.nodup c, fun key => ?_⟩
  by_cases hc' : entry.cache_key = key
  · rw [← hc', ← hkey, lookup_insert_row_self, hkey]
    exact hc
  · rw [lookup_insert_row_ne (hkey ▸ hc'), filter_append,
      filter_cons_of_neg (by simpa using hc'), filter_nil, append_nil]
    exact h.tells key

theorem Grouped.add_candidate (h : Grouped entries grouped) (entry : WriteLedgerEntry) :
    Grouped (entries ++ [entry]) (add_candidate grouped entry) := by
  have htells := h.tells entry.cache_key
  have hfilter : (entries ++ [entry]).filter (fun e => e.cache_key = entry.cache_key) =
      entries.filter (fun e => e.cache_key = entry.cache_key) ++ [entry] := by
    rw [filter_append, filter_cons_of_pos (by simp), filter_nil]
  unfold WriteLedger.add_candidate
  cases hfound : lookup cache_key grouped entry.cache_key with
  | some existing =>
    rw [hfound] at htells
    have hkey : existing.cache_key = entry.cache_key := key_of_lookup hfound
    refine h.insert hkey ?_
    rw [hfilter]
    exact htells.absorb entry
  | none =>
    have hnone : entries.filter (fun e => e.cache_key = entry.cache_key) = [] := by
      rw [hfound] at htells
      exact htells
    refine h.insert rfl ?_
    rw [hfilter, hnone]
    exact describes_of_entry

theorem grouped_group_by_key (entries : List WriteLedgerEntry) :
    Grouped entries (group_by_key entries) := by
  induction entries using List.reverseRecOn with
  | nil => exact ⟨nodup_nil, fun _ => rfl⟩
  | append_singleton entries entry ih =>
    rw [group_by_key, foldl_append]
    exact ih.add_candidate entry

end Grouping

/-! ## The order -/

/-- Before: expired candidates come first, and of two alike the older one. -/
def RanksBefore (watermark : ℕ) (a b : StagedCandidate) : Prop :=
  (b.oldest_entry_at < watermark → a.oldest_entry_at < watermark) ∧
    a.oldest_entry_at ≤ b.oldest_entry_at

theorem order_staging_candidates_perm (candidates : List StagedCandidate) (watermark : ℕ) :
    (order_staging_candidates candidates watermark).Perm candidates := by
  refine List.Perm.trans ?_ (sort_by_key_perm oldest_entry_at candidates)
  simp only [order_staging_candidates, decide_not]
  exact filter_append_perm _ _

theorem order_staging_candidates_ranked (candidates : List StagedCandidate) (watermark : ℕ) :
    (order_staging_candidates candidates watermark).Pairwise (RanksBefore watermark) := by
  have hsorted := sort_by_key_ascending oldest_entry_at candidates
  have hranked : ∀ {a b : StagedCandidate}, a.oldest_entry_at ≤ b.oldest_entry_at →
      RanksBefore watermark a b :=
    fun hle => ⟨hle.trans_lt, hle⟩
  refine pairwise_append.mpr ⟨(hsorted.filter _).imp hranked, (hsorted.filter _).imp hranked,
    fun a ha b hb => hranked ?_⟩
  have hexpired := of_mem_filter ha
  have hfresh := of_mem_filter hb
  simp only [decide_eq_true_eq, not_lt] at hexpired hfresh
  exact hexpired.le.trans hfresh

/-- **The candidates of an eviction.** -/
theorem staging_candidates_of_ledgers (json : LedgerJson) (faults : RetireFaults) (cap : ℕ)
    (files : LedgerDir) (watermark : ℕ) (entries : List WriteLedgerEntry)
    (hread : read_merged_oldest_first json faults cap files = some entries) :
    (∃ merged, merged.Perm (listed_entries json faults files) ∧
      merged.Pairwise (fun a b => merge_key a ≤ merge_key b) ∧
      entries = if 0 < cap ∧ cap < merged.length then merged.take cap else merged) ∧
    ((group_by_key entries).map cache_key).Nodup ∧
    (∀ key, Tells (lookup cache_key (group_by_key entries) key)
      (entries.filter fun entry => entry.cache_key = key)) ∧
    (order_staging_candidates (group_by_key entries) watermark).Perm (group_by_key entries) ∧
    (order_staging_candidates (group_by_key entries) watermark).Pairwise
      (RanksBefore watermark) := by
  rw [read_merged_oldest_first, Option.ite_none_left_eq_some] at hread
  obtain ⟨-, hread⟩ := hread
  have hgrouped := grouped_group_by_key entries
  exact ⟨⟨_, sort_by_key_perm _ _, sort_by_key_ascending _ _, (Option.some.inj hread).symm⟩,
    hgrouped.nodup, hgrouped.tells, order_staging_candidates_perm _ _,
    order_staging_candidates_ranked _ _⟩

/-- With a cap, the candidate of a key has not the bytes of all its entries. -/
theorem capped_read_sums_less :
    ∃ entries, read_merged_oldest_first two_entries no_retire_faults 1
        (Directory.empty.put ledger_a (unlines [json_line "1", json_line "2"])) = some entries ∧
      listed_entries two_entries no_retire_faults
        (Directory.empty.put ledger_a (unlines [json_line "1", json_line "2"])) =
          [staged 1, staged 2] ∧
      (group_by_key entries).map (fun c => (c.cache_key, c.hinted_bytes)) = [(['k'], 10)] := by
  refine ⟨[staged 1], ?_, ?_, ?_⟩ <;> decide +kernel

theorem candidates_of_two_entries :
    ∃ entries, read_merged_oldest_first two_entries no_retire_faults 0
        (Directory.empty.put ledger_a (unlines [json_line "2", json_line "1"])) = some entries ∧
      (group_by_key entries).map (fun c => (c.oldest_entry_at, c.newest_entry_at, c.hinted_bytes)) =
        [(1, 2, 20)] ∧
      (order_staging_candidates (group_by_key entries) 2).Pairwise (RanksBefore 2) := by
  refine ⟨[staged 1, staged 2], by decide +kernel, by decide +kernel, ?_⟩
  exact (staging_candidates_of_ledgers two_entries no_retire_faults 0
    (Directory.empty.put ledger_a (unlines [json_line "2", json_line "1"])) 2 _
    (by decide +kernel)).2.2.2.2

end HybridCache.WriteLedger
