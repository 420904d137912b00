/-
What `write_cache_size` adds up to.

Every credit and every debit is posted to an episode of a key. As long as a key's graduation is
charged before the object is replaced or removed, past episodes are balanced, and the current one
owes the staged bytes, or once the object has graduated the bytes of its `Graduation` entries,
until one of them has been charged.
-/
import HybridCache.WriteTier.Tier

namespace HybridCache.WriteTier

open List Option

open Lib Metadata SizeTracking Directory NewCacheMetadata Tracking WriteTier.Task Function

namespace Tier

variable {ω π κ ι τ σ : Type}

/-! ## Entries to come -/

/-- An entry that consolidation may still see: in a journal, or about to be appended. -/
def Pending (s : Tier ω π κ ι τ σ) (entry : GraduationEntry κ) : Prop :=
  entry ∈ s.journal ∨ ∃ t, (s.tasks t).bind entry? = some entry

/-- All pending entries are such. -/
def AllPending (s : Tier ω π κ ι τ σ) (P : GraduationEntry κ → Prop) : Prop :=
  ∀ entry, s.Pending entry → P entry

instance [Fintype τ] (s : Tier ω π κ ι τ σ) (P : GraduationEntry κ → Prop) [DecidablePred P] :
    Decidable (s.AllPending P) :=
  decidable_of_iff ((∀ entry ∈ s.journal, P entry) ∧
      ∀ t, ∀ entry ∈ (s.tasks t).bind entry?, P entry)
    ⟨fun h entry hp => hp.elim (h.1 entry) fun ht => ht.elim fun t ht => h.2 t entry ht,
      fun h => ⟨fun entry hmem => h entry (.inl hmem), fun t entry ht => h entry (.inr ⟨t, ht⟩)⟩⟩

variable {s : Tier ω π κ ι τ σ} {t : τ} {in_progress : π → Bool} {s' : Tier ω π κ ι τ σ}
  {m : NewCacheMetadata ω π}

section Task

variable [DecidableEq τ]

theorem pending_set_task (task : Option (Task ω π κ)) (hold : (s.tasks t).bind entry? = none)
    (entry : GraduationEntry κ) :
    (s.set_task t task).Pending entry ↔ s.Pending entry ∨ task.bind entry? = some entry := by
  simp only [Pending, set_task]
  constructor
  · rintro (hmem | ⟨t', ht'⟩)
    · exact .inl (.inl hmem)
    · by_cases heq : t' = t
      · rw [heq, update_self] at ht'
        exact .inr ht'
      · rw [update_of_ne heq] at ht'
        exact .inl (.inr ⟨t', ht'⟩)
  · rintro ((hmem | ⟨t', ht'⟩) | hnew)
    · exact .inl hmem
    · have heq : t' ≠ t := by
        rintro rfl
        rw [hold] at ht'
        cases ht'
      exact .inr ⟨t', by rwa [update_of_ne heq]⟩
    · exact .inr ⟨t, by rwa [update_self]⟩

theorem pending_append {entry : GraduationEntry κ} (ht : s.tasks t = some (.published entry))
    (entry' : GraduationEntry κ) :
    ({ s.set_task t none with journal := s.journal ++ [entry] } : Tier ω π κ ι τ σ).Pending entry' ↔
      s.Pending entry' := by
  have hentry : (s.tasks t).bind entry? = some entry := by simp [ht, entry?]
  simp only [Pending, set_task, mem_append, mem_singleton]
  constructor
  · rintro ((hmem | rfl) | ⟨t', ht'⟩)
    · exact .inl hmem
    · exact .inr ⟨t, hentry⟩
    · by_cases heq : t' = t
      · rw [heq, update_self] at ht'
        cases ht'
      · rw [update_of_ne heq] at ht'
        exact .inr ⟨t', ht'⟩
  · rintro (hmem | ⟨t', ht'⟩)
    · exact .inl (.inl hmem)
    · by_cases heq : t' = t
      · rw [heq, hentry] at ht'
        exact .inl (.inr (Option.some.inj ht').symm)
      · exact .inr ⟨t', by rwa [update_of_ne heq]⟩

end Task

variable [DecidableEq κ]

/-- No entry of the key is pending. -/
def Clear (s : Tier ω π κ ι τ σ) (k : κ) : Prop :=
  s.AllPending fun entry => entry.cache_key ≠ k

instance [Fintype τ] (s : Tier ω π κ ι τ σ) (k : κ) : Decidable (s.Clear k) :=
  inferInstanceAs (Decidable (s.AllPending _))

/-- No entry of the key will be charged: none is pending, or the token is set. -/
def Settled (s : Tier ω π κ ι τ σ) (k : κ) : Prop :=
  s.Clear k ∨ ∀ m ∈ s.records.get? k, m.graduation_accounted = true

instance [Fintype τ] (s : Tier ω π κ ι τ σ) (k : κ) : Decidable (s.Settled k) :=
  inferInstanceAs (Decidable (_ ∨ _))

/-! ## The accounts of one key -/

/-- What the episodes of a key owe. -/
structure Account (in_progress : π → Bool) (s : Tier ω π κ ι τ σ) (k : κ) : Prop where
  past : ∀ n, n ≠ s.episode k → s.ledger.balance (k, n) = 0
  tagged : ∀ entry, s.Pending entry → entry.cache_key = k → entry.episode = s.episode k
  settled : s.Settled k → s.ledger.balance (k, s.episode k) = s.staged in_progress k
  owing : ∀ m ∈ s.records.get? k, m.graduation_accounted = false →
    ∀ entry, s.Pending entry → entry.cache_key = k →
      s.ledger.balance (k, s.episode k) = entry.compressed_size ∧ s.staged in_progress k = 0
  flagged : ∀ m ∈ s.records.get? k, m.is_write_cached = true →
    m.graduation_accounted = false ∧ s.Clear k
  handled : ∀ entry ∈ s.consolidated, entry.cache_key = k →
    ∀ m ∈ s.records.get? k, m.graduation_accounted = true

/-- What the accounts see of a record. -/
def view (in_progress : π → Bool) (m : NewCacheMetadata ω π) : Bool × Bool × ℕ :=
  (m.graduation_accounted, m.is_write_cached, m.staged_compressed_size in_progress)

variable {k : κ}

/-- The account of a key reads no more than its view, episode, balances and graduations. -/
theorem Account.frame {s : Tier ω π κ ι τ σ} (h : s.Account in_progress k)
    (hview : (s'.records.get? k).map (view in_progress) = (s.records.get? k).map (view in_progress))
    (hpending : ∀ entry, entry.cache_key = k → (s'.Pending entry ↔ s.Pending entry))
    (hepisode : s'.episode k = s.episode k)
    (hbalance : ∀ n, s'.ledger.balance (k, n) = s.ledger.balance (k, n))
    (hhandled : ∀ entry ∈ s'.consolidated, entry.cache_key = k →
      entry ∈ s.consolidated ∨ ∀ m ∈ s.records.get? k, m.graduation_accounted = true) :
    s'.Account in_progress k := by
  have hstaged : s'.staged in_progress k = s.staged in_progress k := by
    have hmeasure : ∀ o : Option (NewCacheMetadata ω π),
        o.elim 0 (staged_compressed_size in_progress) =
          (o.map (view in_progress)).elim 0 fun v => v.2.2 := by
      intro o
      cases o <;> rfl
    rw [staged, staged, Directory.measure, Directory.measure, hmeasure, hview, ← hmeasure]
  have hclear : s'.Clear k ↔ s.Clear k := by
    refine forall_congr' fun entry => ⟨fun hc hp hk => ?_, fun hc hp hk => ?_⟩
    · exact hc ((hpending entry hk).mpr hp) hk
    · exact hc ((hpending entry hk).mp hp) hk
  -- a record before for a record after, and the other way round
  have hbefore : ∀ m' ∈ s'.records.get? k, ∃ m ∈ s.records.get? k,
      view in_progress m = view in_progress m' := by
    intro m' hm'
    have hsome : (s.records.get? k).map (view in_progress) = some (view in_progress m') := by
      rw [← hview, mem_def.mp hm']
      rfl
    exact map_eq_some_iff.mp hsome
  have hafter : ∀ m ∈ s.records.get? k, ∃ m' ∈ s'.records.get? k,
      view in_progress m' = view in_progress m := by
    intro m hm
    have hsome : (s'.records.get? k).map (view in_progress) = some (view in_progress m) := by
      rw [hview, mem_def.mp hm]
      rfl
    exact map_eq_some_iff.mp hsome
  simp only [view, Prod.mk.injEq] at hbefore hafter
  constructor
  · intro n hn
    rw [hbalance]
    exact h.past n (hepisode ▸ hn)
  · intro entry hp hk
    rw [hepisode]
    exact h.tagged entry ((hpending entry hk).mp hp) hk
  · intro hsettled
    rw [hbalance, hepisode, hstaged]
    refine h.settled (hsettled.imp hclear.mp fun htoken m hm => ?_)
    obtain ⟨m', hm', hv⟩ := hafter m hm
    rw [← hv.1]
    exact htoken m' hm'
  · intro m' hm' htoken entry hp hk
    obtain ⟨m, hm, hv⟩ := hbefore m' hm'
    rw [hbalance, hepisode, hstaged]
    exact h.owing m hm (hv.1.trans htoken) entry ((hpending entry hk).mp hp) hk
  · intro m' hm' hflag
    obtain ⟨m, hm, hv⟩ := hbefore m' hm'
    rw [hclear, ← hv.1]
    exact h.flagged m hm (hv.2.1.trans hflag)
  · intro entry hmem hk m' hm'
    obtain ⟨m, hm, hv⟩ := hbefore m' hm'
    rw [← hv.1]
    rcases hhandled entry hmem hk with hold | htoken
    · exact h.handled entry hold hk m hm
    · exact htoken m hm

theorem settled_of_token (hm : s.records.get? k = some m) (htoken : m.graduation_accounted = true) :
    s.Settled k := by
  refine .inr fun m' hm' => ?_
  rw [hm] at hm'
  exact Option.some.inj hm' ▸ htoken

theorem Account.of_record (hm : s.records.get? k = some m)
    (past : ∀ n, n ≠ s.episode k → s.ledger.balance (k, n) = 0)
    (tagged : ∀ entry, s.Pending entry → entry.cache_key = k → entry.episode = s.episode k)
    (settled : s.Clear k ∨ m.graduation_accounted = true →
      s.ledger.balance (k, s.episode k) = m.staged_compressed_size in_progress)
    (owing : m.graduation_accounted = false → ∀ entry, s.Pending entry → entry.cache_key = k →
      s.ledger.balance (k, s.episode k) = entry.compressed_size ∧
        m.staged_compressed_size in_progress = 0)
    (flagged : m.is_write_cached = true → m.graduation_accounted = false ∧ s.Clear k)
    (handled : ∀ entry ∈ s.consolidated, entry.cache_key = k → m.graduation_accounted = true) :
    s.Account in_progress k := by
  have hstaged : s.staged in_progress k = m.staged_compressed_size in_progress :=
    measure_of_get? _ hm
  have honly : ∀ m' ∈ s.records.get? k, m' = m := by
    intro m' hm'
    rw [hm] at hm'
    exact (Option.some.inj hm').symm
  refine ⟨past, tagged, fun hsettled => ?_, fun m' hm' => ?_, fun m' hm' => ?_,
    fun entry hmem hkey m' hm' => ?_⟩
  · rw [hstaged]
    exact settled (hsettled.imp id fun hall => hall m hm)
  · rw [hstaged, honly m' hm']
    exact owing
  · rw [honly m' hm']
    exact flagged
  · rw [honly m' hm']
    exact handled entry hmem hkey

theorem staged_eq_staged_bytes :
    s.staged in_progress k = staged_bytes in_progress (s.ranges k) (s.flag k) := by
  unfold staged ranges flag Directory.measure
  cases s.records.get? k with
  | none | some m => rfl

theorem pending_of_perm {entries : List (GraduationEntry κ)}
    (hperm : entries.Perm (s.journal.filter fun e => e.cache_key = k))
    {entry : GraduationEntry κ} (hmem : entry ∈ entries) :
    entry ∈ s.journal ∧ entry.cache_key = k := by
  have hfilter := mem_filter.mp (hperm.mem_iff.mp hmem)
  exact ⟨hfilter.1, by simpa using hfilter.2⟩

theorem Account.cleanup (h : s.Account in_progress k) :
    ({ s with journal := s.journal.diff s.consolidated, consolidated := [] } :
      Tier ω π κ ι τ σ).Account in_progress k := by
  have hpending : ∀ entry,
      ({ s with journal := s.journal.diff s.consolidated, consolidated := [] } :
        Tier ω π κ ι τ σ).Pending entry → s.Pending entry := by
    rintro entry (hmem | ht)
    · exact .inl (diff_subset _ _ hmem)
    · exact .inr ht
  refine ⟨h.past, fun entry hp => h.tagged entry (hpending entry hp), fun hsettled => ?_,
    fun m hm htoken entry hp => h.owing m hm htoken entry (hpending entry hp),
    fun m hm hflag => ?_, fun _ hmem => absurd hmem not_mem_nil⟩
  · refine h.settled ?_
    rcases hsettled with hclear | hset
    · -- an entry that is gone was handled
      by_cases hold : s.Clear k
      · exact .inl hold
      · simp only [Clear, AllPending, not_forall, not_not] at hold
        obtain ⟨entry, hp, hkey⟩ := hold
        rcases hp with hmem | ht
        · by_cases hdone : entry ∈ s.consolidated
          · exact .inr (h.handled entry hdone hkey)
          · exact absurd hkey (hclear entry (.inl (mem_diff_of_mem hmem hdone)))
        · exact absurd hkey (hclear entry (.inr ht))
    · exact .inr hset
  · obtain ⟨htoken, hclear⟩ := h.flagged m hm hflag
    exact ⟨htoken, fun entry hp => hclear entry (hpending entry hp)⟩

/-- With every balance at what its key has staged, the postings add up to the staged bytes. -/
theorem posted_eq_total
    (hbalance : ∀ k n, s.ledger.balance (k, n) =
      if n = s.episode k then (s.staged in_progress k : ℤ) else 0) :
    s.ledger.posted = s.records.total (staged_compressed_size in_progress) := by
  have hnodup : ((s.records.entries.map Prod.fst).map fun k => (k, s.episode k)).Nodup :=
    s.records.nodup.map fun k k' h => congrArg Prod.fst h
  rw [Ledger.posted_eq_sum_balance hnodup, total_eq_sum_measure, Nat.cast_list_sum]
  · simp only [List.map_map]
    refine congrArg List.sum (map_congr_left fun e _ => ?_)
    exact (hbalance e.1 (s.episode e.1)).trans (if_pos rfl)
  · rintro ⟨k, n⟩ hmem
    rw [hbalance]
    split
    · -- a key without a record has nothing staged
      rename_i hn
      have hnone : s.records.get? k = none := by
        rw [get?_eq_none]
        rintro e he rfl
        exact hmem (List.mem_map.mpr ⟨e.1, List.mem_map_of_mem he, by rw [hn]⟩)
      exact congrArg _ (measure_of_none _ hnone)
    · rfl

/-! ## Uploads and removals -/

section Steps

variable {in_progress : π → Bool} {s : Tier ω π κ ι τ σ} {k : κ} {i : ι} {k' : κ}
  {record : NewCacheMetadata ω π}

/-- An upload over a key with nothing pending opens a balanced account, if it debits what was
staged, except what it leaves in place and does not credit. -/
theorem Account.store_upload [DecidableEq ι] (i : ι) {superseded : List (RangeSpec π)}
    {existed : Bool} (k' : κ) (h : s.Account in_progress k') (hclear : s.Clear k)
    (hjournal : ∀ entry ∈ s.consolidated, entry ∈ s.journal)
    (htoken : record.graduation_accounted = false)
    (hbytes : s.staged in_progress k = staged_bytes in_progress superseded (s.flag k) +
      if existed then record.staged_compressed_size in_progress else 0) :
    (s.store_upload in_progress i k superseded record existed).Account in_progress k' := by
  by_cases hk : k' = k
  · subst hk
    have hopen := h.settled (.inl hclear)
    refine Account.of_record get?_put_self ?_
      (fun entry hp hk => absurd hk (hclear entry hp)) (fun _ => ?_)
      (fun _ entry hp hk => absurd hk (hclear entry hp)) (fun _ => ⟨htoken, hclear⟩)
      (fun entry hmem hk => absurd hk (hclear entry (.inl (hjournal entry hmem))))
    · intro n hn
      have hpast := h.past n
      cases existed with
      | true =>
        simp only [Tier.store_upload, update_self, if_true] at hn ⊢
        simp [hpast hn, Ne.symm hn]
      | false =>
        simp only [Tier.store_upload, update_self, Bool.false_eq_true, if_false] at hn ⊢
        by_cases hlast : s.episode k' = n
        · subst hlast
          simp [hopen, hbytes]
        · simp [hpast (Ne.symm hlast), hlast, Ne.symm hn]
    · cases existed with
      | true => simp [Tier.store_upload, hopen, hbytes]
      | false => simp [Tier.store_upload, h.past (s.episode k' + 1) (Nat.succ_ne_self _)]
  · refine h.frame ?_ (fun _ _ => Iff.rfl) ?_ (fun n => ?_) (fun entry hmem _ => .inl hmem)
    · simp only [Tier.store_upload]
      rw [get?_put_ne _ hk]
    · simp [Tier.store_upload, hk]
    · simp [Tier.store_upload, Ne.symm hk]

theorem staged_bytes_filter_add (in_progress : π → Bool) (p : RangeSpec π → Bool)
    (ranges : List (RangeSpec π)) (is_write_cached : Bool) :
    staged_bytes in_progress ranges is_write_cached =
      staged_bytes in_progress (ranges.filter p) is_write_cached +
        staged_bytes in_progress (ranges.filter fun r => !p r) is_write_cached := by
  induction ranges with
  | nil => rfl
  | cons r rest ih =>
    have hcons : ∀ l : List (RangeSpec π), staged_bytes in_progress (r :: l) is_write_cached =
        (if is_staged_range_spec in_progress r is_write_cached then r.compressed_size else 0) +
          staged_bytes in_progress l is_write_cached := by
      intro l
      by_cases hr : is_staged_range_spec in_progress r is_write_cached = true
      all_goals simp [staged_bytes, hr]
    by_cases hp : p r = true
    · rw [filter_cons_of_pos hp, filter_cons_of_neg (by simp [hp]), hcons, hcons, ih]
      omega
    · rw [filter_cons_of_neg hp, filter_cons_of_pos (by simp [hp]), hcons, hcons, ih]
      omega

/-- What is staged under a key that is uploaded to again: what the upload supersedes, and its
own size if its file existed. -/
theorem staged_eq_superseded_add [DecidableEq π] {object : NewCacheMetadata ω π}
    {range_spec : RangeSpec π}
    (hsame : s.republished k range_spec.file_path ≠ [] →
      staged_bytes in_progress (s.republished k range_spec.file_path) (s.flag k) =
        range_spec.compressed_size) :
    s.staged in_progress k =
      staged_bytes in_progress
          ((s.ranges k).filter fun r => r.file_path ≠ range_spec.file_path) (s.flag k) +
        if ((s.ranges k).any fun r => r.file_path = range_spec.file_path) then
          (upload_record in_progress object range_spec).staged_compressed_size in_progress
        else 0 := by
  have hsplit := staged_bytes_filter_add in_progress
    (fun r => r.file_path ≠ range_spec.file_path) (s.ranges k) (s.flag k)
  have hrepublished : (s.ranges k).filter
      (fun r => !decide (r.file_path ≠ range_spec.file_path)) =
        s.republished k range_spec.file_path := by
    simp [republished]
  rw [staged_eq_staged_bytes, hsplit, hrepublished, staged_compressed_size_upload_record]
  by_cases hexisted : s.republished k range_spec.file_path = []
  · have hany : ((s.ranges k).any fun r => r.file_path = range_spec.file_path) = false := by
      simpa [republished, filter_eq_nil_iff] using hexisted
    rw [hany, hexisted]
    rfl
  · have hany : ((s.ranges k).any fun r => r.file_path = range_spec.file_path) = true := by
      simpa [republished, filter_eq_nil_iff] using hexisted
    rw [hany, hsame hexisted]
    rfl

theorem balance_remove_ranges [DecidableEq ι] (removed : RangeSpec π → Bool) (n : ℕ) :
    (s.remove_ranges in_progress i k m removed).ledger.balance (k, n) =
      (if s.episode k = n then
        -(staged_bytes in_progress (m.ranges.filter removed) m.is_write_cached : ℤ) else 0) +
        s.ledger.balance (k, n) := by
  simp [Tier.remove_ranges]

variable {m : NewCacheMetadata ω π} {removed : RangeSpec π → Bool}
  (hm : s.records.get? k = some m)

include hm

theorem Account.remove_all [DecidableEq ι] (i : ι) (h : s.Account in_progress k)
    (hkept : m.ranges.filter (fun r => !removed r) = []) (hsettled : s.Settled k) :
    (s.remove_ranges in_progress i k m removed).Account in_progress k := by
  have hopen := h.settled hsettled
  have hrecord : (s.remove_ranges in_progress i k m removed).records.get? k = none := by
    simp [Tier.remove_ranges, hkept]
  have hzero : (s.remove_ranges in_progress i k m removed).staged in_progress k = 0 :=
    measure_of_none _ hrecord
  have hstaged : s.staged in_progress k =
      staged_bytes in_progress (m.ranges.filter removed) m.is_write_cached := by
    refine (measure_of_get? _ hm).trans ?_
    rw [staged_compressed_size, staged_bytes_filter_add in_progress removed, hkept]
    rfl
  refine ⟨fun n hn => ?_, h.tagged, fun _ => ?_, fun m' hm' => ?_, fun m' hm' => ?_,
    fun _ _ _ m' hm' => ?_⟩
  · have hne : s.episode k ≠ n := Ne.symm hn
    rw [balance_remove_ranges, if_neg hne, h.past n hn, zero_add]
  · have hcurrent : (s.remove_ranges in_progress i k m removed).episode k = s.episode k := rfl
    rw [hcurrent, balance_remove_ranges, if_pos rfl, hzero, hopen, hstaged]
    exact neg_add_cancel _
  all_goals
    rw [hrecord] at hm'
    cases hm'

theorem Account.remove_some [DecidableEq ι] (i : ι) (h : s.Account in_progress k)
    (hkept : m.ranges.filter (fun r => !removed r) ≠ []) :
    (s.remove_ranges in_progress i k m removed).Account in_progress k := by
  have hrecord : (s.remove_ranges in_progress i k m removed).records.get? k =
      some { m with ranges := m.ranges.filter fun r => !removed r } := by
    simp only [Tier.remove_ranges, if_neg hkept, get?_put_self]
  have hstaged : s.staged in_progress k =
      staged_bytes in_progress (m.ranges.filter removed) m.is_write_cached +
        staged_bytes in_progress (m.ranges.filter fun r => !removed r) m.is_write_cached :=
    (measure_of_get? _ hm).trans (staged_bytes_filter_add in_progress removed _ _)
  have hcurrent : (s.remove_ranges in_progress i k m removed).episode k = s.episode k := rfl
  refine Account.of_record hrecord (fun n hn => ?_) h.tagged (fun hs' => ?_)
    (fun htoken entry hp hkey => ?_) (fun hflag => h.flagged m hm hflag)
    (fun entry hmem hkey => h.handled entry hmem hkey m hm)
  · have hne : s.episode k ≠ n := Ne.symm hn
    rw [balance_remove_ranges, if_neg hne, h.past n hn, zero_add]
  · have hopen := h.settled (hs'.elim .inl fun htoken => settled_of_token hm htoken)
    rw [hcurrent, balance_remove_ranges, if_pos rfl, hopen, hstaged, staged_compressed_size]
    push_cast
    omega
  · -- an object that owes its graduation has nothing staged to remove
    obtain ⟨howed, hzero⟩ := h.owing m hm htoken entry hp hkey
    rw [hcurrent, balance_remove_ranges, if_pos rfl, howed]
    simp only [staged_compressed_size]
    omega

theorem Account.remove_ranges [DecidableEq ι] (i : ι) (k' : κ) (h : s.Account in_progress k')
    (hsettled : (∀ r ∈ m.ranges, removed r = true) → s.Settled k) :
    (s.remove_ranges in_progress i k m removed).Account in_progress k' := by
  by_cases hk : k' = k
  · subst hk
    by_cases hkept : m.ranges.filter (fun r => !removed r) = []
    · exact h.remove_all hm i hkept (hsettled (by simpa [filter_eq_nil_iff] using hkept))
    · exact h.remove_some hm i hkept
  · refine h.frame ?_ (fun _ _ => Iff.rfl) rfl (fun n => ?_) (fun entry hmem _ => .inl hmem)
    · simp only [Tier.remove_ranges]
      split
      · rw [get?_erase_ne _ hk]
      · rw [get?_put_ne _ hk]
    · simp [Tier.remove_ranges, Ne.symm hk]

/-! ## Graduation -/

theorem Account.publish [DecidableEq τ] {t : τ} {read : NewCacheMetadata ω π} (k' : κ)
    (h : s.Account in_progress k') (hidle : (s.tasks t).bind entry? = none)
    (htoken : record.graduation_accounted = m.graduation_accounted)
    (hflag : record.is_write_cached = false)
    (hzero : record.staged_compressed_size in_progress = 0)
    (howed : m.graduation_accounted = false →
      s.ledger.balance (k, s.episode k) = read.staged_compressed_size in_progress)
    (hcharged : m.graduation_accounted = true → m.staged_compressed_size in_progress = 0) :
    (s.publish in_progress t k read record).Account in_progress k' := by
  have hpending : ∀ entry, (s.publish in_progress t k read record).Pending entry ↔
      s.Pending entry ∨ entry = ⟨k, read.staged_compressed_size in_progress, s.episode k⟩ := by
    intro entry
    refine (pending_set_task (some (.published _)) hidle entry).trans (or_congr_right ?_)
    simp [Task.entry?, eq_comm]
  by_cases hk : k' = k
  · subst hk
    refine Account.of_record get?_put_self h.past (fun entry hp hkey => ?_)
      (fun hsettled => ?_) (fun hcharge entry hp hkey => ?_) (fun hwc => ?_)
      (fun entry hmem hkey => htoken.trans (h.handled entry hmem hkey m hm))
    · rcases (hpending entry).mp hp with hp | rfl
      · exact h.tagged entry hp hkey
      · rfl
    · -- the new entry is pending, so the key is settled only if the token is set
      rcases hsettled with hclear | hset
      · exact absurd rfl (hclear _ ((hpending _).mpr (.inr rfl)))
      · have hm_token : m.graduation_accounted = true := htoken ▸ hset
        have hold : s.staged in_progress k' = 0 := (measure_of_get? _ hm).trans (hcharged hm_token)
        rw [hzero, ← hold]
        exact h.settled (settled_of_token hm hm_token)
    · have hm_token : m.graduation_accounted = false := htoken ▸ hcharge
      refine ⟨?_, hzero⟩
      rcases (hpending entry).mp hp with hp | rfl
      · exact (h.owing m hm hm_token entry hp hkey).1
      · exact howed hm_token
    · rw [hflag] at hwc
      cases hwc
  · refine h.frame ?_ (fun entry hkey => ?_) rfl (fun _ => rfl) (fun entry hmem _ => .inl hmem)
    · simp only [Tier.publish]
      rw [get?_put_ne _ hk]
    · refine (hpending entry).trans (or_iff_left ?_)
      rintro rfl
      exact hk hkey.symm

/-! ## Consolidation -/

variable {entries : List (GraduationEntry κ)}

/-- Consolidating one key keeps the account of every key. -/
theorem Account.consolidate (k' : κ) (h : s.Account in_progress k')
    (hperm : entries.Perm (s.journal.filter fun e => e.cache_key = k)) :
    (s.consolidate k m entries).Account in_progress k' := by
  by_cases hk : k' = k
  · subst hk
    cases hcharged : charged m entries with
    | none =>
      refine h.frame ?_ (fun _ _ => Iff.rfl) rfl (fun n => ?_) (fun entry hmem hkey => ?_)
      · simp [Tier.consolidate, apply_journal_entries_eq, hcharged, hm]
      · simp [Tier.consolidate, hcharged]
      · -- no entry is charged though there is one: the token is set
        rcases mem_append.mp hmem with hold | hnew
        · exact .inl hold
        · right
          intro m' hm'
          obtain rfl := Option.some.inj (hm.symm.trans hm')
          by_contra htoken
          rw [charged, if_neg htoken, List.head?_eq_none_iff] at hcharged
          rw [hcharged] at hnew
          cases hnew
    | some entry =>
      have htoken : m.graduation_accounted = false := by
        by_contra hset
        simp [charged, hset] at hcharged
      have hentry : entry ∈ entries := by
        rw [charged, if_neg (by simp [htoken])] at hcharged
        exact mem_of_head? hcharged
      obtain ⟨hjournal, hkey⟩ := pending_of_perm hperm hentry
      obtain ⟨howed, hzero⟩ := h.owing m hm htoken entry (.inl hjournal) hkey
      have htag := h.tagged entry (.inl hjournal) hkey
      have hrecord : (s.consolidate k' m entries).records.get? k' =
          some { m with graduation_accounted := true } := by
        simp [Tier.consolidate, apply_journal_entries_eq, hcharged]
      have hbalance : ∀ n, (s.consolidate k' m entries).ledger.balance (k', n) =
          (if s.episode k' = n then -(entry.compressed_size : ℤ) else 0) +
            s.ledger.balance (k', n) := by
        intro n
        simp [Tier.consolidate, hcharged, htag]
      have hstaged : m.staged_compressed_size in_progress = 0 :=
        (measure_of_get? _ hm).symm.trans hzero
      have hcurrent : (s.consolidate k' m entries).episode k' = s.episode k' := rfl
      refine Account.of_record hrecord (fun n hn => ?_) h.tagged (fun _ => ?_)
        (fun hunset => by cases hunset) (fun hflag => ?_) (fun _ _ _ => rfl)
      · have hne : s.episode k' ≠ n := Ne.symm hn
        rw [hbalance, if_neg hne, h.past n hn, zero_add]
      · rw [hcurrent, hbalance, if_pos rfl, howed, neg_add_cancel]
        exact congrArg Nat.cast hstaged.symm
      · -- a write-cached record has no entry pending
        exact absurd hkey ((h.flagged m hm hflag).2 entry (.inl hjournal))
  · refine h.frame ?_ (fun _ _ => Iff.rfl) rfl (fun n => ?_) (fun entry hmem hkey => ?_)
    · simp only [Tier.consolidate]
      rw [get?_put_ne _ hk]
    · cases hcharged : charged m entries with
      | none => simp [Tier.consolidate, hcharged]
      | some entry => simp [Tier.consolidate, hcharged, Ne.symm hk]
    · rcases mem_append.mp hmem with hold | hnew
      · exact .inl hold
      · exact absurd ((pending_of_perm hperm hnew).2.symm.trans hkey) (Ne.symm hk)

end Steps

/-! ## All accounts -/

variable [DecidableEq ι] [Fintype ι] [Fintype σ] {in_progress : π → Bool}

/-- The figure that is tracked is what the ledger holds and what the running cycle has
charged, and every key's account is in order. -/
structure Books (in_progress : π → Bool) (s : Tier ω π κ ι τ σ) : Prop where
  files : s.tracking.Names ∧ s.tracking.ReadingOnDisk
  posted : tracked .write_cache s.tracking = s.ledger.posted + s.graduated_bytes
  journal : ∀ entry ∈ s.consolidated, entry ∈ s.journal
  account : ∀ k, s.Account in_progress k

theorem books_init : (init : Tier ω π κ ι τ σ).Books in_progress := by
  have hquiet : (Tracking.init ⟨0, 0⟩ : Tracking ι σ).Quiet :=
    ⟨fun _ => ⟨rfl, rfl⟩, fun _ => rfl, rfl, rfl⟩
  have hnone : ∀ entry : GraduationEntry κ, ¬ (init : Tier ω π κ ι τ σ).Pending entry := by
    rintro entry (hmem | ⟨t, ht⟩)
    · cases hmem
    · cases ht
  refine ⟨⟨hquiet.names, hquiet.readingOnDisk⟩, hquiet.tracked _,
    fun _ hmem => absurd hmem not_mem_nil, fun k => ?_⟩
  exact ⟨fun _ _ => rfl, fun entry hp => absurd hp (hnone entry), fun _ => rfl,
    fun m hm => absurd hm (not_mem_none m), fun m hm => absurd hm (not_mem_none m),
    fun _ hmem => absurd hmem not_mem_nil⟩

section Steps

variable {s : Tier ω π κ ι τ σ} {k : κ} (hs : s.Books in_progress)
  {entries : List (GraduationEntry κ)}

include hs

theorem Books.drop_stale (stale : GraduationEntry κ → Bool)
    (hperm : entries.Perm (s.journal.filter fun e => e.cache_key = k))
    (hnone : s.records.get? k = none) :
    ({ s with consolidated := s.consolidated ++ entries.filter stale } :
      Tier ω π κ ι τ σ).Books in_progress := by
  have hnew : ∀ entry ∈ entries.filter stale, entry ∈ s.journal ∧ entry.cache_key = k :=
    fun entry hmem => pending_of_perm hperm (mem_of_mem_filter hmem)
  refine ⟨hs.files, hs.posted, fun entry hmem => ?_, fun k' => (hs.account k').frame rfl
    (fun _ _ => Iff.rfl) rfl (fun _ => rfl) (fun entry hmem hkey => ?_)⟩
  · exact (mem_append.mp hmem).elim (hs.journal entry) fun h => (hnew entry h).1
  · refine (mem_append.mp hmem).imp id fun hmem m hm => ?_
    -- the key of a dropped entry has no record
    obtain rfl := hkey.symm.trans (hnew entry hmem).2
    rw [hnone] at hm
    cases hm

theorem Books.store_upload (i : ι) {superseded : List (RangeSpec π)}
    {record : NewCacheMetadata ω π} {existed : Bool} (hclear : s.Clear k)
    (htoken : record.graduation_accounted = false)
    (hbytes : s.staged in_progress k =
      staged_bytes in_progress superseded (s.flag k) +
        if existed then record.staged_compressed_size in_progress else 0) :
    (s.store_upload in_progress i k superseded record existed).Books in_progress := by
  refine ⟨?_, ?_, hs.journal,
    fun k' => (hs.account k').store_upload i k' hclear hs.journal htoken hbytes⟩
  · refine faultless_inv_set_acc hs.files i ?_
    rw [credit_staged_ranges_flush_sequence, debit_removed_ranges_flush_sequence]
  · have htracked := hs.posted
    simp only [Tier.store_upload, tracked_set_acc, Figure.of_acc, Ledger.posted_cons,
      credit_staged_ranges_write_cache_delta, debit_removed_ranges_write_cache_delta]
    unfold staged_compressed_size
    omega

theorem Books.remove_ranges {m : NewCacheMetadata ω π} (hm : s.records.get? k = some m) (i : ι)
    {removed : RangeSpec π → Bool}
    (hsettled : (∀ r ∈ m.ranges, removed r = true) → s.Settled k) :
    (s.remove_ranges in_progress i k m removed).Books in_progress := by
  refine ⟨?_, ?_, hs.journal, fun k' => (hs.account k').remove_ranges hm i k' hsettled⟩
  · exact faultless_inv_set_acc hs.files i (debit_removed_ranges_flush_sequence ..)
  · have htracked := hs.posted
    simp only [Tier.remove_ranges, tracked_set_acc, Figure.of_acc, Ledger.posted_cons,
      debit_removed_ranges_write_cache_delta]
    omega

theorem Books.apply_graduations
    (huncut : s.graduated_bytes ≤ s.tracking.size_state.write_cache_size) :
    ({ s with
      tracking := { s.tracking with
        size_state := atomic_update_size_delta s.tracking.size_state 0 (-s.graduated_bytes) }
      graduated_bytes := 0 } : Tier ω π κ ι τ σ).Books in_progress := by
  refine ⟨⟨hs.files.1.of_eq rfl rfl rfl, hs.files.2⟩, ?_, hs.journal, fun k =>
    (hs.account k).frame rfl (fun _ _ => Iff.rfl) rfl (fun _ => rfl) (fun _ hmem _ => .inl hmem)⟩
  have hposted := hs.posted
  have hstate := saturating_apply_eq s.tracking.size_state.write_cache_size (-s.graduated_bytes)
  simp only [tracked, outstanding, unflushed, summed,
    Figure.of_state, atomic_update_size_delta] at hposted ⊢
  omega

variable {m : NewCacheMetadata ω π} (hm : s.records.get? k = some m)

include hm

theorem Books.consolidate
    (hperm : entries.Perm (s.journal.filter fun e => e.cache_key = k)) :
    (s.consolidate k m entries).Books in_progress := by
  refine ⟨hs.files, ?_, fun entry hmem => ?_, fun k' => (hs.account k').consolidate hm k' hperm⟩
  · have htracked := hs.posted
    cases hcharged : charged m entries with
    | none => simpa [Tier.consolidate, apply_journal_entries_eq, hcharged] using htracked
    | some entry =>
      simp only [Tier.consolidate, apply_journal_entries_eq, hcharged, elim_some,
        Ledger.posted_cons]
      push_cast
      omega
  · rcases mem_append.mp hmem with hold | hnew
    · exact hs.journal entry hold
    · exact (pending_of_perm hperm hnew).1

theorem Books.consolidate_before_eviction (hcharged : charged m entries = none) :
    ({ s with records := s.records.put k (apply_journal_entries m entries).1 } :
      Tier ω π κ ι τ σ).Books in_progress := by
  refine ⟨hs.files, hs.posted, hs.journal, fun k' => (hs.account k').frame ?_
    (fun _ _ => Iff.rfl) rfl (fun _ => rfl) (fun _ hmem _ => .inl hmem)⟩
  rw [apply_journal_entries_eq, hcharged]
  by_cases hk : k' = k
  · subst hk
    rw [get?_put_self, hm]
    rfl
  · rw [get?_put_ne _ hk]

theorem Books.owed_of_flagged (hflag : m.is_write_cached = true) :
    m.graduation_accounted = false ∧
      s.ledger.balance (k, s.episode k) = m.staged_compressed_size in_progress := by
  obtain ⟨htoken, hclear⟩ := (hs.account k).flagged m hm hflag
  refine ⟨htoken, ((hs.account k).settled (.inl hclear)).trans ?_⟩
  exact congrArg _ (measure_of_get? _ hm)

end Steps

/-! ## Tasks -/

/-- The record on disk is the one a graduation read, as far as the accounts go: same token,
same staged bytes; or another graduation of the same bytes has been published and is not yet
charged. -/
def Agrees (in_progress : π → Bool) (s : Tier ω π κ ι τ σ) (k : κ)
    (read m : NewCacheMetadata ω π) : Prop :=
  m.graduation_accounted = read.graduation_accounted ∧
    if read.is_write_cached = true ∧ m.is_write_cached = false then
      m.staged_compressed_size in_progress = 0 ∧ ¬ s.Clear k ∧
        s.AllPending fun entry => entry.cache_key = k →
          entry.compressed_size = read.staged_compressed_size in_progress
    else
      m.is_write_cached = read.is_write_cached ∧
        m.staged_compressed_size in_progress = read.staged_compressed_size in_progress

instance [Fintype τ] (in_progress : π → Bool) (s : Tier ω π κ ι τ σ) (k : κ)
    (read m : NewCacheMetadata ω π) : Decidable (s.Agrees in_progress k read m) :=
  inferInstanceAs (Decidable (_ ∧ ite _ _ _))

section Tasks

variable {s : Tier ω π κ ι τ σ} {k : κ} (hs : s.Books in_progress) {m read : NewCacheMetadata ω π}

include hs

theorem Books.owed_of_agrees (hm : s.records.get? k = some m) (hread : read.is_write_cached = true)
    (hagrees : s.Agrees in_progress k read m) :
    (m.graduation_accounted = false →
      s.ledger.balance (k, s.episode k) = read.staged_compressed_size in_progress) ∧
    (m.graduation_accounted = true → m.staged_compressed_size in_progress = 0) := by
  obtain ⟨-, hbytes⟩ := hagrees
  split at hbytes
  · -- another graduation is pending, and the object owes the bytes of its entry
    obtain ⟨hzero, hpending, hall⟩ := hbytes
    refine ⟨fun hunset => ?_, fun _ => hzero⟩
    simp only [Clear, AllPending, not_forall, not_not] at hpending
    obtain ⟨entry, hp, hkey⟩ := hpending
    rw [((hs.account k).owing m hm hunset entry hp hkey).1, hall entry hp hkey]
  · -- the object is still staged
    obtain ⟨hunset, howed⟩ := hs.owed_of_flagged hm (hbytes.1.trans hread)
    refine ⟨fun _ => howed.trans (congrArg _ hbytes.2), fun hset => ?_⟩
    rw [hset] at hunset
    cases hunset

variable [DecidableEq τ] {t : τ}

theorem Books.set_task {task : Option (Task ω π κ)} (hold : (s.tasks t).bind entry? = none)
    (hnew : task.bind entry? = none) : (s.set_task t task).Books in_progress := by
  refine ⟨hs.files, hs.posted, hs.journal, fun k => (hs.account k).frame rfl (fun entry _ => ?_)
    rfl (fun _ => rfl) (fun _ hmem _ => .inl hmem)⟩
  rw [pending_set_task task hold, hnew]
  simp

theorem Books.refresh_publish {g : Graduation ω π} (ht : s.tasks t = some (.refresh k g))
    (hflag : s.flag k = true)
    (he : ∀ m ∈ s.records.get? k, m.is_write_cached = true →
      m.graduation_accounted = g.read.graduation_accounted ∧
        m.staged_compressed_size in_progress = g.read.staged_compressed_size in_progress) :
    (s.publish in_progress t k g.read g.record).Books in_progress := by
  obtain ⟨m, hm, hflag⟩ := (any_eq_true _ _).mp hflag
  obtain ⟨htoken, hbytes⟩ := he m hm hflag
  obtain ⟨hunset, howed⟩ := hs.owed_of_flagged hm hflag
  refine ⟨hs.files, hs.posted, hs.journal, fun k' => (hs.account k').publish hm k'
    (by simp [ht, entry?]) htoken.symm rfl
    (staged_compressed_size_graduated ..) (fun _ => ?_) (fun hset => ?_)⟩
  · rw [howed, hbytes]
  · rw [hset] at hunset
    cases hunset

variable {last_modified : String} (ht : s.tasks t = some (.backfill k read last_modified))
  (hm : s.records.get? k = some m) (hagrees : s.Agrees in_progress k read m)

include ht hm hagrees

theorem Books.backfill_graduate (hflag : read.is_write_cached = true) :
    (s.publish in_progress t k (read.set_last_modified last_modified)
      ((read.set_last_modified last_modified).graduated read.expires_at)).Books in_progress := by
  obtain ⟨howed, hcharged⟩ := hs.owed_of_agrees hm hflag hagrees
  exact ⟨hs.files, hs.posted, hs.journal, fun k' => (hs.account k').publish hm k'
    (by simp [ht, entry?]) hagrees.1.symm rfl
    (staged_compressed_size_graduated ..) howed hcharged⟩

theorem Books.backfill_store (hflag : ¬ read.is_write_cached = true) :
    ({ s.set_task t none with records := s.records.put k (read.set_last_modified last_modified) } :
      Tier ω π κ ι τ σ).Books in_progress := by
  obtain ⟨htoken, hbytes⟩ := hagrees
  rw [if_neg (by simp [hflag])] at hbytes
  refine ⟨hs.files, hs.posted, hs.journal, fun k' => (hs.account k').frame ?_ (fun entry _ => ?_)
    rfl (fun _ => rfl) (fun _ hmem _ => .inl hmem)⟩
  · by_cases hk : k' = k
    · subst hk
      rw [get?_put_self, hm]
      exact congrArg some (Prod.ext htoken.symm (Prod.ext hbytes.1.symm hbytes.2.symm))
    · rw [get?_put_ne _ hk]
  · have hidle : (s.tasks t).bind entry? = none := by simp [ht, entry?]
    refine (pending_set_task none hidle entry).trans ?_
    simp

end Tasks

/-! ## Steps that keep the books -/

variable [DecidableEq τ] [DecidableEq σ] [DecidableEq π]

/-- What each step has to meet. -/
def Orderly (in_progress : π → Bool) (s : Tier ω π κ ι τ σ) : TierEvent ω π κ ι τ σ → Prop
  -- no upload over an object whose graduation is still to be charged
  | .put_buffered _ k _ _ => s.Clear k
  -- a file that is published again was staged, with the same size
  | .put_streamed _ k _ range_spec => s.Clear k ∧
      (s.republished k range_spec.file_path ≠ [] →
        staged_bytes in_progress (s.republished k range_spec.file_path) (s.flag k) =
          range_spec.compressed_size)
  -- an empty upload debits nothing
  | .put_empty _ k _ => s.Clear k ∧ s.staged in_progress k = 0
  -- the record stays until the graduation is charged
  | .remove _ k removed => (∀ r ∈ s.ranges k, removed r = true) → s.Settled k
  -- a graduation writes over what it read
  | .refresh_publish t => ∀ task ∈ (s.tasks t).bind refreshing?,
      ∀ m ∈ s.records.get? task.1, m.is_write_cached = true →
        m.graduation_accounted = task.2.read.graduation_accounted ∧
          m.staged_compressed_size in_progress = task.2.read.staged_compressed_size in_progress
  | .backfill_store t => ∀ task ∈ (s.tasks t).bind backfilling?,
      ∃ m ∈ s.records.get? task.1, s.Agrees in_progress task.1 task.2 m
  -- consolidation before an eviction has nothing to charge
  | .consolidate_before_eviction k entries =>
      ∀ m ∈ s.records.get? k, (charged m entries).isNone
  -- no figure is cut off at zero
  | .apply_graduations => s.graduated_bytes ≤ s.tracking.size_state.write_cache_size
  | .track e => e.Faultless ∧ s.tracking.Uncut .write_cache e
  | _ => True

instance [Fintype τ] (in_progress : π → Bool) (s : Tier ω π κ ι τ σ) :
    (e : TierEvent ω π κ ι τ σ) → Decidable (s.Orderly in_progress e)
  | .put_buffered _ k _ _ => inferInstanceAs (Decidable (s.Clear k))
  | .put_streamed _ _ _ _ => inferInstanceAs (Decidable (_ ∧ (_ → _)))
  | .put_empty _ _ _ => inferInstanceAs (Decidable (_ ∧ _))
  | .remove _ _ _ => inferInstanceAs (Decidable (_ → _))
  | .refresh_publish t => inferInstanceAs (Decidable (∀ task ∈ (s.tasks t).bind _, _))
  | .backfill_store t => inferInstanceAs (Decidable (∀ task ∈ (s.tasks t).bind _, _))
  | .consolidate_before_eviction k _ => inferInstanceAs (Decidable (∀ m ∈ s.records.get? k, _))
  | .apply_graduations => inferInstanceAs (Decidable (_ ≤ _))
  | .track _ => inferInstanceAs (Decidable (_ ∧ _))
  | .refresh_read _ _ _ _ | .backfill_read _ _ _ _ | .append _ | .consolidate _ _ _
  | .cleanup => isTrue trivial

variable {s : Tier ω π κ ι τ σ}

/-- **An orderly step keeps the books.** -/
theorem books_step {e : TierEvent ω π κ ι τ σ} (hs : s.Books in_progress)
    (he : s.Orderly in_progress e) (h : s.step in_progress e = some s') :
    s'.Books in_progress := by
  cases e with (simp only [step] at h; try split at h <;> try cases h)
  | put_buffered i k object range_spec =>
    cases h
    exact hs.store_upload i he rfl staged_eq_staged_bytes
  | put_streamed i k object range_spec =>
    cases h
    obtain ⟨hclear, hsame⟩ := he
    exact hs.store_upload i hclear rfl (staged_eq_superseded_add hsame)
  | put_empty i k object =>
    cases h
    exact hs.store_upload i he.1 rfl he.2
  | remove i k removed =>
    obtain ⟨m, hm, rfl⟩ := map_eq_some_iff.mp h
    refine hs.remove_ranges hm i fun hall => he ?_
    simpa [ranges, hm] using hall
  | refresh_read t k now get_ttl =>
    rename_i ht
    refine hs.set_task (by simp [ht]) ?_
    cases refresh_read (s.records.get? k) now get_ttl with
    | none | some g => rfl
  | refresh_publish t =>
    rename_i k g ht
    split at h
    · cases h
      exact hs.refresh_publish ht ‹_› (he (k, g) (by simp [ht, refreshing?]))
    · cases h
      exact hs.set_task (by simp [ht, entry?]) rfl
  | backfill_read t k last_modified validated_etag =>
    rename_i m ht hm
    split at h
    · cases h
      exact hs.set_task (by simp [ht]) rfl
    · cases h
      exact hs
  | backfill_store t =>
    rename_i k read last_modified ht
    obtain ⟨m, hm, hagrees⟩ := he (k, read) (by simp [ht, backfilling?])
    split at h
    · cases h
      exact hs.backfill_graduate ht hm hagrees ‹_›
    · cases h
      exact hs.backfill_store ht hm hagrees ‹_›
  | append t =>
    rename_i entry ht
    exact ⟨hs.files, hs.posted, fun entry' hmem => mem_append_left _ (hs.journal entry' hmem),
      fun k => (hs.account k).frame rfl (fun entry' _ => pending_append ht entry') rfl
        (fun _ => rfl) (fun _ hmem _ => .inl hmem)⟩
  | consolidate k entries stale =>
    rename_i hcond
    split at h
    · cases h
      exact hs.consolidate ‹_› hcond.1
    · cases h
      exact hs.drop_stale stale hcond.1 ‹_›
  | apply_graduations =>
    cases h
    exact hs.apply_graduations he
  | cleanup =>
    cases h
    exact ⟨hs.files, hs.posted, fun _ hmem => absurd hmem not_mem_nil,
      fun k => (hs.account k).cleanup⟩
  | consolidate_before_eviction k entries =>
    obtain ⟨m, hm, rfl⟩ := map_eq_some_iff.mp h
    exact hs.consolidate_before_eviction hm (isNone_iff_eq_none.mp (he m hm))
  | track e =>
    rename_i hother
    obtain ⟨tracking, ht, rfl⟩ := map_eq_some_iff.mp h
    obtain ⟨hfaultless, huncut⟩ := he
    refine ⟨faultless_inv hs.files hfaultless ht, ?_, hs.journal,
      fun k => (hs.account k).frame rfl (fun _ _ => Iff.rfl) rfl (fun _ => rfl)
        (fun _ hmem _ => .inl hmem)⟩
    rw [tracked_step .write_cache hs.files hfaultless huncut ht, hother, add_zero]
    exact hs.posted

/-- Nothing is under way: no graduation to be journaled, no entry to be consolidated, nothing
charged and not yet subtracted, and every delta collected. -/
def Quiet (s : Tier ω π κ ι τ σ) : Prop :=
  (∀ t, (s.tasks t).bind entry? = none) ∧ s.journal = [] ∧ s.graduated_bytes = 0 ∧
    s.tracking.Quiet

instance [Fintype τ] (s : Tier ω π κ ι τ σ) : Decidable s.Quiet :=
  inferInstanceAs (Decidable (_ ∧ _))

/-- The moves of one key, one instance, one flush task and two graduating tasks. -/
abbrev OneKey := TierEvent Unit String Unit Unit Bool Unit

def upload_and_collect (etag : String) (n file : ℕ) : List OneKey :=
  .put_buffered () () (uploaded etag n) ⟨0, n - 1, etag, n, none⟩ ::
    (flush_events () () (.add 0) ++ collect_events () ((), file)).map .track

def graduate : List OneKey :=
  [.refresh_read true () 1 60, .refresh_publish true, .append true]

def graduate_twice : List OneKey :=
  [.backfill_read true () "Sun, 15 Nov 2026 00:00:00 GMT" none,
    .backfill_read false () "Sun, 15 Nov 2026 00:00:00 GMT" none,
    .backfill_store true, .backfill_store false, .append true, .append false]

def consolidation_cycle (entries : List (GraduationEntry Unit)) : List OneKey :=
  [.consolidate () entries fun _ => false, .apply_graduations, .cleanup]

/-- A first version is uploaded and read, a second uploaded before the entry is consolidated:
the entry sets the token of the second version, whose own graduation is then never charged. -/
def reupload_before_consolidation : List OneKey :=
  upload_and_collect "a" 10 0 ++ graduate ++ upload_and_collect "b" 20 1 ++
    consolidation_cycle [⟨(), 10, 1⟩] ++ graduate ++ consolidation_cycle [⟨(), 20, 2⟩]

/-- The same with the first version's entries consolidated before the second upload. -/
def reupload_after_consolidation : List OneKey :=
  upload_and_collect "a" 10 0 ++ graduate_twice ++ consolidation_cycle [⟨(), 10, 1⟩, ⟨(), 10, 1⟩] ++
    upload_and_collect "b" 20 1

end Tier

end HybridCache.WriteTier
