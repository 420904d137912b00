/-
The validation scan and the installation of its result (`cache_size_tracker.rs`,
`journal_consolidator.rs`).

A full scan adds up the ranges of every `.meta` file. `update_size_from_validation` then makes that
sum the persisted total, deletes the delta files one after another, and resets the accumulator of
the instance that scanned. It takes no lock, so a collection pass may read the size state before
and write it back afterwards: the update of `Tracking` is two steps here. Stores and removals
change a record and record the difference in an accumulator, in either order.

`ω`, `π` are as in `NewCacheMetadata`, `κ` are the cache keys, `μ` the storing and removing tasks.
-/
import HybridCache.Metadata.Record
import HybridCache.SizeTracking.Totals

namespace HybridCache.SizeTracking

open Lib Metadata List Option

open Directory Figure

/-! ## The fleet -/

/-- A store or removal that is half done: the record is changed and an instance has yet to
record the difference, or the difference is recorded and the record has yet to change. -/
inductive Half (ι κ : Type) where
  | owes (i : ι) (amount : ℤ)
  | ahead (k : κ) (amount : ℤ)
deriving DecidableEq, Repr

/-- What a half done operation will add to the recorded differences, beyond the records. -/
def Half.amount {ι κ : Type} : Half ι κ → ℤ
  | owes _ amount => amount
  | ahead _ amount => -amount

/-- Where the validation stands. `validated` says that a result has been installed. -/
inductive Validation (ι κ : Type) where
  | idle (validated : Bool)
  | scanning (i : ι) (expected seen : List κ) (scanned_size scanned_staged_size : ℕ)
      (validated : Bool)
  | installing (i : ι) (scanned_size : ℕ) (listed : List (ι × ℕ))

namespace Validation

variable {ι κ : Type}

/-- A result has been installed, and no other installation is under way. -/
def validated : Validation ι κ → Bool
  | idle validated => validated
  | scanning _ _ _ _ _ validated => validated
  | installing _ _ _ => false

/-- The instance that validates. -/
def holder : Validation ι κ → Option ι
  | idle _ => none
  | scanning i _ _ _ _ _ | installing i _ _ => some i

def scanned_size : Validation ι κ → ℕ
  | idle _ => 0
  | scanning _ _ _ size _ _ | installing _ size _ => size

/-- Keys whose changes no scan sees any more. -/
def covers [DecidableEq κ] : Validation ι κ → κ → Bool
  | scanning _ _ seen _ _ _, k => k ∈ seen
  | _, _ => true

end Validation

/-- Not an operation of the instance that validates, nor on a key that its scan has yet to read. -/
def Half.Clear {ι κ : Type} [DecidableEq κ] (v : Validation ι κ) : Half ι κ → Prop
  | owes i _ => v.holder ≠ some i
  | ahead k _ => v.covers k

/-- Records, half done operations, size tracking, the size state a collection pass has loaded
for its update, and the validation. -/
structure Fleet (ω π κ ι τ μ : Type) where
  records : Directory κ (NewCacheMetadata ω π)
  halves : μ → Option (Half ι κ)
  tracking : Tracking ι τ
  loaded : Option SizeState
  validation : Validation ι κ

inductive FleetEvent (ω π κ ι τ μ : Type) where
  | change (t : μ) (i : ι) (k : κ) (record : Option (NewCacheMetadata ω π))
  | credit (t : μ)
  | credit_first (t : μ) (i : ι) (k : κ) (amount : ℤ)
  | change_after (t : μ) (record : Option (NewCacheMetadata ω π))
  | begin_scan (i : ι)
  | scan_metadata_file (k : κ)
  | persist
  | clear (name : ι × ℕ)
  | reset
  | load
  | store
  | track (e : Event ι τ)

/-- A step of a collection pass. -/
def Event.collects {ι τ : Type} : Event ι τ → Bool
  | .begin_pass _ | .read _ | .delete _ | .update _ => true
  | _ => false

open NewCacheMetadata

namespace Fleet

variable {ω π κ ι τ μ : Type} [DecidableEq κ] [DecidableEq ι]

section Step

variable [DecidableEq τ] [DecidableEq μ]

def init (records : Directory κ (NewCacheMetadata ω π)) (state : SizeState) :
    Fleet ω π κ ι τ μ where
  records := records
  halves := fun _ => none
  tracking := .init state
  loaded := none
  validation := .idle false

/-- The total compressed size of the ranges recorded in metadata. -/
def recorded_size (s : Fleet ω π κ ι τ μ) : ℕ :=
  s.records.total compressed_size

def set_record (records : Directory κ (NewCacheMetadata ω π)) (k : κ) :
    Option (NewCacheMetadata ω π) → Directory κ (NewCacheMetadata ω π)
  | some m => records.put k m
  | none => records.erase k

def difference (s : Fleet ω π κ ι τ μ) (k : κ) (record : Option (NewCacheMetadata ω π)) : ℤ :=
  (record.elim 0 compressed_size : ℕ) -
    (s.records.measure compressed_size k : ℕ)

def record_amount (s : Fleet ω π κ ι τ μ) (i : ι) (amount : ℤ) : Tracking ι τ :=
  s.tracking.set_acc i ((AccOp.of_amount amount).apply (s.tracking.acc i))

/-- The state `update_size_from_validation` persists. -/
def update_size_from_validation (scanned_size scanned_staged_size : ℕ) : SizeState :=
  ⟨scanned_size, if scanned_staged_size > scanned_size then scanned_size else scanned_staged_size⟩

def step (in_progress : π → Bool) (s : Fleet ω π κ ι τ μ) :
    FleetEvent ω π κ ι τ μ → Option (Fleet ω π κ ι τ μ)
  | .change t i k record =>
    match s.halves t with
    | none => some { s with
        records := set_record s.records k record
        halves := Function.update s.halves t (some (.owes i (s.difference k record))) }
    | some _ => none
  | .credit t =>
    match s.halves t with
    | some (.owes i amount) => some { s with
        tracking := s.record_amount i amount
        halves := Function.update s.halves t none }
    | _ => none
  | .credit_first t i k amount =>
    match s.halves t with
    | none => some { s with
        tracking := s.record_amount i amount
        halves := Function.update s.halves t (some (.ahead k amount)) }
    | some _ => none
  | .change_after t record =>
    match s.halves t with
    | some (.ahead k amount) =>
      if s.difference k record = amount then
        some { s with
          records := set_record s.records k record
          halves := Function.update s.halves t none }
      else none
    | _ => none
  | .begin_scan i =>
    match s.validation with
    | .idle validated => some { s with
        validation := .scanning i (s.records.entries.map Prod.fst) [] 0 0 validated }
    | _ => none
  | .scan_metadata_file k =>
    match s.validation with
    | .scanning i expected seen size staged validated =>
      -- a file that is gone when it is read counts nothing
      if k ∈ seen then none
      else some { s with
        validation := .scanning i expected (k :: seen)
          (size + s.records.measure compressed_size k)
          (staged + s.records.measure (staged_compressed_size in_progress) k)
          validated }
    | _ => none
  | .persist =>
    match s.validation with
    | .scanning i expected seen size staged _ =>
      -- the walk has come by every file that was there when it began
      if ∀ k ∈ expected, k ∈ seen then
        some { s with
          tracking := { s.tracking with size_state := update_size_from_validation size staged }
          validation := .installing i size (s.tracking.files.entries.map Prod.fst) }
      else none
    | _ => none
  | .clear name =>
    match s.validation with
    | .installing _ _ _ => some { s with
        tracking := { s.tracking with files := s.tracking.files.erase name } }
    | _ => none
  | .reset =>
    match s.validation with
    | .installing i _ listed =>
      if ∀ name ∈ listed, s.tracking.files.get? name = none then
        some { s with
          tracking := s.tracking.set_acc i (s.tracking.acc i).reset
          validation := .idle true }
      else none
    | _ => none
  | .load =>
    match s.tracking.pass, s.loaded with
    | some ⟨_, _, none, _⟩, none => some { s with loaded := some s.tracking.size_state }
    | _, _ => none
  | .store =>
    match s.tracking.pass, s.loaded with
    | some ⟨_, summed, none, _⟩, some state => some { s with
        tracking := { s.tracking with
          pass := none
          -- a sum of nothing returns without touching the file
          size_state :=
            if sum_delta summed = 0 ∧ sum_write_cache_delta summed = 0 then s.tracking.size_state
            else atomic_update_size_delta state (sum_delta summed) (sum_write_cache_delta summed)
          applied := s.tracking.applied ++ [summed] }
        loaded := none }
    | _, _ => none
  | .track e =>
    -- the update is `load` and `store`, between which a pass does nothing else
    if e.Faultless ∧ (∀ ok, e ≠ .update ok) ∧ total.recorded e = 0 ∧
        (s.loaded.isNone ∨ e.collects = false) then
      (s.tracking.step e).map fun tracking => { s with tracking := tracking }
    else none

end Step

/-! ## Undisturbed validations -/

/-- Nothing is half done or on its way, but in delta files and with the instance that scans. -/
def Settled (s : Fleet ω π κ ι τ μ) (i : ι) : Prop :=
  (∀ t, s.halves t = none) ∧ (∀ j, j ≠ i → (s.tracking.acc j).delta = 0) ∧
    (∀ t, s.tracking.flushing t = none) ∧ s.tracking.pass = none ∧ s.loaded = none

/-- A scan begins in a settled state. Until its result is installed the instance that scans stores
and removes nothing, the others only behind the scan, and no delta is flushed or collected.
Afterwards no update is cut off at zero. -/
def Undisturbed (s : Fleet ω π κ ι τ μ) : FleetEvent ω π κ ι τ μ → Prop
  | .begin_scan i => s.Settled i
  | .change _ i k _ | .credit_first _ i k _ =>
    s.validation.holder ≠ some i ∧ s.validation.covers k
  | .track _ => s.validation.holder = none
  | .store => s.validation.validated →
      0 ≤ s.tracking.size_state.total_size + sum_delta s.tracking.summed
  | _ => True

/-- Bytes in records that a scan has yet to read. -/
def unread (records : Directory κ (NewCacheMetadata ω π)) (v : Validation ι κ) : ℕ :=
  (records.filter fun k => !v.covers k).total compressed_size

section Records

variable {records : Directory κ (NewCacheMetadata ω π)} {v : Validation ι κ} {k : κ}
  (record : Option (NewCacheMetadata ω π))

theorem total_set_record (k : κ) :
    (set_record records k record).total compressed_size + records.measure compressed_size k =
      records.total compressed_size + record.elim 0 compressed_size := by
  cases record with
  | none => exact total_erase compressed_size records k
  | some m => exact total_put compressed_size records k m

omit [DecidableEq ι] in
theorem unread_set_record (hk : v.covers k) :
    unread (set_record records k record) v = unread records v := by
  have hk : (!v.covers k) = false := by simp [hk]
  cases record with
  | none => exact congrArg _ (filter_erase (fun k => !v.covers k) hk)
  | some m => exact congrArg _ (filter_put (fun k => !v.covers k) hk m)

omit [DecidableEq ι] in
theorem unread_of_covered (h : ∀ k, records.get? k ≠ none → v.covers k) : unread records v = 0 := by
  have hnone : (records.filter fun k => !v.covers k).entries = [] := by
    refine filter_eq_nil_iff.mpr fun e he => ?_
    simp [h e.1 (by simp [get?_of_mem he])]
  simp [unread, Directory.total, hnone]

theorem get?_set_record_ne {k' : κ} (hk : k' ≠ k) :
    (set_record records k record).get? k' = records.get? k' := by
  cases record with
  | none => exact get?_erase_ne _ hk
  | some m => exact get?_put_ne m hk

omit [DecidableEq κ] [DecidableEq ι] in
theorem idle_of_holder (h : v.holder = none) : v = .idle v.validated := by
  cases v with
  | idle validated => rfl
  | scanning | installing => cases h

omit [DecidableEq ι] in
theorem clear_update [DecidableEq μ] {halves : μ → Option (Half ι κ)} {half : Option (Half ι κ)}
    (hs : ∀ t, ∀ half ∈ halves t, half.Clear v) (hhalf : ∀ h ∈ half, h.Clear v) (t : μ) :
    ∀ t', ∀ h ∈ Function.update halves t half t', h.Clear v := by
  intro t'
  by_cases ht : t' = t
  · rwa [ht, Function.update_self]
  · rw [Function.update_of_ne ht]
    exact hs t'

end Records

section Sums

variable [Fintype ι] [Fintype τ] [Fintype μ]

instance (s : Fleet ω π κ ι τ μ) : (e : FleetEvent ω π κ ι τ μ) → Decidable (s.Undisturbed e)
  | .begin_scan _ | .change _ _ _ _ | .credit_first _ _ _ _ =>
    inferInstanceAs (Decidable (_ ∧ _))
  | .track _ => inferInstanceAs (Decidable (_ = none))
  | .store => inferInstanceAs (Decidable (_ → _))
  | .credit _ | .change_after _ _ | .scan_metadata_file _ | .persist | .clear _ | .reset
  | .load => isTrue trivial

/-- What half done operations will still add. -/
def half_done (s : Fleet ω π κ ι τ μ) : ℤ :=
  ∑ t, (s.halves t).elim 0 Half.amount

/-- By how much the total size, with all that is on its way to it, is off. -/
def drift (s : Fleet ω π κ ι τ μ) : ℤ :=
  Tracking.tracked .total s.tracking + s.half_done - s.recorded_size

/-- What the installation drops: the total before it, the delta files and the accumulator of the
instance that validates. -/
def dropped (s : Fleet ω π κ ι τ μ) (i : ι) : ℤ :=
  s.tracking.size_state.total_size + s.tracking.files.total total.of_file + (s.tracking.acc i).delta

/-- What undisturbed steps keep. While an instance validates, the drift is what will be dropped
less what the scan has found and will find. -/
structure OnCourse (s : Fleet ω π κ ι τ μ) : Prop where
  tracking : s.tracking.Names ∧ s.tracking.ReadingOnDisk
  halves : ∀ t, ∀ half ∈ s.halves t, half.Clear s.validation
  idle : ∀ i ∈ s.validation.holder, s.tracking.pass = none ∧ s.loaded = none
  sum : ∀ i ∈ s.validation.holder,
    s.drift = s.dropped i - s.validation.scanned_size - unread s.records s.validation
  keys : ∀ i expected seen size staged validated,
    s.validation = .scanning i expected seen size staged validated →
      ∀ k, s.records.get? k ≠ none → k ∈ expected ∨ k ∈ seen
  files : ∀ i size listed, s.validation = .installing i size listed →
    s.tracking.size_state.total_size = size ∧
      ∀ name, s.tracking.files.get? name ≠ none → name ∈ listed
  right : s.validation.validated → s.drift = 0 ∧ ∀ state ∈ s.loaded, state = s.tracking.size_state

variable {s : Fleet ω π κ ι τ μ} {amount : ℤ} {i : ι} {t : μ} {half : Option (Half ι κ)} {k : κ}

/-! ## One step -/

theorem OnCourse.of_idle {validated : Bool} (hidle : s.validation = .idle validated)
    (htracking : s.tracking.Names ∧ s.tracking.ReadingOnDisk)
    (hright : validated → s.drift = 0 ∧ ∀ state ∈ s.loaded, state = s.tracking.size_state) :
    s.OnCourse := by
  refine ⟨htracking, fun t half _ => ?_, ?_, ?_, ?_, ?_, fun hv => hright (by rwa [hidle] at hv)⟩
  · cases half <;> simp [hidle, Half.Clear, Validation.holder, Validation.covers]
  all_goals simp [hidle, Validation.holder]

omit [DecidableEq κ] [DecidableEq ι] in
theorem Settled.drift (h : s.Settled i) : s.drift = s.dropped i - s.recorded_size := by
  obtain ⟨hhalves, hacc, hflush, hpass, -⟩ := h
  have hsum : ∑ j, total.of_acc (s.tracking.acc j) = (s.tracking.acc i).delta :=
    Finset.sum_eq_single i (fun j _ hj => hacc j hj) (fun hi => absurd (Finset.mem_univ i) hi)
  simp only [Fleet.drift, half_done, hhalves, Tracking.tracked, Tracking.outstanding, dropped,
    Tracking.unflushed, hsum, hflush, Tracking.summed, hpass, of_state, of_files, elim_none,
    Finset.sum_const_zero, map_nil, sum_nil]
  omega

omit [DecidableEq κ] [DecidableEq ι] in
/-- A pass moves the drift by what it writes beyond its sum. -/
theorem drift_store {p : Pass ι} (hp : s.tracking.pass = some p) (state : SizeState) :
    drift { s with
      tracking := { s.tracking with
        pass := none
        size_state := state
        applied := s.tracking.applied ++ [p.summed] }
      loaded := none } =
      s.drift + (state.total_size - (s.tracking.size_state.total_size + sum_delta p.summed)) := by
  have hsummed := Tracking.summed_of_pass hp
  have hsum : total.of_files p.summed = sum_delta p.summed := rfl
  simp only [drift, half_done, recorded_size, Tracking.tracked, Tracking.outstanding,
    Tracking.unflushed, hsummed, hsum]
  simp only [Tracking.summed, elim_none, of_state, of_files, map_nil, sum_nil]
  omega

/-- A scan that begins has everything to read. -/
theorem OnCourse.begin_scan (hs : s.OnCourse) (hset : s.Settled i) {validated : Bool}
    (hphase : s.validation = .idle validated) :
    OnCourse { s with
      validation := .scanning i (s.records.entries.map Prod.fst) [] 0 0 validated } := by
  have hdrift := hset.drift
  obtain ⟨hhalves, -, -, hpass, hloaded⟩ := hset
  refine ⟨hs.tracking, ?_, fun _ _ => ⟨hpass, hloaded⟩, ?_, ?_, ?_,
    fun hv => hs.right (by rwa [hphase])⟩
  · intro t half hhalf
    rw [hhalves t] at hhalf
    cases hhalf
  · rintro _ ⟨⟩
    refine hdrift.trans ?_
    simp [dropped, Validation.scanned_size, unread, Validation.covers, recorded_size,
      Directory.total, Directory.filter]
  · rintro _ _ _ _ _ _ ⟨⟩ k hget
    exact .inl (mem_keys_iff.mpr (isSome_iff_ne_none.mpr hget))
  · rintro _ _ _ ⟨⟩

/-- A file read moves its bytes from those to be found to those found. -/
theorem OnCourse.scan (hs : s.OnCourse) {expected seen : List κ} {size staged staged' : ℕ}
    {validated : Bool} (hphase : s.validation = .scanning i expected seen size staged validated)
    (hseen : k ∉ seen) :
    OnCourse { s with
      validation := .scanning i expected (k :: seen)
        (size + s.records.measure compressed_size k) staged' validated } := by
  have hholder : s.validation.holder = some i := by rw [hphase]; rfl
  refine ⟨hs.tracking, fun t half hhalf => ?_, ?_, ?_, ?_, ?_, fun hv => hs.right (by rwa [hphase])⟩
  · have hclear := hs.halves t half hhalf
    rw [hphase] at hclear
    cases half with
    | owes j amount => exact hclear
    | ahead k' amount => exact decide_eq_true (mem_cons_of_mem _ (of_decide_eq_true hclear))
  · rintro _ ⟨⟩
    exact hs.idle i hholder
  · rintro _ ⟨⟩
    have hread := @total_filter_erase _ _ _ _ _ compressed_size s.records
      (fun k => !decide (k ∈ seen)) k (by simpa using hseen)
    have hcons : (fun k' => !decide (k' ∈ k :: seen)) =
        fun k' => !decide (k' ∈ seen) && decide (k' ≠ k) := by
      funext k'
      by_cases hk : k' = k <;> simp [hk]
    refine (hs.sum i hholder).trans ?_
    simp only [hphase, dropped, Validation.scanned_size, unread, Validation.covers, hcons]
    omega
  · rintro _ _ _ _ _ _ ⟨⟩ k' hget
    exact (hs.keys _ _ _ _ _ _ hphase k' hget).imp_right (mem_cons_of_mem k)
  · rintro _ _ _ ⟨⟩

/-- A record changed behind the scan, and the operation's other half. -/
theorem OnCourse.set_record [DecidableEq μ] (hs : s.OnCourse) (hk : s.validation.covers k)
    {record : Option (NewCacheMetadata ω π)} (hclear : ∀ h ∈ half, h.Clear s.validation)
    (hhalf : half.elim 0 Half.amount =
      (s.halves t).elim 0 Half.amount + s.difference k record) :
    OnCourse { s with
      records := Fleet.set_record s.records k record
      halves := Function.update s.halves t half } := by
  have hdrift : drift { s with
      records := Fleet.set_record s.records k record
      halves := Function.update s.halves t half } = s.drift := by
    have hsum := sum_update s.halves t half fun half => half.elim 0 Half.amount
    have htotal := @total_set_record _ _ _ _ s.records record k
    simp only [drift, half_done, recorded_size, difference] at hsum hhalf ⊢
    omega
  refine ⟨hs.tracking, clear_update hs.halves hclear t, hs.idle, fun i hi => ?_, ?_, hs.files,
    fun hv => ⟨hdrift.trans (hs.right hv).1, (hs.right hv).2⟩⟩
  · rw [hdrift, unread_set_record record hk]
    exact hs.sum i hi
  · intro i expected seen size staged validated hphase k' hget
    by_cases heq : k' = k
    · rw [hphase] at hk
      exact .inr (heq ▸ of_decide_eq_true hk)
    · rw [get?_set_record_ne record heq] at hget
      exact hs.keys i expected seen size staged validated hphase k' hget

/-- The scanned size takes the place of the total. -/
theorem OnCourse.persist (hs : s.OnCourse) {expected seen : List κ} {size staged : ℕ}
    {validated : Bool} (hphase : s.validation = .scanning i expected seen size staged validated)
    (hall : ∀ k ∈ expected, k ∈ seen) :
    OnCourse { s with
      tracking := { s.tracking with size_state := update_size_from_validation size staged }
      validation := .installing i size (s.tracking.files.entries.map Prod.fst) } := by
  have hholder : s.validation.holder = some i := by rw [hphase]; rfl
  refine ⟨⟨hs.tracking.1.of_eq rfl rfl rfl, hs.tracking.2⟩, fun t half hhalf => ?_, ?_, ?_, ?_, ?_,
    fun hv => by cases hv⟩
  · have hclear := hs.halves t half hhalf
    rw [hphase] at hclear
    cases half with
    | owes j amount => exact hclear
    | ahead k amount => rfl
  · rintro _ ⟨⟩
    exact hs.idle i hholder
  · rintro _ ⟨⟩
    have hsum := hs.sum i hholder
    -- a record was there when the scan began, or was written behind it
    have hnone : unread s.records s.validation = 0 := by
      refine unread_of_covered fun k hget => ?_
      rw [hphase]
      exact decide_eq_true ((hs.keys _ _ _ _ _ _ hphase k hget).elim (hall k) id)
    rw [hnone, hphase] at hsum
    rw [unread_of_covered fun _ _ => rfl]
    simp only [drift, half_done, recorded_size, dropped, Tracking.tracked, Tracking.outstanding,
      Tracking.unflushed, Tracking.summed, of_state, Validation.scanned_size,
      update_size_from_validation] at hsum ⊢
    omega
  · rintro _ _ _ _ _ _ ⟨⟩
  · rintro _ _ _ ⟨⟩
    exact ⟨rfl, fun name hget => mem_keys_iff.mpr (isSome_iff_ne_none.mpr hget)⟩

/-- A delta file deleted by the installation. -/
theorem OnCourse.clear (hs : s.OnCourse) {size : ℕ} {listed : List (ι × ℕ)}
    (hphase : s.validation = .installing i size listed) (name : ι × ℕ) :
    OnCourse { s with tracking := { s.tracking with files := s.tracking.files.erase name } } := by
  have hget : ∀ name', (s.tracking.files.erase name).get? name' ≠ none →
      s.tracking.files.get? name' ≠ none := by
    intro name' hget
    rw [get?_erase] at hget
    split at hget
    · exact absurd rfl hget
    · exact hget
  have hholder : s.validation.holder = some i := by rw [hphase]; rfl
  have hpass := (hs.idle i hholder).1
  refine ⟨⟨hs.tracking.1.shrink (fun _ => le_rfl) (fun _ _ ht => ht) hget, fun p _ _ hp => ?_⟩,
    hs.halves, hs.idle, fun j hj => ?_, hs.keys, fun j n listed' hphase' => ?_, fun hv => ?_⟩
  · rw [hpass] at hp
    cases hp
  · have hsum := hs.sum j hj
    have herase := total_erase total.of_file s.tracking.files name
    simp only [drift, half_done, recorded_size, dropped, Tracking.tracked, Tracking.outstanding,
      Tracking.unflushed, Tracking.summed] at hsum ⊢
    omega
  · obtain ⟨hsize, hlisted⟩ := hs.files j n listed' hphase'
    exact ⟨hsize, fun name' hget' => hlisted name' (hget name' hget')⟩
  · -- the installation is not over
    simp [Validation.validated, hphase] at hv

/-- The end of an installation: what was to be dropped is gone. -/
theorem OnCourse.reset (hs : s.OnCourse) {size : ℕ} {listed : List (ι × ℕ)}
    (hphase : s.validation = .installing i size listed)
    (hgone : ∀ name ∈ listed, s.tracking.files.get? name = none) :
    OnCourse { s with
      tracking := s.tracking.set_acc i (s.tracking.acc i).reset
      validation := .idle true } := by
  have hholder : s.validation.holder = some i := by rw [hphase]; rfl
  obtain ⟨hsize, hlisted⟩ := hs.files i size listed hphase
  refine .of_idle rfl ⟨hs.tracking.1.set_acc i rfl, hs.tracking.2⟩ fun _ => ⟨?_, ?_⟩
  · have hempty : s.tracking.files.entries = [] := by
      refine eq_nil_iff_forall_not_mem.mpr fun e he => ?_
      have hget : s.tracking.files.get? e.1 ≠ none := by simp [get?_of_mem he]
      exact hget (hgone e.1 (hlisted e.1 hget))
    have hsum := hs.sum i hholder
    have hacc := Tracking.tracked_set_acc .total s.tracking i (s.tracking.acc i).reset
    rw [hphase, unread_of_covered fun _ _ => rfl] at hsum
    simp only [drift, half_done, recorded_size, dropped, Validation.scanned_size, hsize,
      Directory.total, hempty, map_nil, sum_nil] at hsum ⊢
    have hzero : total.of_acc (s.tracking.acc i).reset = 0 := rfl
    have hdelta : total.of_acc (s.tracking.acc i) = (s.tracking.acc i).delta := rfl
    omega
  · intro state hstate
    rw [(hs.idle i hholder).2] at hstate
    cases hstate

/-- An update adds its sum to the figure it loaded, which is the one in force. -/
theorem OnCourse.store (hs : s.OnCourse) (he : s.Undisturbed .store) {p : Pass ι}
    {state : SizeState} (hp : s.tracking.pass = some p) (hloaded : s.loaded = some state) :
    OnCourse { s with
      tracking := { s.tracking with
        pass := none
        size_state :=
          if sum_delta p.summed = 0 ∧ sum_write_cache_delta p.summed = 0 then s.tracking.size_state
          else atomic_update_size_delta state (sum_delta p.summed) (sum_write_cache_delta p.summed)
        applied := s.tracking.applied ++ [p.summed] }
      loaded := none } := by
  have hholder : s.validation.holder = none := by
    refine eq_none_iff_forall_not_mem.mpr fun i hi => ?_
    rw [(hs.idle i hi).1] at hp
    cases hp
  refine .of_idle (idle_of_holder hholder)
    ⟨hs.tracking.1.of_eq rfl rfl rfl, fun p name file hp' => by cases hp'⟩ fun hv => ⟨?_, ?_⟩
  · obtain ⟨hdrift, hsame⟩ := hs.right hv
    have hcut := he hv
    rw [drift_store hp, hdrift, zero_add]
    obtain rfl := hsame state hloaded
    rw [Tracking.summed_of_pass hp] at hcut
    have hstate := saturating_apply_eq s.tracking.size_state.total_size (sum_delta p.summed)
    split_ifs with hzero
    · omega
    · simp only [atomic_update_size_delta]
      omega
  · rintro _ ⟨⟩

variable [DecidableEq μ]

/-- A difference recorded by an instance that does not validate, and the operation's other half. -/
theorem OnCourse.record_amount (hs : s.OnCourse) (hi : s.validation.holder ≠ some i)
    (hclear : ∀ h ∈ half, h.Clear s.validation)
    (hhalf : half.elim 0 Half.amount = (s.halves t).elim 0 Half.amount - amount) :
    OnCourse { s with
      tracking := s.record_amount i amount
      halves := Function.update s.halves t half } := by
  have hdrift : drift { s with
      tracking := s.record_amount i amount
      halves := Function.update s.halves t half } = s.drift := by
    have hsum := sum_update s.halves t half fun half => half.elim 0 Half.amount
    have hacc : Tracking.tracked .total (s.record_amount i amount) =
        Tracking.tracked .total s.tracking + amount := by
      rw [Fleet.record_amount, Tracking.tracked_set_acc, of_acc_apply]
      simp only [of_op, AccOp.amount_of_amount]
      omega
    simp only [drift, half_done, recorded_size] at hsum ⊢
    omega
  refine ⟨⟨hs.tracking.1.set_acc i AccOp.apply_flush_sequence, hs.tracking.2⟩,
    clear_update hs.halves hclear t, hs.idle, fun j hj => ?_, hs.keys, hs.files,
    fun hv => ⟨hdrift.trans (hs.right hv).1, (hs.right hv).2⟩⟩
  have hne : j ≠ i := fun heq => hi (heq ▸ hj)
  rw [hdrift, hs.sum j hj]
  simp [dropped, Fleet.record_amount, Tracking.set_acc, Function.update_of_ne hne]

variable [DecidableEq τ]

/-- **One step** of an undisturbed validation, or of anything between validations. -/
theorem onCourse_step {in_progress : π → Bool} {s s' : Fleet ω π κ ι τ μ}
    {e : FleetEvent ω π κ ι τ μ} (hs : s.OnCourse) (he : s.Undisturbed e)
    (h : s.step in_progress e = some s') : s'.OnCourse := by
  cases e with (simp only [step] at h; try split at h <;> try cases h)
  | change t i k record =>
    rename_i ht
    refine hs.set_record he.2 ?_ (by simp [ht, Half.amount])
    rintro _ ⟨⟩
    exact he.1
  | credit t =>
    rename_i i amount ht
    exact hs.record_amount (hs.halves t _ ht) (by rintro _ ⟨⟩) (by simp [ht, Half.amount])
  | credit_first t i k amount =>
    rename_i ht
    refine hs.record_amount he.1 ?_ (by simp [ht, Half.amount])
    rintro _ ⟨⟩
    exact he.2
  | change_after t record =>
    rename_i k amount ht
    split at h <;> cases h
    rename_i hsame
    exact hs.set_record (hs.halves t _ ht) (by rintro _ ⟨⟩) (by simp [ht, Half.amount, hsame])
  | begin_scan i =>
    rename_i hphase
    exact hs.begin_scan he hphase
  | scan_metadata_file k =>
    rename_i hphase
    split at h <;> cases h
    exact hs.scan hphase ‹_›
  | persist =>
    rename_i hphase
    split at h <;> cases h
    exact hs.persist hphase ‹_›
  | clear name =>
    rename_i hphase
    exact hs.clear hphase name
  | reset =>
    rename_i hphase
    split at h <;> cases h
    exact hs.reset hphase ‹_›
  | load =>
    rename_i hp hloaded
    refine ⟨hs.tracking, hs.halves, fun i hi => ?_, hs.sum, hs.keys, hs.files, fun hv =>
      ⟨(hs.right hv).1, ?_⟩⟩
    · rw [(hs.idle i hi).1] at hp
      cases hp
    · rintro _ ⟨⟩
      rfl
  | store =>
    rename_i hp hloaded
    exact hs.store he hp hloaded
  | track e =>
    rename_i hcond
    obtain ⟨hfaultless, hup, hrecorded, -⟩ := hcond
    obtain ⟨tracking, ht, rfl⟩ := map_eq_some_iff.mp h
    have hcut : s.tracking.Uncut .total e := by
      cases e with
      | update ok => exact absurd rfl (hup ok)
      | _ => trivial
    have hstep := Tracking.tracked_step .total hs.tracking hfaultless hcut ht
    have hstate : tracking.size_state = s.tracking.size_state := by
      cases Tracking.moves_of_step ht with
      | update ok => exact absurd rfl (hup ok)
      | _ => rfl
    refine .of_idle (idle_of_holder he) (Tracking.faultless_inv hs.tracking hfaultless ht)
      fun hv => ⟨?_, ?_⟩
    · have hdrift := (hs.right hv).1
      simp only [drift, half_done, recorded_size] at hdrift ⊢
      omega
    · rw [hstate]
      exact (hs.right hv).2

/-- No operation is half done and every delta is collected. -/
def Quiet (s : Fleet ω π κ ι τ μ) : Prop :=
  (∀ t, s.halves t = none) ∧ s.tracking.Quiet

instance (s : Fleet ω π κ ι τ μ) : Decidable s.Quiet :=
  inferInstanceAs (Decidable (_ ∧ _))

omit [DecidableEq κ] [DecidableEq ι] [DecidableEq τ] [DecidableEq μ] in
theorem Quiet.total_size (h : s.Quiet) :
    (s.tracking.size_state.total_size : ℤ) = s.recorded_size + s.drift := by
  obtain ⟨hhalves, hquiet⟩ := h
  have htracked := hquiet.tracked .total
  have hhalf : s.half_done = 0 := by simp [half_done, hhalves]
  simp only [drift, htracked, hhalf, of_state]
  omega

/-- The moves of two keys and two instances. -/
abbrev TwoInstances := FleetEvent Unit String Bool Bool Unit Unit

def store_events (i k : Bool) (n : ℕ) : List TwoInstances :=
  [.change () i k (some (uploaded "a" n)), .credit ()]

def fleet_flush (i : Bool) : List TwoInstances :=
  (Tracking.flush_events i () (.add 0)).map .track

def fleet_collect (name : Bool × ℕ) : List TwoInstances :=
  [.track (.begin_pass true), .track (.read name), .track (.delete true), .load, .store]

def scan_events : List TwoInstances :=
  [.begin_scan true, .scan_metadata_file true, .scan_metadata_file false]

/-- Instance `false` stores 10 bytes and has not flushed when instance `true` scans and
installs; the credit is flushed and collected afterwards. -/
def scan_before_flush : List TwoInstances :=
  store_events false false 10 ++ scan_events ++ [.persist, .reset] ++ fleet_flush false ++
    fleet_collect (false, 0)

/-- The same bytes flushed before, and a store of the scanning instance. The other one stores
behind the scan. -/
def scan_after_flush : List TwoInstances :=
  store_events false false 10 ++ store_events true true 5 ++ fleet_flush false ++
    [.begin_scan true, .scan_metadata_file true] ++ store_events false true 7 ++
    [.scan_metadata_file false, .persist, .clear (false, 0), .reset] ++ fleet_flush false ++
    fleet_collect (false, 1)

end Sums

end Fleet

end HybridCache.SizeTracking
