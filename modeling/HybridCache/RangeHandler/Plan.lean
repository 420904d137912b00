/-
Planning a partial hit: `merge_ranges`, `calculate_missing_ranges` and
`consolidate_missing_ranges`.

The two merging loops differ only in how far apart two ranges may be and still be joined, so each
is shown equal to `Span.coalesce` at its own slack, and the subtraction to `Span.gaps`.
-/
import HybridCache.Lib.SortByKey
import HybridCache.RangeHandler.Spec

namespace HybridCache.RangeHandler

open Lib Lib.Outcome Lib.Span

/-! ## The model -/

/-- The loop of `merge_ranges` after its first range. -/
def merge_ranges_loop (current : RangeSpec) : List RangeSpec → List RangeSpec
  | [] => [current]
  | range :: rest =>
    if u64_saturating_add current.end_ 1 ≥ range.start then
      merge_ranges_loop ⟨current.start, max current.end_ range.end_⟩ rest
    else
      current :: merge_ranges_loop range rest

def merge_ranges (ranges : List RangeSpec) : List RangeSpec :=
  match sort_by_key Span.start ranges with
  | [] => []
  | current :: rest => merge_ranges_loop current rest

def gap_before (current_pos : ℕ) (covered_range : RangeSpec) :
    Outcome ProxyError (List RangeSpec) :=
  if current_pos < covered_range.start then do
    let gap_end ← u64_sub covered_range.start 1
    ok [⟨current_pos, gap_end⟩]
  else
    ok []

/-- The loop of `calculate_missing_ranges`: what is missing from `current_pos` on. -/
def missing_loop (requested : RangeSpec) (current_pos : ℕ) :
    List RangeSpec → Outcome ProxyError (List RangeSpec)
  | [] => ok (if current_pos ≤ requested.end_ then [⟨current_pos, requested.end_⟩] else [])
  | covered_range :: rest => do
    let before ← gap_before current_pos covered_range
    let past ← u64_add covered_range.end_ 1
    let after ← missing_loop requested (max current_pos past) rest
    ok (before ++ after)

def calculate_missing_ranges (requested : RangeSpec) (covered : List RangeSpec) :
    Outcome ProxyError (List RangeSpec) :=
  if covered.isEmpty then
    ok [requested]
  else
    missing_loop requested requested.start (merge_ranges covered)

/-- The loop of `consolidate_missing_ranges` after its first range. -/
def consolidate_loop (max_gap_size : ℕ) (current : RangeSpec) : List RangeSpec → List RangeSpec
  | [] => [current]
  | range :: rest =>
    let gap := if range.start > current.end_ then range.start - current.end_ - 1 else 0
    if gap ≤ max_gap_size then
      consolidate_loop max_gap_size ⟨current.start, max current.end_ range.end_⟩ rest
    else
      current :: consolidate_loop max_gap_size range rest

def consolidate_missing_ranges (missing_ranges : List RangeSpec) (max_gap_size : ℕ) :
    List RangeSpec :=
  if missing_ranges.isEmpty then
    []
  else if missing_ranges.length = 1 then
    missing_ranges
  else
    match sort_by_key Span.start missing_ranges with
    | [] => []
    | current :: rest => consolidate_loop max_gap_size current rest

/-- The covered ranges `find_cached_ranges` computes: each cached range that
reaches into the request, clipped to it. -/
def covered_ranges (requested : RangeSpec) (cached : List Range) : List RangeSpec :=
  (overlapping requested cached).map
    fun c => ⟨max requested.start c.start, min requested.end_ c.end_⟩

/-! ## The loops in terms of intervals -/

variable {l : List RangeSpec} {current : RangeSpec} {max_gap_size : ℕ} {missing : List RangeSpec}

/-- Merging joins what overlaps or is adjacent. The saturating addition makes no
difference: a range that starts past `u64::MAX` does not exist. -/
theorem merge_ranges_loop_eq (hmax : ∀ a ∈ l, a.start ≤ u64_max) :
    merge_ranges_loop current l = coalesce 0 current l := by
  induction l generalizing current with
  | nil => rfl
  | cons r rest ih =>
    have hr := hmax r List.mem_cons_self
    have hrest : ∀ a ∈ rest, a.start ≤ u64_max := fun a ha => hmax a (List.mem_cons_of_mem _ ha)
    have hiff : u64_saturating_add current.end_ 1 ≥ r.start ↔ r.start ≤ current.end_ + 1 + 0 := by
      simp only [u64_saturating_add]
      omega
    simp only [merge_ranges_loop, coalesce, hiff, ih hrest]

theorem consolidate_loop_eq :
    consolidate_loop max_gap_size current l = coalesce max_gap_size current l := by
  induction l generalizing current with
  | nil => rfl
  | cons r rest ih =>
    have hiff : (if r.start > current.end_ then r.start - current.end_ - 1 else 0) ≤ max_gap_size ↔
        r.start ≤ current.end_ + 1 + max_gap_size := by
      split <;> omega
    simp only [consolidate_loop, coalesce, hiff, ih]

variable {requested : RangeSpec}

theorem missing_loop_eq {pos : ℕ} (hmax : ∀ a ∈ l, a.end_ < u64_max) :
    missing_loop requested pos l = ok (gaps requested.end_ pos l) := by
  induction l generalizing pos with
  | nil => rfl
  | cons c rest ih =>
    have hc := hmax c List.mem_cons_self
    have hbefore : gap_before pos c = ok (if pos < c.start then [⟨pos, c.start - 1⟩] else []) := by
      unfold gap_before
      split
      case isTrue hlt => rw [u64_sub_of_le (by omega), bind_ok]
      case isFalse => rfl
    rw [missing_loop, hbefore, bind_ok, u64_add_of_le (by omega), bind_ok,
      ih fun a ha => hmax a (List.mem_cons_of_mem _ ha), bind_ok, gaps]

/-! ## What the plan covers -/

theorem merge_ranges_spec (hproper : Proper l) (hmax : ∀ a ∈ l, a.end_ < u64_max) :
    Separated 0 (merge_ranges l) ∧ Proper (merge_ranges l) ∧
      (∀ x, Covers (merge_ranges l) x ↔ Covers l x) ∧
      ∀ a ∈ merge_ranges l, ∃ b ∈ l, b.end_ = a.end_ := by
  have hperm := sort_by_key_perm Span.start l
  have hasc : Ascending (sort_by_key Span.start l) := sort_by_key_ascending _ l
  have hmem : ∀ a, a ∈ sort_by_key Span.start l → a ∈ l := fun a => mem_sort_by_key.mp
  unfold merge_ranges
  cases hsort : sort_by_key Span.start l with
  | nil =>
    obtain rfl := sort_by_key_eq_nil.mp hsort
    exact ⟨List.Pairwise.nil, hproper, fun x => Iff.rfl, nofun⟩
  | cons current rest =>
    rw [hsort] at hperm hasc hmem
    have hp : Proper (current :: rest) := fun a ha => hproper a (hmem a ha)
    have hrest : ∀ a ∈ rest, a.start ≤ u64_max := fun a ha => by
      have hin := hmem a (List.mem_cons_of_mem _ ha)
      exact (hproper a hin).trans (hmax a hin).le
    dsimp only
    rw [merge_ranges_loop_eq hrest]
    refine ⟨coalesce_separated hasc, coalesce_proper hp, fun x => ?_, fun a ha => ?_⟩
    · rw [covers_coalesce_zero hasc x]
      exact Covers.perm hperm x
    · obtain ⟨-, b, hb, hend⟩ := endpoints_of_mem_coalesce ha
      exact ⟨b, hmem b hb, hend⟩

theorem merge_ranges_start {m : RangeSpec} (hm : m ∈ merge_ranges l)
    (hmax : ∀ a ∈ l, a.start ≤ u64_max) : ∃ a ∈ l, a.start = m.start := by
  have hmem : ∀ a, a ∈ sort_by_key Span.start l → a ∈ l := fun a => mem_sort_by_key.mp
  unfold merge_ranges at hm
  cases hsort : sort_by_key Span.start l with
  | nil =>
    rw [hsort] at hm
    cases hm
  | cons current rest =>
    rw [hsort] at hm hmem
    dsimp only at hm
    rw [merge_ranges_loop_eq fun a ha => hmax a (hmem a (List.mem_cons_of_mem _ ha))] at hm
    obtain ⟨⟨a, ha, hstart⟩, -⟩ := endpoints_of_mem_coalesce hm
    exact ⟨a, hmem a ha, hstart⟩

/-- The uncovered intervals of a request: ascending, none empty, none adjacent to another, and over
exactly the bytes that no covered range has. -/
structure Uncovered (requested : RangeSpec) (covered missing : List RangeSpec) : Prop where
  separated : Separated 0 missing
  proper : Proper missing
  exact : ∀ x, Covers missing x ↔ requested.Contains x ∧ ¬ Covers covered x

/-- Whatever is covered past the end of the request is joined to it: no byte is left out between
the end of the request and the start of a covered range. -/
def NoIsland (requested : RangeSpec) (covered : List RangeSpec) : Prop :=
  ∀ a ∈ covered, ∀ x, requested.end_ < x → x ≤ a.start → Covers covered x

variable {covered : List RangeSpec}

theorem noIsland_iff (hproper : Proper covered) (hmax : ∀ a ∈ covered, a.end_ < u64_max) :
    NoIsland requested covered ↔ ∀ m ∈ merge_ranges covered, m.start ≤ requested.end_ + 1 := by
  obtain ⟨hsep, hprop, hcov, -⟩ := merge_ranges_spec hproper hmax
  constructor
  · intro hisland m hm
    by_contra hfar
    obtain ⟨a, ha, hstart⟩ := merge_ranges_start hm
      fun a ha => (hproper a ha).trans (hmax a ha).le
    have hbefore := hisland a ha (m.start - 1) (by omega) (by omega)
    exact hsep.not_covers_before hprop hm (by omega) ((hcov _).mpr hbefore)
  · intro hnear a ha x hlt hle
    -- the merged range that has the start of `a` reaches back to the end of the request
    have hstart : Covers covered a.start := ⟨a, ha, le_rfl, hproper a ha⟩
    obtain ⟨m, hm, hlo, hhi⟩ := (hcov _).mpr hstart
    have hm' := hnear m hm
    exact (hcov x).mp ⟨m, hm, by omega, by omega⟩

/-- **When the missing ranges are the uncovered intervals of the request.** -/
theorem calculate_missing_ranges_uncovered_iff (hreq : requested.start ≤ requested.end_)
    (hproper : Proper covered) (hmax : ∀ a ∈ covered, a.end_ < u64_max) :
    (∃ missing, calculate_missing_ranges requested covered = ok missing ∧
      Uncovered requested covered missing) ↔ NoIsland requested covered := by
  obtain ⟨hsep, hprop, hcov, hends⟩ := merge_ranges_spec hproper hmax
  have hloop : calculate_missing_ranges requested covered =
      ok (gaps requested.end_ requested.start (merge_ranges covered)) := by
    unfold calculate_missing_ranges
    split
    case isTrue hempty =>
      obtain rfl := List.isEmpty_iff.mp hempty
      rw [show merge_ranges [] = [] from rfl, gaps, if_pos hreq]
    case isFalse =>
      refine missing_loop_eq fun a ha => ?_
      obtain ⟨b, hb, heq⟩ := hends a ha
      exact heq ▸ hmax b hb
  rw [noIsland_iff hproper hmax, ← covers_gaps_exact_iff hsep hprop hreq, hloop]
  constructor
  · rintro ⟨missing, hmissing, h⟩ x
    rw [Outcome.ok.inj hmissing, hcov]
    exact h.exact x
  · intro h
    refine ⟨_, rfl, separated_gaps hprop, fun g hg => (start_le_of_mem_gaps hg).2, fun x => ?_⟩
    rw [← hcov]
    exact h x

/-- What `calculate_missing_ranges` returns when every covered range lies inside
the request: separated ranges over exactly the uncovered bytes of the request. -/
theorem calculate_missing_ranges_spec (hreq : requested.start ≤ requested.end_)
    (hproper : Proper covered) (hin : ∀ a ∈ covered, a.end_ ≤ requested.end_)
    (hmax : requested.end_ < u64_max) :
    ∃ missing, calculate_missing_ranges requested covered = ok missing ∧
      Separated 0 missing ∧ Proper missing ∧
      ∀ x, Covers missing x ↔ requested.Contains x ∧ ¬ Covers covered x := by
  have hisland : NoIsland requested covered := by
    intro a ha x hlt hle
    have hpa := hproper a ha
    have hae := hin a ha
    omega
  obtain ⟨missing, heq, h⟩ := (calculate_missing_ranges_uncovered_iff hreq hproper
    fun a ha => lt_of_le_of_lt (hin a ha) hmax).mpr hisland
  exact ⟨missing, heq, h.separated, h.proper, h.exact⟩

theorem consolidate_missing_ranges_eq :
    consolidate_missing_ranges missing max_gap_size =
      match sort_by_key Span.start missing with
      | [] => []
      | current :: rest => coalesce max_gap_size current rest := by
  unfold consolidate_missing_ranges
  split
  case isTrue hempty =>
    obtain rfl := List.isEmpty_iff.mp hempty
    rfl
  case isFalse =>
    split
    case isTrue hone =>
      obtain ⟨range, rfl⟩ := List.length_eq_one_iff.mp hone
      rfl
    case isFalse =>
      cases sort_by_key Span.start missing with
      | nil => rfl
      | cons current rest => exact consolidate_loop_eq

/-- What `consolidate_missing_ranges` returns on separated ranges: still separated
ranges, over at least the same bytes, that start at the missing bytes with more
than `max_gap_size` bytes of no miss before them and end where a missing range
ends. -/
theorem consolidate_missing_ranges_spec (hsep : Separated 0 missing) (hproper : Proper missing) :
    let consolidated := consolidate_missing_ranges missing max_gap_size
    Proper consolidated ∧ Separated 0 consolidated ∧
      (∀ p, (∃ f ∈ consolidated, f.start = p) ↔
        Covers missing p ∧ ∀ h, Covers missing h → h < p → h + max_gap_size + 1 < p) ∧
      ∀ f ∈ consolidated, ∃ a ∈ missing, a.end_ = f.end_ := by
  have hasc := hsep.ascending hproper
  have heq : ∀ current rest, missing = current :: rest →
      consolidate_missing_ranges missing max_gap_size = coalesce max_gap_size current rest := by
    rintro current rest rfl
    have hsort : sort_by_key Span.start (current :: rest) = current :: rest :=
      List.Pairwise.insertionSort_eq hasc
    rw [consolidate_missing_ranges_eq, hsort]
  cases missing with
  | nil =>
    refine ⟨hproper, List.Pairwise.nil, fun p => ?_, nofun⟩
    simp [consolidate_missing_ranges]
  | cons current rest =>
    rw [heq current rest rfl]
    refine ⟨coalesce_proper hproper, ?_, fun p => exists_start_coalesce_iff hasc hproper,
      fun f hf => (endpoints_of_mem_coalesce hf).2⟩
    refine (coalesce_separated hasc).imp fun {a b} hab => ?_
    omega

/-- What consolidating should give: ascending ranges more than `max_gap_size` bytes apart, every
missing range in one of them, nothing else in them but holes of at most `max_gap_size` bytes, and
no more of them than there were. -/
structure Consolidated (max_gap_size : ℕ) (missing consolidated : List RangeSpec) : Prop where
  ascending : Ascending consolidated
  separated : Separated max_gap_size consolidated
  around : ∀ a ∈ missing, ∃ f ∈ consolidated, f.start ≤ a.start ∧ a.end_ ≤ f.end_
  tight : ∀ x, Covers consolidated x → Covers missing x ∨
    ∃ g, Hole missing g ∧ g.Contains x ∧ g.end_ - g.start + 1 ≤ max_gap_size
  length_le : consolidated.length ≤ missing.length

/-- **Consolidation, of any list of ranges and with any gap.** Nothing is assumed of the list: it
may be unsorted, and its ranges may overlap, repeat or be inverted. -/
theorem consolidate_missing_ranges_consolidated (missing : List RangeSpec) (max_gap_size : ℕ) :
    Consolidated max_gap_size missing (consolidate_missing_ranges missing max_gap_size) := by
  have hperm := sort_by_key_perm Span.start missing
  have hasc : Ascending (sort_by_key Span.start missing) := sort_by_key_ascending _ missing
  rw [consolidate_missing_ranges_eq]
  cases hsort : sort_by_key Span.start missing with
  | nil =>
    obtain rfl := sort_by_key_eq_nil.mp hsort
    refine ⟨.nil, .nil, fun a ha => ?_, fun x hx => absurd hx (covers_nil x), le_rfl⟩
    cases ha
  | cons current rest =>
    rw [hsort] at hperm hasc
    refine ⟨coalesce_ascending hasc, coalesce_separated hasc, fun a ha => ?_, fun x hx => ?_, ?_⟩
    · exact exists_mem_coalesce_around hasc (hperm.mem_iff.mpr ha)
    · rw [← Covers.perm hperm]
      refine (covers_or_hole_of_covers_coalesce hx).imp id ?_
      rintro ⟨g, hg, hgx, hle⟩
      exact ⟨g, hg.perm hperm, hgx, hle⟩
    · rw [← hperm.length_eq]
      exact length_coalesce_le max_gap_size current rest

end HybridCache.RangeHandler
