/-
A partial hit end to end: plan what is missing, fetch it, merge.

The planner asks which bytes are covered. The merge asks whether each segment is followed, in the
order of their starts, by one that starts no later than a byte past its end; it never looks back at
an earlier segment that reaches further. The two agree only while no segment is swallowed by an
earlier one (`Stitched`).

A merge whose coverage check passes returns (`merge_loop_ok`); the check is a statement about the
sorted list of intervals; and for the intervals of a plan it reduces to the cached ranges, because
a fetched range is always followed by the cached one that bounds it.
-/
import HybridCache.RangeHandler.Merge
import HybridCache.RangeHandler.Plan

namespace HybridCache.RangeHandler

open Lib Lib.Outcome Lib.Span List

/-! ## The model -/

def fetch_in_full (obj : List UInt8) (ranges : List RangeSpec) : List (RangeSpec × List UInt8) :=
  ranges.map fun r => (r, object_bytes obj r.start r.end_)

/-- The partial-cache path of `forward_range`: the missing ranges, consolidated
with the configured gap threshold, are fetched and merged with the cached ones. -/
def plan_and_merge (load : Load) (obj : List UInt8) (requested : RangeSpec) (cached : List Range)
    (gap_threshold : ℕ) : Outcome ProxyError RangeMergeResult := do
  let missing ← calculate_missing_ranges requested (covered_ranges requested cached)
  merge_range_segments load requested cached
    (fetch_in_full obj (consolidate_missing_ranges missing gap_threshold))

/-! ## A merge that passes its coverage check returns -/

/-- A segment that can be read: not empty, inside its source, the source inside
the object, and a cached source loads. -/
def Readable (obj : List UInt8) (load : Load) (segment : RangeMergeSegment) : Prop :=
  segment.output_start ≤ segment.output_end ∧
  match segment.source with
  | .Cached range read_offset read_length =>
    range.start ≤ segment.output_start ∧ segment.output_end ≤ range.end_ ∧
      range.end_ < obj.length ∧ read_offset = segment.output_start - range.start ∧
      read_length = segment.output_end + 1 - segment.output_start ∧
      ∀ idx, ∃ ram_hit, load idx range = ok (object_bytes obj range.start range.end_, ram_hit)
  | .Fetched data range_spec =>
    range_spec.start ≤ segment.output_start ∧ segment.output_end ≤ range_spec.end_ ∧
      range_spec.end_ < obj.length ∧ data = object_bytes obj range_spec.start range_spec.end_

variable {segment : RangeMergeSegment} {obj : List UInt8} {load : Load}

theorem Readable.faithful (h : Readable obj load segment) : Faithful obj load segment := by
  obtain ⟨-, h⟩ := h
  unfold Faithful
  cases hsource : segment.source with
  | Cached range read_offset read_length =>
    rw [hsource] at h
    obtain ⟨hlo, hhi, -, -, hlen, hload⟩ := h
    refine ⟨hlo, hhi, hlen, fun idx data ram_hit hdata => ?_⟩
    obtain ⟨ram, hram⟩ := hload idx
    rw [hram, ok.injEq, Prod.mk.injEq] at hdata
    exact hdata.1.symm
  | Fetched data range_spec =>
    rw [hsource] at h
    exact ⟨h.1, h.2.1, h.2.2.2⟩

variable {hi idx n start : ℕ} {range : Range} {fetches : List RangeSpec}

theorem length_object_bytes {lo : ℕ} (hle : lo ≤ hi) (hlen : hi < obj.length) :
    (object_bytes obj lo hi).length = hi - lo + 1 := by
  rw [object_bytes, length_extract]
  omega

variable {st : MergeState}

/-- A covered stretch of the object can be copied out of a cached range. -/
theorem merge_cached_ok {label : String} (hobj : obj.length ≤ u64_max)
    (hend : range.end_ < obj.length)
    (hcov : range.start ≤ start ∧ start ≤ segment.output_end ∧ segment.output_end ≤ range.end_)
    (hload : ∀ idx, ∃ ram_hit, load idx range =
      ok (object_bytes obj range.start range.end_, ram_hit))
    (hcount : st.bytes_from_cache + n ≤ u64_max) :
    ∃ st', merge_cached load idx segment range start n label st = ok st' := by
  obtain ⟨ram_hit, hram⟩ := hload idx
  have hlen : (object_bytes obj range.start range.end_).length = _ :=
    length_object_bytes (by omega) hend
  simp only [merge_cached, bind_eq_ok, guard_eq_ok, u64_add_eq_ok, inclusive_len_eq_ok]
  refine ⟨_, _, extract_bytes_from_cached_range_ok hram hlen (by omega) hcov, _,
    ⟨hcov.2.1, by omega, rfl⟩, ?_, _, ⟨hcount, rfl⟩, _, ⟨by omega, rfl⟩, rfl⟩
  simp only [length_extract, hlen]
  omega

/-- Nor does the data of an answered fetch fall short. -/
theorem merge_fetched_ok {spec : RangeSpec} (hobj : obj.length ≤ u64_max)
    (hend : spec.end_ < obj.length) (hle : spec.start ≤ spec.end_)
    (hcov : spec.start ≤ start ∧ start + n ≤ spec.end_ + 1)
    (hmax : segment.output_end < u64_max) (hcount : st.bytes_from_s3 + n ≤ u64_max) :
    ∃ st', merge_fetched segment (object_bytes obj spec.start spec.end_) spec start n st =
      ok st' := by
  have hdata : (object_bytes obj spec.start spec.end_).length = _ := length_object_bytes hle hend
  simp only [merge_fetched, bind_eq_ok, guard_eq_ok, u64_add_eq_ok, u64_sub_eq_ok]
  exact ⟨_, _, ⟨hcov.1, rfl⟩, _, ⟨by omega, rfl⟩, by omega, _, ⟨hcount, rfl⟩, _,
    ⟨by omega, rfl⟩, rfl⟩

theorem Readable.end_lt (h : Readable obj load segment) : segment.output_end < obj.length := by
  obtain ⟨-, h⟩ := h
  cases hs : segment.source with
  | Cached range read_offset read_length | Fetched data range_spec => rw [hs] at h; omega

theorem merge_segment_ok (hobj : obj.length ≤ u64_max) (hread : Readable obj load segment)
    (hinv : MergeInv obj start st) (hgap : segment.output_start ≤ st.current_position)
    (hpos : st.current_position ≤ obj.length) :
    ∃ st', merge_segment load idx segment st = ok st' := by
  have hmax := hread.end_lt
  obtain ⟨hle, hsource⟩ := hread
  have hlength := hinv.length
  have hcounts := hinv.counts
  have hskip : segment.output_start < st.current_position →
      (u64_sub st.current_position segment.output_start : Outcome ProxyError ℕ) =
        ok (st.current_position - segment.output_start) := fun h => u64_sub_of_le h.le
  have hlen : (inclusive_len segment.output_start segment.output_end : Outcome ProxyError ℕ) =
      ok (segment.output_end - segment.output_start + 1) :=
    inclusive_len_eq_ok.mpr ⟨hle, by omega, rfl⟩
  unfold merge_segment
  split
  case isTrue hlt =>
    rw [hskip hlt, bind_ok, hlen, bind_ok]
    split
    case isTrue hcovered => exact ⟨st, rfl⟩
    case isFalse hpart =>
      rw [inclusive_len_eq_ok.mpr ⟨by omega, by omega, rfl⟩, bind_ok]
      cases hs : segment.source with
      | Cached range read_offset read_length =>
        rw [hs] at hsource
        obtain ⟨hlo, hhi, hend, hoff, hrl, hload⟩ := hsource
        dsimp only
        rw [u64_add_of_le (by omega), bind_ok, u64_sub_of_le (by omega), bind_ok]
        exact merge_cached_ok hobj hend ⟨hlo.trans hgap, by omega, hhi⟩ hload (by omega)
      | Fetched data range_spec =>
        rw [hs] at hsource
        obtain ⟨hlo, hhi, hend, rfl⟩ := hsource
        exact merge_fetched_ok hobj hend (by omega) (by omega) (by omega) (by omega)
  case isFalse hge =>
    cases hs : segment.source with
    | Cached range read_offset read_length =>
      rw [hs] at hsource
      obtain ⟨hlo, hhi, hend, hoff, hrl, hload⟩ := hsource
      exact merge_cached_ok hobj hend ⟨hlo, hle, hhi⟩ hload (by omega)
    | Fetched data range_spec =>
      rw [hs] at hsource
      obtain ⟨hlo, hhi, hend, rfl⟩ := hsource
      dsimp only
      rw [hlen, bind_ok]
      exact merge_fetched_ok hobj hend (by omega) (by omega) (by omega) (by omega)

variable {segments : List RangeMergeSegment}

theorem merge_loop_ok (idx : ℕ) (hobj : obj.length ≤ u64_max)
    (hread : ∀ s ∈ segments, Readable obj load s) (hinv : MergeInv obj start st)
    (hhead : ∀ s ∈ segments.head?, s.output_start ≤ st.current_position) (hgaps : NoGaps segments)
    (hhi : hi < obj.length) (hends : ∀ s ∈ segments, s.output_end ≤ hi)
    (hpos : st.current_position ≤ hi + 1) :
    ∃ st', merge_loop load idx segments st = ok st' ∧ st'.current_position ≤ hi + 1 ∧
      st.current_position ≤ st'.current_position ∧
      ∀ s ∈ segments, s.output_end < st'.current_position := by
  induction segments generalizing idx st with
  | nil => exact ⟨st, rfl, hpos, le_rfl, nofun⟩
  | cons segment rest ih =>
    have hseg := hread segment mem_cons_self
    have hstart := hhead segment rfl
    have hend := hends segment mem_cons_self
    obtain ⟨st₁, hstep⟩ := merge_segment_ok hobj hseg hinv hstart (by omega)
    have hcursor := merge_segment_cursor hstep
    obtain ⟨st', hloop, hle, hge, hall⟩ := ih (idx + 1)
      (fun s hs => hread s (mem_cons_of_mem _ hs))
      (merge_segment_inv hseg.faithful hinv hstart hstep)
      (fun s hs => by have := hgaps.rel_head? hs; omega) hgaps.tail
      (fun s hs => hends s (mem_cons_of_mem _ hs)) (by omega)
    refine ⟨st', by rw [merge_loop, hstep, bind_ok]; exact hloop, hle, by omega, fun s hs => ?_⟩
    rcases mem_cons.mp hs with rfl | hs
    · omega
    · exact hall s hs

variable {requested : RangeSpec} {cached : List Range}

/-- **The coverage check decides.** Over readable segments inside the request, a
merge returns exactly when its coverage check passes. -/
theorem merge_range_segments_ok_iff {fetched : List (RangeSpec × List UInt8)}
    (hobj : obj.length ≤ u64_max)
    (hreq : requested.start ≤ requested.end_ ∧ requested.end_ < obj.length)
    (hplan : merge_plan requested cached fetched = ok segments)
    (hread : ∀ s ∈ segments, Readable obj load s)
    (hends : ∀ s ∈ segments, s.output_end ≤ requested.end_) :
    (∃ res, merge_range_segments load requested cached fetched = ok res) ↔
      check_coverage requested segments = ok () := by
  constructor
  · rintro ⟨res, h⟩
    simp only [merge_range_segments, bind_eq_ok] at h
    obtain ⟨_, -, segments', hplan', _, hcheck, -⟩ := h
    rw [hplan, ok.injEq] at hplan'
    exact hplan' ▸ hcheck
  · intro hcheck
    obtain ⟨hne, hfirst, hgaps, hlast⟩ := check_coverage_eq_ok hcheck
    have hinit : MergeInv obj requested.start ⟨[], 0, 0, requested.start, true⟩ :=
      ⟨le_rfl, extract_self.symm, by simp, rfl⟩
    obtain ⟨st, hloop, hle, -, hall⟩ := merge_loop_ok 0 hobj hread hinit
      (fun s hs => (hfirst s hs).le) hgaps hreq.2 hends (by dsimp only; omega)
    have hinv := merge_loop_inv (fun s hs => (hread s hs).faithful) hinit
      (fun s hs => (hfirst s hs).le) hgaps hloop
    have hlength := hinv.length
    have hcounts := hinv.counts
    have hend : requested.end_ < st.current_position := by
      rw [← hlast _ (List.getLast?_eq_some_getLast hne)]
      exact hall _ (getLast_mem hne)
    simp only [merge_range_segments, bind_eq_ok, guard_eq_ok, inclusive_len_eq_ok, u64_add_eq_ok]
    exact ⟨_, _, ⟨hreq.1, by omega, rfl⟩, segments, hplan, (), hcheck, st, hloop, by omega, _,
      ⟨by omega, rfl⟩, rfl⟩

/-! ## The plan as a list of intervals -/

def RangeMergeSegment.extent (segment : RangeMergeSegment) : Span :=
  ⟨segment.output_start, segment.output_end⟩

open RangeMergeSegment

theorem check_coverage_iff_extents (hmax : ∀ s ∈ segments, s.output_end < u64_max) :
    check_coverage requested segments = ok () ↔
      segments ≠ [] ∧
      (∀ a ∈ (segments.map extent).head?, a.start = requested.start) ∧
      (segments.map extent).IsChain (fun a b => b.start ≤ a.end_ + 1) ∧
      ∀ a ∈ (segments.map extent).getLast?, a.end_ = requested.end_ := by
  rw [check_coverage_iff hmax, isChain_map, List.head?_map, List.getLast?_map]
  simp only [Option.mem_def, Option.map_eq_some_iff, forall_exists_index, and_imp,
    forall_apply_eq_imp_iff₂]
  rfl

theorem cached_segments_ok (hreq : requested.start ≤ requested.end_)
    (hmax : requested.end_ < u64_max) (hcached : ∀ c ∈ cached, c.start ≤ c.end_) :
    cached_segments requested cached =
      ok ((overlapping requested cached).map (cached_segment requested)) := by
  suffices h : ∃ segments, cached_segments requested cached = ok segments by
    obtain ⟨segments, h⟩ := h
    rw [h, cached_segments_eq_ok h]
  induction cached with
  | nil => exact ⟨[], rfl⟩
  | cons c rest ih =>
    have hc := hcached c mem_cons_self
    obtain ⟨segments, hrest⟩ := ih fun d hd => hcached d (mem_cons_of_mem _ hd)
    rw [cached_segments]
    cases hov : calculate_overlap c.start c.end_ requested.start requested.end_ with
    | none => exact ⟨segments, hrest⟩
    | some p =>
      obtain ⟨hlo, hhi, rfl⟩ := calculate_overlap_eq_some.mp hov
      simp only [bind_eq_ok, u64_sub_eq_ok, inclusive_len_eq_ok]
      exact ⟨_, _, ⟨le_max_left _ _, rfl⟩, _, ⟨by omega, by omega, rfl⟩, segments, hrest, rfl⟩

/-! ## When planning and merging agree -/

/-- **The exact condition.** Every covered range that ends before the request does
either is followed, in the order of the starts (and of the list, among equal
starts), by a covered range that starts no later than a byte past its end, or is
followed by a fetch: the next byte is missing, and the missing bytes before it
are too far back for the consolidation to have joined it to them. -/
def Stitched (requested : RangeSpec) (covered : List RangeSpec) (gap_threshold : ℕ) : Prop :=
  ∀ i : Fin covered.length, (covered.get i).end_ < requested.end_ →
    (∃ j : Fin covered.length,
      ((covered.get i).start < (covered.get j).start ∨
        ((covered.get i).start = (covered.get j).start ∧ i < j)) ∧
      (covered.get j).start ≤ (covered.get i).end_ + 1) ∨
    (¬ Covers covered ((covered.get i).end_ + 1) ∧
      ∀ h ≤ (covered.get i).end_, requested.start ≤ h → ¬ Covers covered h →
        gap_threshold < (covered.get i).end_ - h)

instance (requested : RangeSpec) (covered : List RangeSpec) (gap_threshold : ℕ) :
    Decidable (Stitched requested covered gap_threshold) :=
  inferInstanceAs (Decidable (∀ _ : Fin covered.length, _))

/-- What the merge needs to know of the covered and the fetched ranges of a plan. -/
structure PlanFacts (requested : RangeSpec) (covered fetched : List RangeSpec)
    (gap_threshold : ℕ) : Prop where
  covered_proper : Proper covered
  covered_in : ∀ c ∈ covered, requested.start ≤ c.start ∧ c.end_ ≤ requested.end_
  fetched_proper : Proper fetched
  fetched_start : ∀ p, (∃ f ∈ fetched, f.start = p) ↔
    (requested.Contains p ∧ ¬ Covers covered p) ∧
      ∀ h, requested.Contains h ∧ ¬ Covers covered h → h < p → h + gap_threshold + 1 < p
  fetched_end : ∀ f ∈ fetched, requested.Contains f.end_ ∧ ¬ Covers covered f.end_ ∧
    (f.end_ < requested.end_ → Covers covered (f.end_ + 1))

variable {covered fetched : List RangeSpec} {gap_threshold : ℕ}

theorem PlanFacts.exists_first (h : PlanFacts requested covered fetched gap_threshold)
    (hreq : requested.start ≤ requested.end_) :
    ∃ a ∈ covered ++ fetched, a.start = requested.start := by
  by_cases hcov : Covers covered requested.start
  · obtain ⟨c, hc, hlo, -⟩ := hcov
    have hge := (h.covered_in c hc).1
    exact ⟨c, mem_append_left _ hc, by omega⟩
  · obtain ⟨f, hf, hstart⟩ := (h.fetched_start requested.start).mpr
      ⟨⟨⟨le_rfl, hreq⟩, hcov⟩, fun h hh hlt => absurd hh.1.1 (by omega)⟩
    exact ⟨f, mem_append_right _ hf, hstart⟩

theorem PlanFacts.followed_iff (h : PlanFacts requested covered fetched gap_threshold) :
    (∀ (i : ℕ) (a : Span), (covered ++ fetched)[i]? = some a → a.end_ < requested.end_ →
      ∃ (j : ℕ) (b : Span), (covered ++ fetched)[j]? = some b ∧
        (a.start < b.start ∨ (a.start = b.start ∧ i < j)) ∧ b.start ≤ a.end_ + 1) ↔
      Stitched requested covered gap_threshold := by
  have hfetch : ∀ c ∈ covered, c.end_ < requested.end_ →
      ((∃ f ∈ fetched, f.start = c.end_ + 1) ↔ ¬ Covers covered (c.end_ + 1) ∧
        ∀ h ≤ c.end_, requested.start ≤ h → ¬ Covers covered h → gap_threshold < c.end_ - h) := by
    intro c hc hlt
    have hcp := h.covered_proper c hc
    have hcin := h.covered_in c hc
    rw [h.fetched_start]
    constructor
    · rintro ⟨⟨-, hun⟩, hfar⟩
      refine ⟨hun, fun x hx hlo hxun => ?_⟩
      have := hfar x ⟨⟨hlo, by omega⟩, hxun⟩ (by omega)
      omega
    · rintro ⟨hun, hfar⟩
      refine ⟨⟨⟨by omega, by omega⟩, hun⟩, fun x hx hlt' => ?_⟩
      have := hfar x (by omega) hx.1.1 hx.2
      omega
  constructor
  · intro hall i hlt
    have hi : (covered ++ fetched)[i.val]? = some (covered.get i) := by
      rw [List.getElem?_append_left i.isLt, List.getElem?_eq_getElem i.isLt]
      rfl
    obtain ⟨j, b, hj, hafter, hstart⟩ := hall i (covered.get i) hi hlt
    by_cases hjc : j < covered.length
    · rw [List.getElem?_append_left hjc, List.getElem?_eq_getElem hjc, Option.some.injEq] at hj
      subst hj
      exact Or.inl ⟨⟨j, hjc⟩, hafter, hstart⟩
    · right
      rw [List.getElem?_append_right (by omega)] at hj
      have hf : b ∈ fetched := mem_of_getElem? hj
      have hc : covered.get i ∈ covered := List.get_mem _ _
      -- the start of a fetch is not covered, so it lies past the end of the covered range
      have hun := ((h.fetched_start b.start).mp ⟨b, hf, rfl⟩).1.2
      have hpast : ¬ b.start ≤ (covered.get i).end_ := fun hle =>
        hun ⟨covered.get i, hc, by rcases hafter with hlt | ⟨heq, -⟩ <;> omega, hle⟩
      exact (hfetch _ hc hlt).mp ⟨b, hf, by omega⟩
  · intro hst i a hi hlt
    by_cases hic : i < covered.length
    · rw [List.getElem?_append_left hic, List.getElem?_eq_getElem hic, Option.some.injEq] at hi
      subst hi
      rcases hst ⟨i, hic⟩ hlt with ⟨j, hafter, hstart⟩ | hnext
      · refine ⟨j, covered.get j, ?_, hafter, hstart⟩
        rw [List.getElem?_append_left j.isLt, List.getElem?_eq_getElem j.isLt]
        rfl
      · have hc : covered[i] ∈ covered := getElem_mem _
        have hcp := h.covered_proper _ hc
        obtain ⟨f, hf, hfs⟩ := (hfetch _ hc hlt).mpr hnext
        obtain ⟨j, hj⟩ := List.getElem?_of_mem (mem_append_right covered hf)
        exact ⟨j, f, hj, Or.inl (by omega), hfs.le⟩
    · rw [List.getElem?_append_right (by omega)] at hi
      have hf : a ∈ fetched := mem_of_getElem? hi
      have hap := h.fetched_proper a hf
      obtain ⟨-, hun, hnext⟩ := h.fetched_end a hf
      obtain ⟨c, hc, hlo, hhi⟩ := hnext hlt
      -- the end of a fetch is not covered, so the covered range starts right after it
      have hcs : ¬ c.start ≤ a.end_ := fun hle => hun ⟨c, hc, hle, by omega⟩
      obtain ⟨j, hj⟩ := List.getElem?_of_mem (mem_append_left fetched hc)
      exact ⟨j, c, hj, Or.inl (by omega), by omega⟩

/-! ## The plan of a request -/

theorem covered_ranges_in (hreq : requested.start ≤ requested.end_)
    (hcached : ∀ c ∈ cached, c.start ≤ c.end_) :
    Proper (covered_ranges requested cached) ∧
      ∀ a ∈ covered_ranges requested cached,
        requested.start ≤ a.start ∧ a.end_ ≤ requested.end_ := by
  constructor
  · intro a ha
    obtain ⟨c, hc, rfl⟩ := List.mem_map.mp ha
    have hle := hcached c (mem_of_mem_filter hc)
    have hov := of_mem_filter hc
    simp only [decide_eq_true_eq] at hov
    dsimp only
    omega
  · intro a ha
    obtain ⟨c, -, rfl⟩ := List.mem_map.mp ha
    exact ⟨le_max_left _ _, min_le_left _ _⟩

theorem plan_facts {covered missing : List RangeSpec} (gap_threshold : ℕ) (hproper : Proper covered)
    (hin : ∀ c ∈ covered, requested.start ≤ c.start ∧ c.end_ ≤ requested.end_)
    (hsep : Separated 0 missing) (hmissing : Proper missing)
    (hcov : ∀ x, Covers missing x ↔ requested.Contains x ∧ ¬ Covers covered x) :
    PlanFacts requested covered (consolidate_missing_ranges missing gap_threshold)
      gap_threshold := by
  obtain ⟨hfp, -, hstart, hend⟩ := consolidate_missing_ranges_spec hsep hmissing
  refine ⟨hproper, hin, hfp, fun p => ?_, fun f hf => ?_⟩
  · rw [hstart, hcov]
    simp only [hcov]
  · obtain ⟨a, ha, hae⟩ := hend f hf
    have hap := hmissing a ha
    obtain ⟨hreq, hun⟩ := (hcov f.end_).mp ⟨a, ha, by omega, by omega⟩
    refine ⟨hreq, hun, fun hlt => ?_⟩
    -- the byte after a missing range is not missing, since missing ranges are apart
    by_contra hnext
    obtain ⟨b, hb, hlo, hhi⟩ := (hcov (f.end_ + 1)).mpr ⟨⟨by have := hreq.1; omega, hlt⟩, hnext⟩
    rcases hsep.trichotomy ha hb with rfl | hbefore | hafter <;> omega

theorem fetched_segments_in_full {ranges : List RangeSpec} (hproper : Proper ranges)
    (hin : ∀ f ∈ ranges, requested.start ≤ f.start ∧ f.end_ ≤ requested.end_) :
    fetched_segments requested (fetch_in_full obj ranges) =
      ranges.map fun r => ⟨r.start, r.end_, .Fetched (object_bytes obj r.start r.end_) r⟩ := by
  induction ranges with
  | nil => rfl
  | cons r rest ih =>
    have hr := hproper r mem_cons_self
    have hrin := hin r mem_cons_self
    have hov : calculate_overlap r.start r.end_ requested.start requested.end_ =
        some (r.start, r.end_) := by
      rw [calculate_overlap_eq_some]
      refine ⟨by omega, by omega, ?_⟩
      rw [Prod.mk.injEq]
      omega
    have ih := ih (fun a ha => hproper a (mem_cons_of_mem _ ha))
      (fun a ha => hin a (mem_cons_of_mem _ ha))
    simp only [fetched_segments, fetch_in_full] at ih ⊢
    rw [map_cons, filterMap_cons, map_cons, ih]
    simp only [hov, Option.map_some]

/-- The segments of a plan, before they are sorted. -/
def plan_segments (obj : List UInt8) (requested : RangeSpec) (cached : List Range)
    (fetches : List RangeSpec) : List RangeMergeSegment :=
  (overlapping requested cached).map (cached_segment requested) ++
    fetches.map fun r => ⟨r.start, r.end_, .Fetched (object_bytes obj r.start r.end_) r⟩

theorem plan_segments_extents (obj : List UInt8) (requested : RangeSpec) (cached : List Range)
    (fetches : List RangeSpec) :
    (plan_segments obj requested cached fetches).map extent =
      covered_ranges requested cached ++ fetches := by
  simp only [plan_segments, map_append, List.map_map, covered_ranges]
  congr 1
  · refine map_congr_left fun c _ => ?_
    simp only [Function.comp_apply, cached_segment, extent, max_comm c.start, min_comm c.end_]
  · exact List.map_id' _

theorem plan_segments_readable
    (hreq : requested.start ≤ requested.end_ ∧ requested.end_ < obj.length)
    (hcached : ∀ c ∈ cached, c.start ≤ c.end_ ∧ c.end_ < obj.length ∧
      ∀ idx, ∃ ram_hit, load idx c = ok (object_bytes obj c.start c.end_, ram_hit))
    (hproper : Proper fetches) (hin : ∀ f ∈ fetches, f.end_ ≤ requested.end_) :
    ∀ s ∈ plan_segments obj requested cached fetches, Readable obj load s := by
  intro s hs
  rcases mem_append.mp hs with hs | hs
  · obtain ⟨c, hc, rfl⟩ := List.mem_map.mp hs
    obtain ⟨hle, hend, hload⟩ := hcached c (mem_of_mem_filter hc)
    have hov := of_mem_filter hc
    simp only [decide_eq_true_eq] at hov
    exact ⟨by simp only [cached_segment]; omega, le_max_left _ _, min_le_left _ _, hend, rfl, rfl,
      hload⟩
  · obtain ⟨f, hf, rfl⟩ := List.mem_map.mp hs
    have hle := hin f hf
    exact ⟨hproper f hf, le_rfl, le_rfl, by omega, rfl⟩

theorem PlanFacts.check_coverage_iff_stitched
    (h : PlanFacts requested covered fetched gap_threshold)
    (hreq : requested.start ≤ requested.end_) (hmax : requested.end_ < u64_max)
    (hext : segments.map extent = covered ++ fetched) :
    check_coverage requested (sort_by_key output_start segments) = ok () ↔
      Stitched requested covered gap_threshold := by
  have hbounds : ∀ a ∈ covered ++ fetched,
      requested.start ≤ a.start ∧ a.start ≤ a.end_ ∧ a.end_ ≤ requested.end_ := by
    intro a ha
    rcases mem_append.mp ha with ha | ha
    · exact ⟨(h.covered_in a ha).1, h.covered_proper a ha, (h.covered_in a ha).2⟩
    · exact ⟨((h.fetched_start a.start).mp ⟨a, ha, rfl⟩).1.1.1, h.fetched_proper a ha,
        (h.fetched_end a ha).1.2⟩
  have hends : ∀ s ∈ sort_by_key output_start segments,
      s.output_end < u64_max := by
    intro s hs
    have hmem : s.extent ∈ covered ++ fetched := hext ▸ List.mem_map_of_mem (mem_sort_by_key.mp hs)
    exact lt_of_le_of_lt (hbounds _ hmem).2.2 hmax
  have hasc : Ascending (sort_by_key Span.start (covered ++ fetched)) := sort_by_key_ascending _ _
  obtain ⟨first, hfirst, hstart⟩ := h.exists_first hreq
  have hsort : (sort_by_key output_start segments).map extent =
      sort_by_key Span.start (covered ++ fetched) := by
    rw [← hext]
    have hkey : ∀ s : RangeMergeSegment, s.extent.start = s.output_start := fun _ => rfl
    exact map_sort_by_key hkey segments
  rw [check_coverage_iff_extents hends, hsort,
    chain_iff_followed hasc (fun a ha => (hbounds a (mem_sort_by_key.mp ha)).2.1)
      (fun a ha => (hbounds a (mem_sort_by_key.mp ha)).2.2),
    sort_by_key_followed_iff (P := fun a : Span => a.end_ < requested.end_)
      (Q := fun a b : Span => b.start ≤ a.end_ + 1), h.followed_iff]
  -- the list is not empty, and the least start is that of the request
  refine ⟨fun hall => hall.2.2, fun hst => ⟨?_, ?_, hst⟩⟩
  · rw [Ne, sort_by_key_eq_nil]
    rintro rfl
    rw [← hext] at hfirst
    cases hfirst
  · intro a ha
    have hmem := mem_sort_by_key.mp (mem_of_mem_head? ha)
    have hlo := (hbounds a hmem).1
    have hle := hasc.head_start_le ha (mem_sort_by_key.mpr hfirst)
    omega

/-- **When planning and merging agree.** For every request inside the object, every
list of cached ranges that load as the object's bytes, and every gap threshold:
fetching what the plan asks for and merging it with the cached ranges returns
exactly when the covered ranges are stitched together. -/
theorem plan_and_merge_returns_iff (obj : List UInt8) (load : Load) (requested : RangeSpec)
    (cached : List Range) (gap_threshold : ℕ) (hobj : obj.length ≤ u64_max)
    (hreq : requested.start ≤ requested.end_ ∧ requested.end_ < obj.length)
    (hcached : ∀ c ∈ cached, c.start ≤ c.end_ ∧ c.end_ < obj.length ∧
      ∀ idx, ∃ ram_hit, load idx c = ok (object_bytes obj c.start c.end_, ram_hit)) :
    (∃ res, plan_and_merge load obj requested cached gap_threshold = ok res) ↔
      Stitched requested (covered_ranges requested cached) gap_threshold := by
  have hproper := fun c hc => (hcached c hc).1
  obtain ⟨hcp, hcin⟩ := covered_ranges_in hreq.1 hproper
  obtain ⟨missing, hmissing, hsep, hmp, hcov⟩ := calculate_missing_ranges_spec hreq.1 hcp
    (fun a ha => (hcin a ha).2) (by omega)
  have hfacts := plan_facts gap_threshold hcp hcin hsep hmp hcov
  set fetches := consolidate_missing_ranges missing gap_threshold with hfetches
  have hfin : ∀ f ∈ fetches, requested.start ≤ f.start ∧ f.end_ ≤ requested.end_ := fun f hf =>
    ⟨((hfacts.fetched_start f.start).mp ⟨f, hf, rfl⟩).1.1.1, (hfacts.fetched_end f hf).1.2⟩
  have hplan : merge_plan requested cached (fetch_in_full obj fetches) =
      ok (sort_by_key output_start
        (plan_segments obj requested cached fetches)) := by
    rw [merge_plan, cached_segments_ok hreq.1 (by omega) hproper, bind_ok,
      fetched_segments_in_full hfacts.fetched_proper hfin]
    rfl
  have hext := plan_segments_extents obj requested cached fetches
  have hread := plan_segments_readable hreq hcached hfacts.fetched_proper fun f hf => (hfin f hf).2
  have hends : ∀ s ∈ plan_segments obj requested cached fetches,
      s.output_end ≤ requested.end_ := by
    intro s hs
    have hmem : s.extent ∈ covered_ranges requested cached ++ fetches :=
      hext ▸ List.mem_map_of_mem hs
    rcases mem_append.mp hmem with hmem | hmem
    · exact (hcin _ hmem).2
    · exact (hfin _ hmem).2
  rw [plan_and_merge, hmissing, bind_ok, merge_range_segments_ok_iff hobj hreq hplan
    (fun s hs => hread s (mem_sort_by_key.mp hs)) (fun s hs => hends s (mem_sort_by_key.mp hs))]
  exact hfacts.check_coverage_iff_stitched hreq.1 (by omega) hext

/-- Two cached ranges either side of what is missing, near enough for the two
missing ranges to be fetched as one: the fetch swallows the second cached range,
the merge sees that one last, and reports a gap at the end of a request every
byte of which it holds. A third cached range nested in the first has the same
effect with nothing missing at all. -/
theorem plan_and_merge_reports_gap_for_covered_request :
    plan_and_merge (fun _ c => ok (object_bytes (List.replicate 20 7) c.start c.end_, true))
        (List.replicate 20 7) ⟨0, 19⟩ [⟨0, 4⟩, ⟨10, 14⟩] 5 =
      err (.CacheError "Gap at end: last segment ends at 14, requested ends at 19") ∧
    plan_and_merge (fun _ c => ok (object_bytes (List.replicate 20 7) c.start c.end_, true))
        (List.replicate 20 7) ⟨0, 19⟩ [⟨0, 14⟩, ⟨5, 9⟩, ⟨15, 19⟩] 0 =
      err (.CacheError ("Gap detected between segments: segment 1 ends at 9, " ++
        "segment 2 starts at 15")) := by
  decide

/-- The same request with a smaller gap threshold is stitched, and is served. -/
theorem plan_and_merge_returns_with_small_gap :
    ∃ res, plan_and_merge
      (fun _ c => ok (object_bytes (List.replicate 20 7) c.start c.end_, true))
      (List.replicate 20 7) ⟨0, 19⟩ [⟨0, 4⟩, ⟨10, 14⟩] 4 = ok res :=
  (plan_and_merge_returns_iff (List.replicate 20 7)
    (fun _ c => ok (object_bytes (List.replicate 20 7) c.start c.end_, true))
    ⟨0, 19⟩ [⟨0, 4⟩, ⟨10, 14⟩] 4 (by decide) (by decide)
    (fun c hc => by
      refine ⟨?_, ?_, fun _ => ⟨true, rfl⟩⟩ <;> revert c hc <;> decide)).mpr (by decide)

end HybridCache.RangeHandler
