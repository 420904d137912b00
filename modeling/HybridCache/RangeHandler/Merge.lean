/-
`RangeHandler::merge_range_segments`: assembling a response from cached and fetched ranges.

The segments are sorted by output position, neighbours are checked to leave no gap, and each is
copied without what an earlier one has already written. The loop keeps one invariant (`MergeInv`):
the output is the object's bytes from the start of the request up to the cursor, and the two byte
counts add up to its length.
-/
import HybridCache.Lib.SortByKey
import HybridCache.RangeHandler.Spec

namespace HybridCache.RangeHandler

open Lib Lib.Outcome List

/-! ## The model -/

inductive RangeMergeSource where
  | Cached (range : Range) (read_offset read_length : ℕ)
  | Fetched (data : List UInt8) (range_spec : RangeSpec)
deriving DecidableEq, Repr

structure RangeMergeSegment where
  output_start : ℕ
  output_end : ℕ
  source : RangeMergeSource
deriving DecidableEq, Repr

structure RangeMergeResult where
  data : List UInt8
  bytes_from_cache : ℕ
  bytes_from_s3 : ℕ
  segments_merged : ℕ
  ram_hit : Bool
deriving DecidableEq, Repr

def cached_segments (requested : RangeSpec) :
    List Range → Outcome ProxyError (List RangeMergeSegment)
  | [] => ok []
  | c :: rest =>
    match calculate_overlap c.start c.end_ requested.start requested.end_ with
    | none => cached_segments requested rest
    | some (overlap_start, overlap_end) => do
      let read_offset ← u64_sub overlap_start c.start
      let read_length ← inclusive_len overlap_start overlap_end
      let segments ← cached_segments requested rest
      ok (⟨overlap_start, overlap_end, .Cached c read_offset read_length⟩ :: segments)

def fetched_segments (requested : RangeSpec) (fetched : List (RangeSpec × List UInt8)) :
    List RangeMergeSegment :=
  fetched.filterMap fun (range_spec, data) =>
    (calculate_overlap range_spec.start range_spec.end_ requested.start requested.end_).map
      fun (overlap_start, overlap_end) => ⟨overlap_start, overlap_end, .Fetched data range_spec⟩

/-- The loop over neighbouring segments that looks for gaps. -/
def check_gaps (i : ℕ) : List RangeMergeSegment → Outcome ProxyError Unit
  | a :: b :: rest => do
    let current_end := a.output_end
    let next_start := b.output_start
    let limit ← u64_add current_end 1
    if next_start > limit then
      let j := i + 1
      err (.CacheError (s!"Gap detected between segments: segment {i} ends at {current_end}, " ++
        s!"segment {j} starts at {next_start}"))
    else
      check_gaps (i + 1) (b :: rest)
  | _ => ok ()

def check_coverage (requested : RangeSpec) (segments : List RangeMergeSegment) :
    Outcome ProxyError Unit :=
  match segments with
  | [] => err (.CacheError "No segments available for merge")
  | first :: rest => do
    let first_start := first.output_start
    let requested_start := requested.start
    if first_start ≠ requested_start then
      err (.CacheError (s!"Gap at start: first segment starts at {first_start}, " ++
        s!"requested starts at {requested_start}"))
    else
      check_gaps 0 segments
      let last_end := ((first :: rest).getLast (cons_ne_nil _ _)).output_end
      let requested_end := requested.end_
      if last_end ≠ requested_end then
        err (.CacheError (s!"Gap at end: last segment ends at {last_end}, " ++
          s!"requested ends at {requested_end}"))
      else
        ok ()

structure MergeState where
  output : List UInt8
  bytes_from_cache : ℕ
  bytes_from_s3 : ℕ
  current_position : ℕ
  all_ram_hits : Bool
deriving DecidableEq, Repr

/-- Copy `start..=segment.output_end` of a cached range, `read_length` bytes,
to the output. -/
def merge_cached (load : Load) (idx : ℕ) (segment : RangeMergeSegment) (range : Range)
    (start read_length : ℕ) (label : String) (st : MergeState) : Outcome ProxyError MergeState := do
  let (bytes, ram_hit) ← extract_bytes_from_cached_range load idx range start segment.output_end
  let expected_bytes ← inclusive_len start segment.output_end
  let got := bytes.length
  if got ≠ expected_bytes then
    err (.CacheError
      (label ++ s!" size mismatch: expected {expected_bytes} bytes, got {got} bytes"))
  else
    let bytes_from_cache ← u64_add st.bytes_from_cache read_length
    let current_position ← u64_add segment.output_end 1
    ok { st with
      output := st.output ++ bytes
      bytes_from_cache := bytes_from_cache
      current_position := current_position
      all_ram_hits := st.all_ram_hits && ram_hit }

/-- Copy `length` bytes of a fetched range, from `start` on, to the output. -/
def merge_fetched (segment : RangeMergeSegment) (data : List UInt8) (range_spec : RangeSpec)
    (start length : ℕ) (st : MergeState) : Outcome ProxyError MergeState := do
  let data_offset ← u64_sub start range_spec.start
  let data_end ← u64_add data_offset length
  let data_len := data.length
  if data_end > data_len then
    err (.CacheError
      s!"Fetched data bounds error: offset={data_offset}, end={data_end}, data_len={data_len}")
  else
    let bytes_from_s3 ← u64_add st.bytes_from_s3 length
    let current_position ← u64_add segment.output_end 1
    ok { st with
      output := st.output ++ data.extract data_offset data_end
      bytes_from_s3 := bytes_from_s3
      current_position := current_position }

def merge_segment (load : Load) (idx : ℕ) (segment : RangeMergeSegment) (st : MergeState) :
    Outcome ProxyError MergeState :=
  if segment.output_start < st.current_position then do
    -- the bytes up to the cursor have been written by an earlier segment
    let skip_bytes ← u64_sub st.current_position segment.output_start
    let segment_length ← inclusive_len segment.output_start segment.output_end
    if skip_bytes ≥ segment_length then
      ok st
    else
      let adjusted_start := st.current_position
      let adjusted_length ← inclusive_len st.current_position segment.output_end
      match segment.source with
      | .Cached range read_offset read_length =>
        let _adjusted_offset ← u64_add read_offset skip_bytes
        let adjusted_read_length ← u64_sub read_length skip_bytes
        merge_cached load idx segment range adjusted_start adjusted_read_length
          "Overlapping sliced data" st
      | .Fetched data range_spec =>
        merge_fetched segment data range_spec adjusted_start adjusted_length st
  else
    match segment.source with
    | .Cached range _ read_length =>
      merge_cached load idx segment range segment.output_start read_length "Sliced data" st
    | .Fetched data range_spec => do
      let data_length ← inclusive_len segment.output_start segment.output_end
      merge_fetched segment data range_spec segment.output_start data_length st

def merge_loop (load : Load) (idx : ℕ) : List RangeMergeSegment → MergeState →
    Outcome ProxyError MergeState
  | [], st => ok st
  | segment :: rest, st => do
    let st ← merge_segment load idx segment st
    merge_loop load (idx + 1) rest st

/-- The merge plan: the overlapping cached and fetched ranges, sorted by output
position. -/
def merge_plan (requested : RangeSpec) (cached : List Range)
    (fetched : List (RangeSpec × List UInt8)) : Outcome ProxyError (List RangeMergeSegment) := do
  let from_cache ← cached_segments requested cached
  ok (sort_by_key RangeMergeSegment.output_start (from_cache ++ fetched_segments requested fetched))

def merge_range_segments (load : Load) (requested : RangeSpec) (cached : List Range)
    (fetched : List (RangeSpec × List UInt8)) : Outcome ProxyError RangeMergeResult := do
  let expected_size ← inclusive_len requested.start requested.end_
  let segments ← merge_plan requested cached fetched
  check_coverage requested segments
  let st ← merge_loop load 0 segments ⟨[], 0, 0, requested.start, true⟩
  let got := st.output.length
  if got ≠ expected_size then
    err (.CacheError s!"Merge size mismatch: expected {expected_size} bytes, got {got} bytes")
  else
    let _total_bytes ← u64_add st.bytes_from_cache st.bytes_from_s3
    ok {
      data := st.output
      bytes_from_cache := st.bytes_from_cache
      bytes_from_s3 := st.bytes_from_s3
      segments_merged := segments.length
      ram_hit := st.all_ram_hits && st.bytes_from_s3 == 0 }

/-! ## What one turn of the loop does -/

/-- The bytes a segment contributes when it is copied from position `start` on:
the part of its payload at `start..=segment.output_end`. -/
inductive Copied (load : Load) (idx : ℕ) (segment : RangeMergeSegment) (start : ℕ)
    (bytes : List UInt8) (st st' : MergeState) : Prop where
  | cached (range : Range) (read_offset read_length : ℕ) (ram_hit : Bool)
      (source : segment.source = .Cached range read_offset read_length)
      (extracted : extract_bytes_from_cached_range load idx range start segment.output_end =
        ok (bytes, ram_hit))
      (from_cache : st'.bytes_from_cache =
        st.bytes_from_cache + (read_length - (start - segment.output_start)))
      (from_s3 : st'.bytes_from_s3 = st.bytes_from_s3)
  | fetched (data : List UInt8) (range_spec : RangeSpec)
      (source : segment.source = .Fetched data range_spec)
      (offset : range_spec.start ≤ start)
      (window : bytes = data.extract (start - range_spec.start)
        (segment.output_end + 1 - range_spec.start))
      (from_cache : st'.bytes_from_cache = st.bytes_from_cache)
      (from_s3 : st'.bytes_from_s3 = st.bytes_from_s3 + (segment.output_end + 1 - start))

variable {segment : RangeMergeSegment} {st st' : MergeState} {load : Load} {idx : ℕ} {n start i : ℕ}

theorem merge_cached_eq_ok {range : Range} {label : String}
    (h : merge_cached load idx segment range start n label st = ok st') :
    start ≤ segment.output_end ∧ ∃ bytes ram_hit,
      extract_bytes_from_cached_range load idx range start segment.output_end =
        ok (bytes, ram_hit) ∧
      bytes.length = segment.output_end + 1 - start ∧
      st' = { st with
        output := st.output ++ bytes
        bytes_from_cache := st.bytes_from_cache + n
        current_position := segment.output_end + 1
        all_ram_hits := st.all_ram_hits && ram_hit } := by
  simp only [merge_cached, bind_eq_ok, guard_eq_ok, u64_add_eq_ok, inclusive_len_eq_ok] at h
  obtain ⟨⟨bytes, ram_hit⟩, hextract, expected, ⟨hle, -, rfl⟩, hlen, _, ⟨-, rfl⟩, _, ⟨-, rfl⟩,
    hst⟩ := h
  refine ⟨hle, bytes, ram_hit, hextract, ?_, by simpa using hst.symm⟩
  simp only [ne_eq] at hlen
  omega

theorem merge_fetched_eq_ok {data : List UInt8} {range_spec : RangeSpec}
    (h : merge_fetched segment data range_spec start n st = ok st') :
    range_spec.start ≤ start ∧ start - range_spec.start + n ≤ data.length ∧
      st' = { st with
        output := st.output ++
          data.extract (start - range_spec.start) (start - range_spec.start + n)
        bytes_from_s3 := st.bytes_from_s3 + n
        current_position := segment.output_end + 1 } := by
  simp only [merge_fetched, bind_eq_ok, guard_eq_ok, u64_sub_eq_ok, u64_add_eq_ok] at h
  obtain ⟨_, ⟨hoff, rfl⟩, _, ⟨-, rfl⟩, hend, _, ⟨-, rfl⟩, _, ⟨-, rfl⟩, hst⟩ := h
  exact ⟨hoff, by omega, by simpa using hst.symm⟩

/-- **What one turn of the loop does.** Either the segment is already covered and
nothing changes, or its bytes from the cursor (or from its own start, if that is
later) to its end are appended and the cursor moves past its end. -/
theorem merge_segment_cases (h : merge_segment load idx segment st = ok st') :
    (segment.output_end < st.current_position ∧ st' = st) ∨
    (max st.current_position segment.output_start ≤ segment.output_end ∧
      st'.current_position = segment.output_end + 1 ∧
      ∃ bytes, bytes.length =
          segment.output_end + 1 - max st.current_position segment.output_start ∧
        st'.output = st.output ++ bytes ∧
        Copied load idx segment (max st.current_position segment.output_start) bytes st st') := by
  unfold merge_segment at h
  split at h
  case isTrue hlt =>
    rw [Nat.max_eq_left hlt.le]
    simp only [bind_eq_ok, u64_sub_eq_ok, inclusive_len_eq_ok] at h
    obtain ⟨skip, ⟨-, rfl⟩, len, ⟨hle, -, rfl⟩, h⟩ := h
    split at h
    case isTrue hskip =>
      simp only [ok.injEq] at h
      exact Or.inl ⟨by omega, h.symm⟩
    case isFalse hskip =>
      right
      simp only [bind_eq_ok, inclusive_len_eq_ok] at h
      obtain ⟨_, ⟨hpos, -, rfl⟩, h⟩ := h
      cases hsource : segment.source with
      | Cached range read_offset read_length =>
        rw [hsource] at h
        simp only [bind_eq_ok, u64_add_eq_ok, u64_sub_eq_ok] at h
        obtain ⟨_, ⟨-, rfl⟩, _, ⟨-, rfl⟩, h⟩ := h
        obtain ⟨-, bytes, ram_hit, hextract, hlen, rfl⟩ := merge_cached_eq_ok h
        exact ⟨hpos, rfl, bytes, hlen, rfl,
          .cached range read_offset read_length ram_hit hsource hextract rfl rfl⟩
      | Fetched data range_spec =>
        rw [hsource] at h
        obtain ⟨hoff, hend, rfl⟩ := merge_fetched_eq_ok h
        refine ⟨hpos, rfl, _, ?_, rfl, .fetched data range_spec hsource hoff ?_ rfl ?_⟩
        · rw [length_extract]
          omega
        · congr 1
          omega
        · dsimp only
          omega
  case isFalse hge =>
    rw [Nat.max_eq_right (Nat.le_of_not_lt hge)]
    right
    cases hsource : segment.source with
    | Cached range read_offset read_length =>
      rw [hsource] at h
      obtain ⟨hle, bytes, ram_hit, hextract, hlen, rfl⟩ := merge_cached_eq_ok h
      exact ⟨hle, rfl, bytes, hlen, rfl,
        .cached range read_offset read_length ram_hit hsource hextract (by simp) rfl⟩
    | Fetched data range_spec =>
      rw [hsource] at h
      simp only [bind_eq_ok, inclusive_len_eq_ok] at h
      obtain ⟨_, ⟨hle, -, rfl⟩, h⟩ := h
      obtain ⟨hoff, hend, rfl⟩ := merge_fetched_eq_ok h
      refine ⟨hle, rfl, _, ?_, rfl, .fetched data range_spec hsource hoff ?_ rfl ?_⟩
      · rw [length_extract]
        omega
      · congr 1
        omega
      · dsimp only
        omega

theorem merge_segment_cursor (h : merge_segment load idx segment st = ok st') :
    st'.current_position = max st.current_position (segment.output_end + 1) := by
  rcases merge_segment_cases h with ⟨hcovered, rfl⟩ | ⟨hle, hcursor, -⟩ <;> omega

/-! ## The loop invariant -/

/-- A segment whose payload is the object's: it lies inside its source, and what
the source yields are the object's bytes at the source's offsets. -/
def Faithful (obj : List UInt8) (load : Load) (segment : RangeMergeSegment) : Prop :=
  match segment.source with
  | .Cached range _ read_length =>
    range.start ≤ segment.output_start ∧ segment.output_end ≤ range.end_ ∧
      read_length = segment.output_end + 1 - segment.output_start ∧
      ∀ idx data ram_hit, load idx range = ok (data, ram_hit) →
        data = object_bytes obj range.start range.end_
  | .Fetched data range_spec =>
    range_spec.start ≤ segment.output_start ∧ segment.output_end ≤ range_spec.end_ ∧
      data = object_bytes obj range_spec.start range_spec.end_

/-- The invariant of the merge loop: everything from `start` up to the cursor has
been written, once, and is accounted to one of the two sources. -/
structure MergeInv (obj : List UInt8) (start : ℕ) (st : MergeState) : Prop where
  cursor : start ≤ st.current_position
  output : st.output = obj.extract start st.current_position
  length : st.output.length = st.current_position - start
  counts : st.bytes_from_cache + st.bytes_from_s3 = st.output.length

variable {obj : List UInt8}

section

variable {start : ℕ} {bytes : List UInt8} (hf : Faithful obj load segment)
  (hstart : segment.output_start ≤ start) (hend : start ≤ segment.output_end)
  (h : Copied load idx segment start bytes st st')

include hf hstart hend h

theorem Copied.bytes_eq : bytes = obj.extract start (segment.output_end + 1) := by
  cases h with
  | cached range read_offset read_length ram_hit source extracted _ _ =>
    rw [Faithful, source] at hf
    obtain ⟨hlo, hhi, -, hload⟩ := hf
    obtain ⟨-, -, -, -, data, hdata, -, hbytes⟩ := extract_bytes_from_cached_range_eq_ok extracted
    have hobj := hload idx data ram_hit hdata
    simp only at hbytes
    rw [hbytes, hobj, object_bytes, extract_extract (by omega)]
    congr 1 <;> omega
  | fetched data range_spec source offset window _ _ =>
    rw [Faithful, source] at hf
    obtain ⟨hlo, hhi, hdata⟩ := hf
    rw [window, hdata, object_bytes, extract_extract (by omega)]
    congr 1 <;> omega

theorem Copied.counts :
    st'.bytes_from_cache + st'.bytes_from_s3 =
      st.bytes_from_cache + st.bytes_from_s3 + (segment.output_end + 1 - start) := by
  cases h with
  | cached range read_offset read_length ram_hit source _ from_cache from_s3 =>
    rw [Faithful, source] at hf
    omega
  | fetched data range_spec source offset window from_cache from_s3 => omega

end

theorem merge_segment_inv {idx : ℕ} (hf : Faithful obj load segment)
    (hinv : MergeInv obj start st) (hgap : segment.output_start ≤ st.current_position)
    (h : merge_segment load idx segment st = ok st') : MergeInv obj start st' := by
  obtain ⟨hcovered, rfl⟩ | ⟨hle, hcursor, bytes, hlen, hout, hcopied⟩ := merge_segment_cases h
  · exact hinv
  · rw [Nat.max_eq_left hgap] at hle hlen hcopied
    have hbytes := hcopied.bytes_eq hf hgap hle
    have hcounts := hcopied.counts hf hgap hle
    have hstart := hinv.cursor
    have hlength := hinv.length
    have hsum := hinv.counts
    refine ⟨by omega, ?_, ?_, ?_⟩
    · rw [hout, hinv.output, hbytes, hcursor, extract_append_extract hstart (by omega)]
    all_goals
      rw [hout, length_append]
      omega

/-- Neighbouring segments leave no gap. -/
def NoGaps (segments : List RangeMergeSegment) : Prop :=
  segments.IsChain fun a b => b.output_start ≤ a.output_end + 1

variable {segments : List RangeMergeSegment}

theorem check_gaps_eq_ok (h : check_gaps i segments = ok ()) : NoGaps segments := by
  induction segments generalizing i with
  | nil => exact .nil
  | cons a rest ih =>
    cases rest with
    | nil => exact .singleton a
    | cons b rest =>
      simp only [check_gaps, bind_eq_ok, guard_eq_ok, u64_add_eq_ok] at h
      obtain ⟨_, ⟨-, rfl⟩, hgap, h⟩ := h
      exact .cons_cons (by omega) (ih h)

theorem check_gaps_of_noGaps (hmax : ∀ s ∈ segments, s.output_end < u64_max) (h : NoGaps segments) :
    check_gaps i segments = ok () := by
  induction segments generalizing i with
  | nil => rfl
  | cons a rest ih =>
    cases rest with
    | nil => rfl
    | cons b rest =>
      obtain ⟨hab, hrest⟩ := isChain_cons_cons.mp h
      have ha := hmax a mem_cons_self
      rw [check_gaps, u64_add_of_le (by omega), bind_ok, if_neg (by omega)]
      exact ih (fun s hs => hmax s (mem_cons_of_mem _ hs)) hrest

theorem merge_loop_inv {idx : ℕ} (hf : ∀ segment ∈ segments, Faithful obj load segment)
    (hinv : MergeInv obj start st)
    (hhead : ∀ segment ∈ segments.head?, segment.output_start ≤ st.current_position)
    (hgaps : NoGaps segments) (h : merge_loop load idx segments st = ok st') :
    MergeInv obj start st' := by
  induction segments generalizing idx st with
  | nil =>
    simp only [merge_loop, ok.injEq] at h
    exact h ▸ hinv
  | cons segment rest ih =>
    simp only [merge_loop, bind_eq_ok] at h
    obtain ⟨st₁, hstep, hrest⟩ := h
    have hinv₁ := merge_segment_inv (hf segment mem_cons_self) hinv (hhead segment rfl) hstep
    have hcursor := merge_segment_cursor hstep
    refine ih (fun s hs => hf s (mem_cons_of_mem _ hs)) hinv₁ ?_ hgaps.tail hrest
    -- the next segment starts at most one past the end of this one
    intro next hnext
    have hb := hgaps.rel_head? hnext
    omega

theorem merge_loop_from_cache
    (hf : ∀ segment ∈ segments, ∃ data range_spec, segment.source = .Fetched data range_spec)
    (h : merge_loop load idx segments st = ok st') :
    st'.bytes_from_cache = st.bytes_from_cache := by
  induction segments generalizing idx st with
  | nil =>
    simp only [merge_loop, ok.injEq] at h
    rw [h]
  | cons segment rest ih =>
    simp only [merge_loop, bind_eq_ok] at h
    obtain ⟨st₁, hstep, hrest⟩ := h
    rw [ih (fun s hs => hf s (mem_cons_of_mem _ hs)) hrest]
    rcases merge_segment_cases hstep with ⟨-, rfl⟩ | ⟨-, -, bytes, -, -, hcopied⟩
    · rfl
    · obtain ⟨data, range_spec, hsource⟩ := hf segment mem_cons_self
      cases hcopied with
      | cached _ _ _ _ source =>
        rw [hsource] at source
        cases source
      | fetched _ _ _ _ _ from_cache _ => exact from_cache

/-! ## The plan -/

def cached_segment (requested : RangeSpec) (c : Range) : RangeMergeSegment :=
  let lo := max c.start requested.start
  let hi := min c.end_ requested.end_
  ⟨lo, hi, .Cached c (lo - c.start) (hi + 1 - lo)⟩

variable {requested : RangeSpec} {cached : List Range}

/-- A plan that succeeds has one segment for each overlapping cached range, in the
order of the cached ranges, and none of them is inverted. -/
theorem cached_segments_eq_ok (h : cached_segments requested cached = ok segments) :
    segments = (overlapping requested cached).map (cached_segment requested) := by
  induction cached generalizing segments with
  | nil =>
    simp only [cached_segments, ok.injEq] at h
    exact h.symm
  | cons c rest ih =>
    rw [cached_segments] at h
    cases hov : calculate_overlap c.start c.end_ requested.start requested.end_ with
    | none =>
      rw [hov] at h
      have hout : ¬ (requested.start ≤ c.end_ ∧ c.start ≤ requested.end_) := by
        intro hin
        have hsome := calculate_overlap_eq_some.mpr ⟨hin.1, hin.2, rfl⟩
        rw [hov] at hsome
        cases hsome
      simpa [overlapping, hout] using ih h
    | some p =>
      obtain ⟨hlo, hhi, rfl⟩ := calculate_overlap_eq_some.mp hov
      rw [hov] at h
      simp only [bind_eq_ok, u64_sub_eq_ok, inclusive_len_eq_ok, ok.injEq] at h
      obtain ⟨_, ⟨-, rfl⟩, _, ⟨hle, -, rfl⟩, tail, htail, rfl⟩ := h
      have hin : requested.start ≤ c.end_ ∧ c.start ≤ requested.end_ := ⟨hlo, hhi⟩
      have hlen : ∀ lo hi : ℕ, lo ≤ hi → hi - lo + 1 = hi + 1 - lo := by omega
      rw [ih htail, hlen _ _ hle]
      simp [overlapping, hin, cached_segment]

variable {fetched : List (RangeSpec × List UInt8)}

theorem mem_fetched_segments :
    segment ∈ fetched_segments requested fetched ↔
      ∃ f ∈ fetched, requested.start ≤ f.1.end_ ∧ f.1.start ≤ requested.end_ ∧
        segment = ⟨max f.1.start requested.start, min f.1.end_ requested.end_,
          .Fetched f.2 f.1⟩ := by
  simp only [fetched_segments, mem_filterMap, Option.map_eq_some_iff, calculate_overlap_eq_some]
  constructor
  · rintro ⟨f, hf, p, ⟨hlo, hhi, rfl⟩, rfl⟩
    exact ⟨f, hf, hlo, hhi, rfl⟩
  · rintro ⟨f, hf, hlo, hhi, rfl⟩
    exact ⟨f, hf, _, ⟨hlo, hhi, rfl⟩, rfl⟩

theorem check_coverage_eq_ok (h : check_coverage requested segments = ok ()) :
    segments ≠ [] ∧ (∀ s ∈ segments.head?, s.output_start = requested.start) ∧ NoGaps segments ∧
      ∀ s ∈ segments.getLast?, s.output_end = requested.end_ := by
  cases segments with
  | nil => cases h
  | cons first rest =>
    simp only [check_coverage, guard_eq_ok, bind_eq_ok] at h
    obtain ⟨hfirst, _, hgaps, hlast, -⟩ := h
    refine ⟨cons_ne_nil _ _, fun s hs => ?_, check_gaps_eq_ok hgaps, fun s hs => ?_⟩
    · obtain rfl : first = s := by simpa using hs
      simpa using hfirst
    · rw [List.getLast?_eq_some_getLast (cons_ne_nil _ _), Option.mem_some_iff] at hs
      rw [← hs]
      simpa using hlast

theorem check_coverage_iff (hmax : ∀ s ∈ segments, s.output_end < u64_max) :
    check_coverage requested segments = ok () ↔
      segments ≠ [] ∧ (∀ s ∈ segments.head?, s.output_start = requested.start) ∧
        NoGaps segments ∧ ∀ s ∈ segments.getLast?, s.output_end = requested.end_ := by
  refine ⟨check_coverage_eq_ok, ?_⟩
  rintro ⟨hne, hfirst, hgaps, hlast⟩
  cases segments with
  | nil => exact absurd rfl hne
  | cons first rest =>
    have hlast := hlast _ (List.getLast?_eq_some_getLast hne)
    rw [check_coverage, if_neg (by simpa using hfirst), check_gaps_of_noGaps hmax hgaps, bind_ok,
      if_neg (by simpa using hlast)]

/-! ## The result of a merge -/

section

variable (hcached : ∀ c ∈ cached, ∀ idx data ram_hit, load idx c = ok (data, ram_hit) →
    data = object_bytes obj c.start c.end_)
  (hfetched : ∀ f ∈ fetched, f.2 = object_bytes obj f.1.start f.1.end_)

include hcached hfetched

theorem merge_plan_faithful (h : merge_plan requested cached fetched = ok segments) :
    ∀ segment ∈ segments, Faithful obj load segment := by
  simp only [merge_plan, bind_eq_ok, ok.injEq] at h
  obtain ⟨from_cache, hcs, rfl⟩ := h
  obtain rfl := cached_segments_eq_ok hcs
  intro segment hmem
  rw [mem_sort_by_key, mem_append] at hmem
  rcases hmem with hmem | hmem
  · obtain ⟨c, hc, rfl⟩ := List.mem_map.mp hmem
    exact ⟨le_max_left _ _, min_le_left _ _, rfl, hcached c (mem_of_mem_filter hc)⟩
  · obtain ⟨f, hf, -, -, rfl⟩ := mem_fetched_segments.mp hmem
    exact ⟨le_max_left _ _, min_le_left _ _, hfetched f hf⟩

theorem merge_range_segments_eq_ok {res : RangeMergeResult}
    (h : merge_range_segments load requested cached fetched = ok res) :
    res.data = object_bytes obj requested.start requested.end_ ∧
      res.data.length = requested.end_ + 1 - requested.start ∧
      res.bytes_from_cache + res.bytes_from_s3 = res.data.length := by
  simp only [merge_range_segments, bind_eq_ok, guard_eq_ok, inclusive_len_eq_ok, ok.injEq] at h
  obtain ⟨size, ⟨hle, -, rfl⟩, segments, hplan, _, hcheck, st, hloop, hsize, _, -, rfl⟩ := h
  obtain ⟨-, hfirst, hgaps, -⟩ := check_coverage_eq_ok hcheck
  have hinit : MergeInv obj requested.start ⟨[], 0, 0, requested.start, true⟩ :=
    ⟨le_rfl, extract_self.symm, by simp, rfl⟩
  have hinv := merge_loop_inv (merge_plan_faithful hcached hfetched hplan) hinit
    (fun s hs => (hfirst s hs).le) hgaps hloop
  -- the size check at the end fixes where the cursor stopped
  have hlength := hinv.length
  have hpos : st.current_position = requested.end_ + 1 := by
    omega
  refine ⟨?_, by dsimp only; omega, hinv.counts⟩
  rw [object_bytes, ← hpos]
  exact hinv.output

end

/-- **A merge returns the object's bytes.** Whatever the order, overlap or nesting
of the cached and fetched ranges, as long as each payload is the object's bytes
at its stated offsets, a merge that succeeds returns exactly the requested bytes,
and the bytes it reports from the cache and from S3 add up to their number. -/
theorem merge_range_segments_returns_object_bytes (obj : List UInt8) (load : Load)
    (requested : RangeSpec) (cached : List Range) (fetched : List (RangeSpec × List UInt8))
    (res : RangeMergeResult)
    (hcached : ∀ c ∈ cached, ∀ idx data ram_hit, load idx c = ok (data, ram_hit) →
      data = object_bytes obj c.start c.end_)
    (hfetched : ∀ f ∈ fetched, f.2 = object_bytes obj f.1.start f.1.end_)
    (h : merge_range_segments load requested cached fetched = ok res) :
    res.data = object_bytes obj requested.start requested.end_ ∧
      res.data.length = requested.end_ + 1 - requested.start ∧
      res.bytes_from_cache + res.bytes_from_s3 = res.data.length :=
  merge_range_segments_eq_ok hcached hfetched h

theorem bytes_from_cache_of_nothing_cached {res : RangeMergeResult}
    (h : merge_range_segments load requested [] fetched = ok res) : res.bytes_from_cache = 0 := by
  simp only [merge_range_segments, merge_plan, bind_eq_ok, guard_eq_ok, ok.injEq] at h
  obtain ⟨_, -, segments, ⟨from_cache, hcached, rfl⟩, _, -, st, hloop, -, _, -, rfl⟩ := h
  obtain rfl := cached_segments_eq_ok hcached
  have hfetched : ∀ segment ∈ sort_by_key RangeMergeSegment.output_start
      ((overlapping requested []).map (cached_segment requested) ++
        fetched_segments requested fetched), ∃ data range_spec,
          segment.source = .Fetched data range_spec := by
    intro segment hsegment
    rcases mem_append.mp (mem_sort_by_key.mp hsegment) with hnone | hsome
    · cases hnone
    · obtain ⟨f, -, -, -, rfl⟩ := mem_fetched_segments.mp hsome
      exact ⟨f.2, f.1, rfl⟩
  exact merge_loop_from_cache hfetched hloop

/-- Bytes 2 to 7 of an eight-byte object, from a nested pair of cached ranges and
a fetched range that overlaps both. -/
theorem merge_range_segments_of_nested_ranges :
    merge_range_segments (fun _ c =>
      ok (object_bytes [0, 1, 2, 3, 4, 5, 6, 7] c.start c.end_, true))
        ⟨2, 7⟩ [⟨0, 4⟩, ⟨3, 3⟩] [(⟨4, 7⟩, [4, 5, 6, 7])] =
      ok ⟨[2, 3, 4, 5, 6, 7], 3, 3, 3, false⟩ ∧
    [2, 3, 4, 5, 6, 7] = object_bytes [0, 1, 2, 3, 4, 5, 6, 7] 2 7 := by
  refine ⟨by decide, ?_⟩
  exact (merge_range_segments_returns_object_bytes [0, 1, 2, 3, 4, 5, 6, 7]
    (fun _ c => ok (object_bytes [0, 1, 2, 3, 4, 5, 6, 7] c.start c.end_, true))
    ⟨2, 7⟩ [⟨0, 4⟩, ⟨3, 3⟩] [(⟨4, 7⟩, [4, 5, 6, 7])] ⟨[2, 3, 4, 5, 6, 7], 3, 3, 3, false⟩
    (fun c _ idx data ram h => by simp only [ok.injEq, Prod.mk.injEq] at h; exact h.1.symm)
    (by decide) (by decide)).1

end HybridCache.RangeHandler
