/-
What a record says of its object, and where it learned that (`update_metadata_head_fields`,
`populate_metadata_on_first_part` and `lookup_part` in `cache.rs`).

`Described` says that a record repeats only what responses of its own version have said. Three
writers keep that only in the states of `KeepsVersion`: a HEAD response of a new version keeps the
part map and the number of parts, and with length zero the length; a part response is entered into
whatever record is found after its store; a consolidation takes the length of an object without one
from a range at zero.
-/
import HybridCache.CacheManager.KeyState

namespace HybridCache.CacheManager

open Lib CacheTypes Journal DiskCache Option

/-! ## Looking up a part -/

structure CachedPartResponse where
  data : List UInt8
  headers : List (String × String)
  start : ℕ
  end_ : ℕ
  total_size : ℕ
deriving DecidableEq

/-- What a lookup meets: the time, the journals, and the files behind the ranges. -/
structure PartLookup where
  now : ℕ
  shared_storage_mode : Bool
  journals : List JournalEntry
  read : RangeSpec → Option (List UInt8)

def load_range_data_for_version (env : KeyEnv) (look : PartLookup) (range : RangeSpec)
    (etag : String) : Option (List UInt8) :=
  if env.is_safe_relative_file_path range.file_path ∧
      range_file_belongs_to range (env.object_version_id etag) then look.read range
  else none

def part_computed_headers : List String :=
  ["content-length", "content-range", "accept-ranges", "etag", "last-modified", "content-type",
    "x-amz-mp-parts-count", "x-amz-checksum-crc32", "x-amz-checksum-crc32c", "x-amz-checksum-sha1",
    "x-amz-checksum-sha256", "x-amz-checksum-crc64nvme", "x-amz-checksum-type", "content-md5"]

def part_headers (m : NewCacheMetadata) (start end_ : ℕ) : List (String × String) :=
  let computed :=
    [("content-range", s!"bytes {start}-{end_}/{m.object_metadata.content_length}"),
      ("content-length", toString (end_ - start + 1)), ("etag", m.object_metadata.etag)] ++
    (m.effective_last_modified.map fun lm => ("last-modified", lm)).toList ++
    [("accept-ranges", "bytes")] ++
    (m.object_metadata.parts_count.map fun n => ("x-amz-mp-parts-count", toString n)).toList
  (m.object_metadata.response_headers.filter fun header =>
    header.1.toLower ∉ part_computed_headers).foldl (insert_row Prod.fst) computed

def part_data (range : RangeSpec) (range_data : List UInt8) (start end_ : ℕ) :
    Option (List UInt8) :=
  if range.start = start ∧ range.end_ = end_ then some range_data
  else if start - range.start + (end_ - start + 1) > range_data.length then none
  else some ((range_data.drop (start - range.start)).take (end_ - start + 1))

/-- The ranges that a lookup to serve finds. An error is a miss. -/
def part_overlapping_ranges (env : KeyEnv) (look : PartLookup) (m : NewCacheMetadata)
    (start end_ : ℕ) : Option (List RangeSpec) :=
  match find_cached_ranges env.object_version_id
      ⟨env.cache_key, start, end_, look.now, look.shared_storage_mode, look.journals⟩ (some m)
      .FreshServe with
  | .ok result => some result.ranges
  | _ => none

/-- `lookup_part`, the answer. A range file that turns out corrupt also loses its record. -/
def lookup_part (env : KeyEnv) (look : PartLookup) (file : Option NewCacheMetadata)
    (part_number : ℕ) : Option CachedPartResponse := do
  let metadata ← file
  let (_, start, end_) ← lookup Prod.fst metadata.object_metadata.part_ranges part_number
  guard ¬ metadata.object_metadata.parts_count.any fun n => part_number = 0 ∨ part_number > n
  let overlapping ← part_overlapping_ranges env look metadata start end_
  let range ← overlapping.find? (contains start end_)
  let range_data ← load_range_data_for_version env look range metadata.object_metadata.etag
  let data ← part_data range range_data start end_
  some
    { data := data
      headers := part_headers metadata start end_
      start := start
      end_ := end_
      total_size := metadata.object_metadata.content_length }

theorem lookup_etag_part_headers (m : NewCacheMetadata) (start end_ : ℕ) :
    lookup Prod.fst (part_headers m start end_) "etag" = some ("etag", m.object_metadata.etag) := by
  unfold part_headers
  have hstored : ∀ header ∈ m.object_metadata.response_headers.filter fun header =>
      header.1.toLower ∉ part_computed_headers, header.1 ≠ "etag" := by
    rintro ⟨_, value⟩ hheader rfl
    have hother : "etag".toLower ∉ part_computed_headers :=
      of_decide_eq_true (List.mem_filter.mp hheader).2
    exact hother (by decide +kernel)
  rw [lookup_foldl_insert_row_ne hstored]
  rfl

theorem mem_part_ranges_of_lookup_part {env : KeyEnv} {look : PartLookup}
    {file : Option NewCacheMetadata} {part_number : ℕ} {served : CachedPartResponse}
    (h : lookup_part env look file part_number = some served) :
    ∃ m ∈ file, (part_number, served.start, served.end_) ∈ m.object_metadata.part_ranges ∧
      served.total_size = m.object_metadata.content_length ∧
      lookup Prod.fst served.headers "etag" = some ("etag", m.object_metadata.etag) := by
  obtain ⟨m, hm, h⟩ := bind_eq_some_iff.mp h
  obtain ⟨⟨n, start, end_⟩, hrow, h⟩ := bind_eq_some_iff.mp h
  obtain ⟨_, -, h⟩ := bind_eq_some_iff.mp h
  obtain ⟨overlapping, -, h⟩ := bind_eq_some_iff.mp h
  obtain ⟨range, -, h⟩ := bind_eq_some_iff.mp h
  obtain ⟨range_data, -, h⟩ := bind_eq_some_iff.mp h
  obtain ⟨data, -, h⟩ := bind_eq_some_iff.mp h
  cases h
  obtain rfl : n = part_number := key_of_lookup hrow
  exact ⟨m, hm, mem_of_lookup hrow, rfl, lookup_etag_part_headers m start end_⟩

/-! ## What responses say -/

def PartResponse.lesson (response : PartResponse) : ObjectMetadata :=
  { response.object_metadata with
    part_ranges :=
      [(response.part_number, response.content_range.start, response.content_range.end_)] }

section Lessons

variable {ι τ : Type}

def KeyEvent.lesson : KeyEvent ι τ → Option ObjectMetadata
  | .part _ _ _ _ response => some response.lesson
  | event => event.response

def learned (events : List (KeyEvent ι τ)) : List ObjectMetadata :=
  default :: events.filterMap KeyEvent.lesson

/-- Everything a record says of its object, some response with its etag has said. -/
structure Described (said : List ObjectMetadata) (object : ObjectMetadata) : Prop where
  content_length : ∃ o ∈ said, o.etag = object.etag ∧ o.content_length = object.content_length
  parts_count : ∀ n ∈ object.parts_count, ∃ o ∈ said, o.etag = object.etag ∧ o.parts_count = some n
  part_ranges : ∀ row ∈ object.part_ranges, ∃ o ∈ said, o.etag = object.etag ∧ row ∈ o.part_ranges

variable {object : ObjectMetadata}

theorem Described.mono {said said' : List ObjectMetadata} (h : Described said object)
    (hsub : said ⊆ said') : Described said' object where
  content_length :=
    let ⟨o, ho, hlength⟩ := h.content_length
    ⟨o, hsub ho, hlength⟩
  parts_count n hn :=
    let ⟨o, ho, hcount⟩ := h.parts_count n hn
    ⟨o, hsub ho, hcount⟩
  part_ranges row hrow :=
    let ⟨o, ho, hranges⟩ := h.part_ranges row hrow
    ⟨o, hsub ho, hranges⟩

variable {said : List ObjectMetadata}

theorem Described.congr {object object' : ObjectMetadata} (h : Described said object)
    (hetag : object'.etag = object.etag) (hlength : object'.content_length = object.content_length)
    (hcount : object'.parts_count = object.parts_count)
    (hranges : object'.part_ranges = object.part_ranges) : Described said object' where
  content_length := by
    rw [hetag, hlength]
    exact h.content_length
  parts_count := by
    rw [hetag, hcount]
    exact h.parts_count
  part_ranges := by
    rw [hetag, hranges]
    exact h.part_ranges

theorem described_of_mem (h : object ∈ said) : Described said object where
  content_length := ⟨object, h, rfl, rfl⟩
  parts_count _ hn := ⟨object, h, rfl, hn⟩
  part_ranges _ hrow := ⟨object, h, rfl, hrow⟩

variable {response : PartResponse} {event : KeyEvent ι τ} {events : List (KeyEvent ι τ)}

theorem described_of_part (h : response.lesson ∈ said) :
    Described said response.object_metadata where
  content_length := ⟨response.lesson, h, rfl, rfl⟩
  parts_count _ hn := ⟨response.lesson, h, rfl, hn⟩
  part_ranges _ hrow := by cases hrow

theorem learned_append : learned (events ++ [event]) = learned events ++ event.lesson.toList := by
  unfold learned
  cases hlesson : event.lesson with
  | none | some object => simp [hlesson]

theorem learned_subset (events : List (KeyEvent ι τ)) (event : KeyEvent ι τ) :
    learned events ⊆ learned (events ++ [event]) := by
  rw [learned_append]
  exact List.subset_append_left _ _

variable {events : List (KeyEvent ι τ)}

theorem lesson_mem_learned (h : event.lesson = some object) :
    object ∈ learned (events ++ [event]) := by
  rw [learned_append, h]
  exact List.mem_append_right _ List.mem_cons_self

theorem described_of_response (h : object ∈ event.response) :
    Described (learned (events ++ [event])) object := by
  unfold KeyEvent.response at h
  split at h
  · exact described_of_mem (lesson_mem_learned h)
  · cases h
    exact described_of_part (lesson_mem_learned rfl)
  · exact described_of_mem (lesson_mem_learned h)
  · exact described_of_mem (lesson_mem_learned h)
  · cases h

/-! ## What the writers keep -/

/-- A HEAD response keeps a description if it is of the version on record, or leaves nothing of
the other one. -/
theorem Described.head {run : HeadRun} {response : HeadResponse} (h : Described said object)
    (hsaid : (create_head_only_metadata run response).object_metadata ∈ said)
    (hetag : response.etag ≠ "")
    (hkeeps : response.etag ≠ object.etag →
      0 < response.content_length ∧ object.parts_count = none ∧ object.part_ranges = []) :
    Described said (head_object_metadata response object) := by
  have hnew : (head_object_metadata response object).etag = response.etag := if_pos hetag
  have hlength : 0 < response.content_length → ∃ o ∈ said, o.etag = response.etag ∧
      o.content_length = (head_object_metadata response object).content_length :=
    fun hpos => ⟨_, hsaid, rfl, (if_pos hpos).symm⟩
  by_cases hsame : response.etag = object.etag
  · rw [hsame] at hnew hlength
    refine ⟨?_, ?_, ?_⟩
    · rw [hnew]
      by_cases hpos : 0 < response.content_length
      · exact hlength hpos
      · have hkept : (head_object_metadata response object).content_length =
            object.content_length := if_neg hpos
        rw [hkept]
        exact h.content_length
    · rw [hnew]
      exact h.parts_count
    · rw [hnew]
      exact h.part_ranges
  · obtain ⟨hpos, hcount, hranges⟩ := hkeeps hsame
    refine ⟨?_, ?_, ?_⟩
    · rw [hnew]
      exact hlength hpos
    · intro n hn
      have hnone : object.parts_count = some n := hn
      rw [hcount] at hnone
      cases hnone
    · intro row hrow
      have hmem : row ∈ object.part_ranges := hrow
      rw [hranges] at hmem
      cases hmem

theorem Described.populate {read m : NewCacheMetadata} (h : Described said read.object_metadata)
    (hsaid : response.lesson ∈ said)
    (hetag : read.object_metadata.etag = response.object_metadata.etag)
    (hm : populate_metadata_on_first_part response read = some m) :
    Described said m.object_metadata := by
  obtain ⟨part_ranges, rfl, hrows⟩ := populate_eq hm
  refine ⟨h.content_length, ?_, ?_⟩
  · intro n hn
    cases hcount : response.parts_count with
    | none =>
      rw [hcount] at hn
      exact h.parts_count n hn
    | some n' =>
      rw [hcount] at hn
      exact ⟨response.lesson, hsaid, hetag.symm, hcount.trans hn⟩
  · intro row hrow
    rcases hrows row hrow with hold | rfl
    · exact h.part_ranges row hold
    · exact ⟨response.lesson, hsaid, hetag.symm, List.mem_singleton.mpr rfl⟩

end Lessons

section Steps

variable (env : KeyEnv) {ι τ : Type}

/-- What a step meets does not mix versions. -/
def KeyState.KeepsVersion (s : KeyState ι τ) : KeyEvent ι τ → Prop
  -- a HEAD response of another version gives a length, and meets no part map
  | .head _ response => ∀ m ∈ s.file, response.etag ≠ m.object_metadata.etag →
      0 < response.content_length ∧ m.object_metadata.parts_count = none ∧
        m.object_metadata.part_ranges = []
  -- a part response meets the record of its own version
  | .read task => ∀ response, s.tasks task = some (.waiting (.part response)) →
      ∀ m ∈ s.file, m.object_metadata.etag = response.object_metadata.etag
  -- a record without a length meets no range at zero
  | .version (.consolidate loaded_at _ valid _ _ _) =>
      let m := load_or_create_metadata loaded_at s.file (s.batch env valid)
      m.object_metadata.content_length = 0 → (∀ range ∈ m.ranges, range.start ≠ 0) ∧
        ∀ entry ∈ s.batch env valid, entry.publishes = true → entry.range_spec.start ≠ 0
  | _ => True

/-- The invariant: the record, and everything that can still be written into it. -/
structure KeyState.Taught (said : List ObjectMetadata) (s : KeyState ι τ) : Prop where
  file : ∀ m ∈ s.file, Described said m.object_metadata
  entries : ∀ entry, s.Holds entry → ∀ object ∈ entry.object_metadata, Described said object
  reads : ∀ k update read, s.tasks k = some (.holding update read) →
    Described said read.object_metadata
  waiting : ∀ k response, s.tasks k = some (.waiting (.part response)) → response.lesson ∈ said
  holding : ∀ k response read, s.tasks k = some (.holding (.part response) read) →
    response.lesson ∈ said ∧ read.object_metadata.etag = response.object_metadata.etag

variable {said : List ObjectMetadata} {s : KeyState ι τ}

theorem KeyState.taught_init : (KeyState.init : KeyState ι τ).Taught said where
  file _ h := by cases h
  entries _ h := by
    rcases h with h | ⟨_, h⟩ <;> cases h
  reads _ _ _ h := by cases h
  waiting _ _ h := by cases h
  holding _ _ _ h := by cases h

theorem KeyState.Taught.loaded (hs : s.Taught said) (hdefault : default ∈ said) (loaded_at : ℕ)
    (valid : JournalEntry → Bool) :
    Described said
      (load_or_create_metadata loaded_at s.file (s.batch env valid)).object_metadata := by
  cases hfile : s.file with
  | some m => exact hs.file m hfile
  | none =>
    unfold load_or_create_metadata
    cases hobject : (object_entry (s.batch env valid)).bind JournalEntry.object_metadata with
    | none => exact described_of_mem hdefault
    | some object =>
      obtain ⟨entry, hentry, hobject⟩ := bind_eq_some_iff.mp hobject
      exact hs.entries entry (holds_of_mem_batch (mem_of_object_entry hentry)) object hobject

variable {env} [DecidableEq ι] [DecidableEq τ]

/-- **Step lemma.** A step that does not mix versions keeps what it leaves described by the
responses so far, its own included. -/
theorem KeyState.Taught.step {past : List (KeyEvent ι τ)} {s' : KeyState ι τ}
    {event : KeyEvent ι τ} (hs : s.Taught (learned past)) (hguard : s.KeepsVersion env event)
    (h : s.step env event = some s') : s'.Taught (learned (past ++ [event])) where
  file m' hm' := by
    have hsub := learned_subset past event
    rcases KeyState.fileStep h with ⟨-, hfile', -⟩ |
      ⟨-, m, hfile', ⟨-, object, hobject, _, hm⟩, -⟩ |
      ⟨run, response, m, m₁, rfl, hfile, -, -, hetag, -, hfile', hobject, -⟩ |
      ⟨loaded_at, applied_at, unlinked, entries, happly, hfile'⟩ |
      ⟨update, read, m, happly, hm, hfile'⟩
    · exact (hs.file m' (hfile' ▸ hm')).mono hsub
    · obtain rfl : m = m' := Option.some.inj (hfile'.symm.trans hm')
      rw [hm]
      exact (described_of_response hobject).congr rfl rfl rfl rfl
    · obtain rfl : m₁ = m' := Option.some.inj (hfile'.symm.trans hm')
      rw [hobject]
      exact ((hs.file m hfile).mono hsub).head (lesson_mem_learned rfl) hetag (hguard m hfile)
    · obtain ⟨valid, retired, rfl, rfl⟩ := application_batch happly
      obtain rfl := Option.some.inj (hfile'.symm.trans hm')
      have hloaded := (hs.loaded env List.mem_cons_self loaded_at valid).mono hsub
      have hlength := consolidate_object_content_length env.object_version_id loaded_at applied_at
        unlinked s.file (s.batch env valid) hguard
      obtain ⟨ranges, expires_at, accounted, content_length, hrecord⟩ := consolidate_object_metadata
        env.object_version_id loaded_at applied_at unlinked s.file (s.batch env valid)
      rw [hrecord] at hlength ⊢
      exact hloaded.congr rfl hlength rfl rfl
    · obtain rfl : m = m' := Option.some.inj (hfile'.symm.trans hm')
      obtain ⟨k, rfl, htask⟩ := application_update happly
      cases update with
      | refresh refresh =>
        cases hm
        obtain ⟨_, _, happlied⟩ := refresh.apply_eq read
        rw [happlied]
        exact (hs.reads k _ read htask).mono hsub
      | part response =>
        obtain ⟨hsaid, hetag⟩ := hs.holding k response read htask
        exact ((hs.reads k _ read htask).mono hsub).populate (hsub hsaid) hetag hm
  entries entry hentry object hobject := by
    rcases KeyState.holds_cases h hentry with hold | ⟨-, hnew⟩
    · exact (hs.entries entry hold object hobject).mono (learned_subset past event)
    · exact described_of_response (hnew object hobject)
  reads k update read htask := by
    rcases KeyState.task_cases h htask with hold | ⟨_, -, htask⟩ | ⟨_, _, _, _, -, htask⟩ |
      ⟨_, m, -, -, hfile, htask⟩
    · exact (hs.reads k update read hold).mono (learned_subset past event)
    · cases htask
    · cases htask
    · cases htask
      exact (hs.file read hfile).mono (learned_subset past event)
  waiting k response htask := by
    rcases KeyState.task_cases h htask with hold | ⟨_, -, htask⟩ | ⟨_, _, _, _, rfl, htask⟩ |
      ⟨_, _, -, -, -, htask⟩
    · exact learned_subset past event (hs.waiting k response hold)
    · cases htask
    · cases htask
      exact lesson_mem_learned rfl
    · cases htask
  holding k response read htask := by
    rcases KeyState.task_cases h htask with hold | ⟨_, -, htask⟩ | ⟨_, _, _, _, -, htask⟩ |
      ⟨_, m, rfl, hwaiting, hfile, htask⟩
    · obtain ⟨hsaid, hetag⟩ := hs.holding k response read hold
      exact ⟨learned_subset past event hsaid, hetag⟩
    · cases htask
    · cases htask
    · cases htask
      exact ⟨learned_subset past _ (hs.waiting k response hwaiting),
        hguard response hwaiting read hfile⟩

/-- **A record describes one version.** After a run whose steps do not mix versions, everything
the record says of its object has been said by a response with the record's etag; so a part is
served at the extent, and out of the length, that a response with the etag it is served under
gave. -/
theorem record_describes_one_version (env : KeyEnv) (events : List (KeyEvent ι τ))
    (s : KeyState ι τ) (hrun : run (KeyState.step env) .init events = some s)
    (hguard : Guarded (KeyState.step env) (KeyState.KeepsVersion env) .init events) :
    (∀ m ∈ s.file, Described (learned events) m.object_metadata) ∧
      ∀ look part_number served, lookup_part env look s.file part_number = some served →
        ∃ etag, lookup Prod.fst served.headers "etag" = some ("etag", etag) ∧
          (∃ said ∈ learned events, said.etag = etag ∧
            (part_number, served.start, served.end_) ∈ said.part_ranges) ∧
          ∃ said ∈ learned events, said.etag = etag ∧ said.content_length = served.total_size := by
  have htaught : s.Taught (learned events) :=
    run_invariant_past (fun past s => s.Taught (learned past))
      (fun _ _ _ _ hs hguard h => hs.step hguard h) KeyState.taught_init hguard hrun
  refine ⟨htaught.file, fun look part_number served hserved => ?_⟩
  obtain ⟨m, hm, hrow, hsize, hetag⟩ := mem_part_ranges_of_lookup_part hserved
  have hdescribed := htaught.file m hm
  refine ⟨m.object_metadata.etag, hetag, hdescribed.part_ranges _ hrow, ?_⟩
  rw [hsize]
  exact hdescribed.content_length

end Steps

def mondays_first_part : List (KeyEvent Unit Unit) :=
  [.part () () (undisturbed 1) 60 ⟨1, ⟨0, 4, 10, by decide, by decide⟩, some "mon", some "Mon",
    some 2, [], 5, 5⟩, .read (), .write () true, consolidated_at 1]

def tuesdays_object : List (KeyEvent Unit Unit) :=
  [.head (undisturbed_head 2) ⟨[], "tue", "Tue", 10⟩,
    stored_at 3 "tue" "Tue", consolidated_at 3] ++
    refreshed_at "tue" 4

def mondays_upload_tuesdays_end : List (KeyEvent Unit Unit) :=
  [.publish ⟨1, 60, "mon", "Mon", 10, [], 10⟩ .put true false,
    .head (undisturbed_head 2) ⟨[], "tue", "Tue", 0⟩]

def look_at_five : PartLookup :=
  ⟨5, true, [], fun _ => some (List.replicate 10 0)⟩

/-- Part 1 of Tuesday's version is served at the extent of part 1 of Monday's, though no response
has said that Tuesday's version has parts; and a HEAD response that Tuesday's version is empty
leaves Monday's length. -/
theorem part_map_of_monday_serves_tuesday :
    (∃ s served, run (KeyState.step plain_env) .init (mondays_first_part ++ tuesdays_object) =
        some s ∧
      lookup_part plain_env look_at_five s.file 1 = some served ∧
      (served.start, served.end_, served.total_size) = (0, 4, 10) ∧
      lookup Prod.fst served.headers "etag" = some ("etag", "tue") ∧
      ∀ said ∈ learned (mondays_first_part ++ tuesdays_object), said.etag = "tue" →
        said.parts_count = none ∧ said.part_ranges = []) ∧
    (∃ s m, run (KeyState.step plain_env) .init mondays_upload_tuesdays_end = some s ∧
      s.file = some m ∧ m.object_metadata.etag = "tue" ∧ m.object_metadata.content_length = 10 ∧
      ∀ said ∈ learned mondays_upload_tuesdays_end, said.etag = "tue" →
        said.content_length = 0) := by
  refine ⟨⟨_, _, rfl, rfl, ?_, ?_, ?_⟩, ⟨_, _, rfl, rfl, ?_, ?_, ?_⟩⟩
  all_goals decide

/-- A part of a version that nothing replaces is served as its response gave it. -/
theorem part_map_of_monday_serves_monday :
    ∃ s served, run (KeyState.step plain_env) .init mondays_first_part = some s ∧
      lookup_part plain_env look_at_five s.file 1 = some served ∧
      ∃ etag, lookup Prod.fst served.headers "etag" = some ("etag", etag) ∧
        (∃ said ∈ learned mondays_first_part, said.etag = etag ∧
          (1, served.start, served.end_) ∈ said.part_ranges) ∧
        ∃ said ∈ learned mondays_first_part, said.etag = etag ∧
          said.content_length = served.total_size := by
  refine ⟨_, _, rfl, rfl, ?_⟩
  refine (record_describes_one_version plain_env mondays_first_part _ rfl ?_).2 look_at_five 1 _
    rfl
  refine (guarded_cons rfl).mpr ⟨trivial, (guarded_cons rfl).mpr ⟨?_, (guarded_cons rfl).mpr
    ⟨trivial, (guarded_cons rfl).mpr ⟨?_, trivial⟩⟩⟩⟩
  · intro response hwaiting m hm
    cases hwaiting
    cases hm
    rfl
  · intro hzero
    exact absurd hzero (by decide)

end HybridCache.CacheManager
