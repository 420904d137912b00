/-
Filling a page (`fill_page` and the functions it calls in `http_proxy.rs`).

A page is looked up in RAM, then on disk and in the journals; what is missing is fetched, unless
another request is fetching the page already. Every segment carries its etag, and a page is made of
segments of one etag only. `contents` gives the bytes of the version that an etag names.
-/
import HybridCache.CacheManager.Writers
import HybridCache.RangeHandler.Merge

namespace HybridCache.HttpProxy

open Lib Lib.Outcome RangeHandler
open CacheTypes (FilePath NewCacheMetadata ObjectMetadata)
open CacheManager (ContentRange)
open Journal (JournalEntry)
open DiskCache (find_pending_journal_ranges)

/-! ## Upstream responses -/

/-- A `Content-Range` as sent; the total may be `*`. -/
structure SentContentRange where
  start : ℕ
  end_ : ℕ
  total : Option ℕ
deriving DecidableEq, Repr

def parse_content_range (sent : SentContentRange) : Option ContentRange :=
  match sent.total with
  | none => none
  | some total =>
    if h : sent.start ≤ sent.end_ ∧ sent.end_ < total then
      some ⟨sent.start, sent.end_, total, h.1, h.2⟩
    else none

/-- A `206` response: the headers that are read from it, all headers, and the body. -/
structure PartialContent where
  etag : Option String
  last_modified : Option String
  content_range : Option SentContentRange
  content_length : Option ℕ
  headers : List (String × String)
  body : List UInt8

/-- The headers that are not kept with an object. -/
def connection_headers : List String :=
  ["connection", "transfer-encoding", "date", "server", "x-amz-request-id", "x-amz-id-2"]

def extract_object_metadata_from_response (response : PartialContent) : ObjectMetadata :=
  { (default : ObjectMetadata) with
    etag := response.etag.getD ""
    last_modified := response.last_modified.getD ""
    content_length :=
      ((response.content_range.bind SentContentRange.total).or response.content_length).getD 0
    response_headers := response.headers.filter fun header =>
      header.1.toLower ∉ connection_headers }

/-! ## The model -/

inductive PageError where
  | lookup_failed (e : ProxyError)
  | page_load_failed (e : ProxyError)
  | page_assembly_failed (e : ProxyError)
  | page_fetch_failed
  | failed_to_store_page_range
  | CacheVersionMismatch (cached_etag : String)
  | S3Error (message : String)
deriving DecidableEq, Repr

/-- `FilledPage`, with the number of its bytes that came out of a cache tier. -/
structure FilledPage where
  data : List UInt8
  etag : String
  object_size : Option ℕ
  bytes_from_cache : ℕ
deriving DecidableEq, Repr

/-- A `RangeOverlap` whose cached ranges all carry one etag and one date. -/
structure PageOverlap extends RangeOverlap where
  etag : String
  last_modified : String

def PageOverlap.all_missing (page : RangeSpec) : PageOverlap :=
  ⟨RangeOverlap.all_missing page, "", ""⟩

/-- What a lookup meets: the records that the handler and then the disk cache read, and the
journals, which are read twice. -/
structure OverlapRun where
  now : ℕ
  shared_storage_mode : Bool
  handler_read : Option NewCacheMetadata
  disk_cache_read : Option NewCacheMetadata
  journals : List JournalEntry
  journals_later : List JournalEntry

/-- How the loop of `fill_page` goes. -/
inductive Coordination where
  | fetcher (answer : RangeSpec → Option PartialContent) (stored : Bool)
  | fetch_failed (message : String)
  | waited (lookup : OverlapRun) (rest : Coordination)
  | again (rest : Coordination)

/-- What filling one page meets. `load` is `load_range_data_with_cache` for a range with an
etag. -/
structure PageRun where
  has_range_conditional : Bool
  ram : Option (List UInt8)
  lookup : OverlapRun
  load : String → Load
  coordination : Coordination

/-- A range is joined to the last merged one, or becomes the last. -/
def merge_into_last (merged : List RangeSpec) (r : RangeSpec) : List RangeSpec :=
  match merged.getLast? with
  | some last =>
    if r.start ≤ u64_saturating_add last.end_ 1 then
      merged.dropLast ++ [⟨last.start, max last.end_ r.end_⟩]
    else merged ++ [r]
  | none => merged ++ [r]

def calculate_missing_ranges_for_page (page : RangeSpec) (covered : List RangeSpec) :
    Outcome ProxyError (List RangeSpec) :=
  if covered.isEmpty then ok [page]
  else
    let merged := (sort_by_key Span.start covered).foldl merge_into_last []
    missing_loop page page.start merged

/-- `fetch_missing_ranges`. Failed fetches are dropped, as long as one succeeds. -/
def fetch_missing_ranges (missing : List RangeSpec) (answer : RangeSpec → Option PartialContent) :
    Outcome PageError (List (RangeSpec × PartialContent)) :=
  let fetched := missing.filterMap fun range => (answer range).map fun response => (range, response)
  if fetched.isEmpty then err .page_fetch_failed else ok fetched

def fetched_ranges (overlap : PageOverlap) (answer : RangeSpec → Option PartialContent) :
    Outcome PageError (List (RangeSpec × PartialContent)) :=
  if overlap.missing_ranges.isEmpty then ok []
  else fetch_missing_ranges overlap.missing_ranges answer

def segment_etags (overlap : PageOverlap) (fetched : List (RangeSpec × PartialContent)) :
    List String :=
  overlap.cached_ranges.map (fun _ => overlap.etag) ++
    fetched.map fun f => f.2.etag.getD ""

def fetch_and_cache_page_missing_ranges (load : String → Load)
    (answer : RangeSpec → Option PartialContent) (stored : Bool) (page : RangeSpec)
    (overlap : PageOverlap) : Outcome PageError FilledPage := do
  let fetched ← fetched_ranges overlap answer
  if stored = false then err .failed_to_store_page_range
  else
    let etags := segment_etags overlap fetched
    let etag := etags.headD ""
    if etag = "" ∨ etags.tail.any fun other => other ≠ etag then err (.CacheVersionMismatch etag)
    else
      let object_size := fetched.head?.bind fun f =>
        (f.2.content_range.bind parse_content_range).map ContentRange.total_size
      let merged ← (merge_range_segments (load overlap.etag) page overlap.cached_ranges
        (fetched.map fun f => (f.1, f.2.body))).map_err .page_assembly_failed
      ok ⟨merged.data, etag, object_size, merged.bytes_from_cache⟩

def PageOverlap.first_etag (overlap : PageOverlap) : String :=
  if overlap.cached_ranges.isEmpty then "" else overlap.etag

/-- `load_page_from_cache`, the page. -/
def load_page_from_cache (load : String → Load) (page : RangeSpec) (overlap : PageOverlap) :
    Outcome PageError FilledPage := do
  let merged ← (merge_range_segments (load overlap.etag) page overlap.cached_ranges []).map_err
    .page_load_failed
  ok ⟨merged.data, overlap.first_etag, none, merged.bytes_from_cache⟩

section Fill

variable (object_version_id : String → FilePath) (cache_key : String)

def OverlapRun.request (run : OverlapRun) (page : RangeSpec) : DiskCache.Request :=
  ⟨cache_key, page.start, page.end_, run.now, run.shared_storage_mode, run.journals⟩

def find_page_overlap (page : RangeSpec) (current_etag : Option String) (run : OverlapRun) :
    Outcome PageError PageOverlap := do
  let overlap ← (find_cached_ranges object_version_id (run.request cache_key page)
    ⟨none, run.handler_read, run.disk_cache_read⟩ current_etag .FreshServe).map_err .lookup_failed
  let found : PageOverlap :=
    { overlap with
      etag := (run.handler_read.map fun m => m.object_metadata.etag).getD ""
      last_modified := (run.handler_read.map fun m => m.object_metadata.last_modified).getD "" }
  if overlap.can_serve_from_cache || !overlap.cached_ranges.isEmpty then ok found
  else
    let journal_ranges := find_pending_journal_ranges object_version_id
      { run.request cache_key page with journals := run.journals_later } current_etag
    if journal_ranges.isEmpty then ok found
    else
      let covered := journal_ranges.map fun r =>
        ⟨max page.start r.start, min page.end_ r.end_⟩
      let missing_ranges ← (calculate_missing_ranges_for_page page covered).map_err .lookup_failed
      ok
        { cached_ranges := journal_ranges.map fun r => ⟨r.start, r.end_⟩
          missing_ranges := missing_ranges
          can_serve_from_cache := missing_ranges.isEmpty
          stored_freshness := .Fresh
          etag := current_etag.getD ""
          last_modified := "" }

/-- The loop of `fill_page`. A request that becomes the fetcher goes by its first lookup. -/
def fill_page_loop (load : String → Load) (page : RangeSpec) (current_etag : Option String)
    (overlap : PageOverlap) : Coordination → Outcome PageError FilledPage
  | .fetcher answer stored => fetch_and_cache_page_missing_ranges load answer stored page overlap
  | .fetch_failed message => err (.S3Error message)
  | .waited lookup rest => do
    let later ← find_page_overlap object_version_id cache_key page current_etag lookup
    if later.can_serve_from_cache then load_page_from_cache load page later
    else fill_page_loop load page current_etag overlap rest
  | .again rest => fill_page_loop load page current_etag overlap rest

def PageRun.ram_hit (run : PageRun) (current_etag : Option String) : Option (List UInt8 × String) :=
  if run.has_range_conditional then none
  else current_etag.bind fun etag => run.ram.map fun data => (data, etag)

/-- The first lookup. A conditional header makes the whole page count as missing. -/
def PageRun.first_overlap (page : RangeSpec) (current_etag : Option String) (run : PageRun) :
    Outcome PageError PageOverlap :=
  if run.has_range_conditional then ok (.all_missing page)
  else find_page_overlap object_version_id cache_key page current_etag run.lookup

def fill_page (page : RangeSpec) (current_etag : Option String) (run : PageRun) :
    Outcome PageError FilledPage :=
  match run.ram_hit current_etag with
  | some (data, etag) => ok ⟨data, etag, none, data.length⟩
  | none => do
    let overlap ← run.first_overlap object_version_id cache_key page current_etag
    if overlap.can_serve_from_cache then load_page_from_cache run.load page overlap
    else
      fill_page_loop object_version_id cache_key run.load page current_etag overlap run.coordination

end Fill

/-! ## What is missing of a page -/

section Missing

theorem foldl_merge_into_last (merged : List RangeSpec) (current : RangeSpec)
    (l : List RangeSpec) :
    l.foldl merge_into_last (merged ++ [current]) = merged ++ merge_ranges_loop current l := by
  induction l generalizing merged current with
  | nil => rfl
  | cons r rest ih =>
    have hlast : (merged ++ [current]).getLast? = some current := List.getLast?_concat
    rw [List.foldl_cons, merge_into_last, hlast, merge_ranges_loop]
    dsimp only
    split_ifs
    · rw [List.dropLast_concat, ih]
    · rw [ih, List.append_assoc, List.singleton_append]

theorem calculate_missing_ranges_for_page_eq (page : RangeSpec) (covered : List RangeSpec) :
    calculate_missing_ranges_for_page page covered = calculate_missing_ranges page covered := by
  have hmerged : (sort_by_key Span.start covered).foldl merge_into_last [] =
      merge_ranges covered := by
    unfold merge_ranges
    cases sort_by_key Span.start covered with
    | nil => rfl
    | cons current rest => exact foldl_merge_into_last [] current rest
  unfold calculate_missing_ranges_for_page calculate_missing_ranges
  rw [hmerged]

/-- **The missing ranges are the uncovered intervals** of the request exactly if no covered range
lies past it with a hole between. -/
theorem missing_ranges_exact_iff (requested : RangeSpec) (covered : List RangeSpec) :
    calculate_missing_ranges_for_page requested covered =
        calculate_missing_ranges requested covered ∧
      (requested.start ≤ requested.end_ → Span.Proper covered →
        (∀ a ∈ covered, a.end_ < u64_max) →
        ((∃ missing, calculate_missing_ranges requested covered = ok missing ∧
          Uncovered requested covered missing) ↔ NoIsland requested covered)) := by
  refine ⟨calculate_missing_ranges_for_page_eq requested covered, ?_⟩
  intro hreq hproper hmax
  exact calculate_missing_ranges_uncovered_iff hreq hproper hmax

theorem missing_ranges_of_overlapping :
    (∃ missing, calculate_missing_ranges ⟨0, 9⟩ [⟨5, 12⟩, ⟨2, 3⟩] = ok missing ∧
      Uncovered ⟨0, 9⟩ [⟨5, 12⟩, ⟨2, 3⟩] missing) ↔
        NoIsland ⟨0, 9⟩ [⟨5, 12⟩, ⟨2, 3⟩] :=
  (missing_ranges_exact_iff ⟨0, 9⟩ [⟨5, 12⟩, ⟨2, 3⟩]).2 (by decide) (by simp [Span.Proper])
    (by simp [u64_max])

/-- A range past the request makes what is missing reach up to it. -/
theorem missing_range_reaches_past_request :
    calculate_missing_ranges ⟨0, 9⟩ [⟨20, 29⟩] = ok [⟨0, 19⟩] ∧
      ¬ ∃ missing, calculate_missing_ranges ⟨0, 9⟩ [⟨20, 29⟩] = ok missing ∧
        Uncovered ⟨0, 9⟩ [⟨20, 29⟩] missing := by
  have heq : calculate_missing_ranges ⟨0, 9⟩ [⟨20, 29⟩] = ok [⟨0, 19⟩] := by
    decide +kernel
  refine ⟨heq, ?_⟩
  rintro ⟨missing, hmissing, h⟩
  obtain rfl := Outcome.ok.inj hmissing
  have hten := (h.exact 10).mp (by decide)
  exact absurd hten.1.2 (by decide)

end Missing

/-! ## Honest reads -/

section Honest

variable (contents : String → List UInt8)

def PartialContent.object (response : PartialContent) : List UInt8 :=
  contents (response.etag.getD "")

/-- The body is the bytes that the `Content-Range` names. -/
def PartialContent.Names (response : PartialContent) : Prop :=
  ∀ sent ∈ response.content_range,
    response.body = object_bytes (response.object contents) sent.start sent.end_ ∧
      sent.end_ < (response.object contents).length ∧
      ∀ total ∈ sent.total, total = (response.object contents).length

/-- The `Content-Range` is the range that was asked for, up to the end of the object. -/
def PartialContent.Answers (asked : RangeSpec) (response : PartialContent) : Prop :=
  ∃ sent ∈ response.content_range, sent.start = asked.start ∧
    sent.end_ = min asked.end_ ((response.object contents).length - 1)

/-- Every fetch is answered with the bytes that were asked for. -/
def Coordination.Honest : Coordination → Prop
  | .fetcher answer _ => ∀ asked response, answer asked = some response →
      response.Names contents ∧ response.Answers contents asked
  | .fetch_failed _ => True
  | .waited _ rest => rest.Honest
  | .again rest => rest.Honest

/-- What is read for a page under an etag is of the version the etag names. -/
structure PageRun.Faithful (page : RangeSpec) (current_etag : Option String) (run : PageRun) :
    Prop where
  ram : ∀ etag ∈ current_etag, ∀ data ∈ run.ram,
    data = object_bytes (contents etag) page.start page.end_ ∧
      data.length = page.end_ + 1 - page.start
  load : ∀ etag idx range data ram_hit, run.load etag idx range = ok (data, ram_hit) →
    data = object_bytes (contents etag) range.start range.end_
  upstream : run.coordination.Honest contents

/-- The page has the bytes of its version, all of them. -/
def FilledPage.Filled (page : RangeSpec) (filled : FilledPage) : Prop :=
  filled.data = object_bytes (contents filled.etag) page.start page.end_ ∧
    filled.data.length = page.end_ + 1 - page.start

variable {contents}

theorem object_bytes_min_last (obj : List UInt8) (lo hi : ℕ) (hobj : 0 < obj.length) :
    object_bytes obj lo (min hi (obj.length - 1)) = object_bytes obj lo hi := by
  unfold object_bytes
  simp only [List.extract_eq_take_drop]
  rw [← List.take_eq_take_iff.mpr]
  rw [List.length_drop]
  omega

theorem PartialContent.Answers.body {asked : RangeSpec} {response : PartialContent}
    (hanswers : response.Answers contents asked) (hnames : response.Names contents) :
    response.body = object_bytes (response.object contents) asked.start asked.end_ := by
  obtain ⟨sent, hsent, hstart, hend⟩ := hanswers
  obtain ⟨hbody, hlt, -⟩ := hnames sent hsent
  rw [hbody, hstart, hend, object_bytes_min_last _ _ _ (by omega)]

variable {overlap : PageOverlap} {answer : RangeSpec → Option PartialContent}

theorem answer_of_mem_fetched_ranges {fetched : List (RangeSpec × PartialContent)}
    (h : fetched_ranges overlap answer = ok fetched) {f : RangeSpec × PartialContent}
    (hf : f ∈ fetched) : answer f.1 = some f.2 := by
  unfold fetched_ranges fetch_missing_ranges at h
  split at h
  · obtain rfl := ok.inj h
    cases hf
  · rw [guard_eq_ok] at h
    obtain rfl := ok.inj h.2
    obtain ⟨range, -, hrange⟩ := List.mem_filterMap.mp hf
    obtain ⟨response, hresponse, rfl⟩ := Option.map_eq_some_iff.mp hrange
    exact hresponse

theorem etags_of_one_version {etags : List String} {etag : String} (hetag : etag = etags.headD "")
    (hone : ¬ (etag = "" ∨ (etags.tail.any fun other => other ≠ etag) = true)) :
    ∀ other ∈ etags, other = etag := by
  intro other hother
  cases etags with
  | nil => cases hother
  | cons first rest =>
    rcases List.mem_cons.mp hother with rfl | hrest
    · exact hetag.symm
    · by_contra hne
      refine hone (.inr (List.any_eq_true.mpr ⟨other, hrest, ?_⟩))
      exact decide_eq_true hne

variable {filled : FilledPage} {page : RangeSpec} {load : String → Load}
  {object_version_id : String → FilePath} {cache_key : String} {current_etag : Option String}

section Load

variable (hload : ∀ etag idx range data ram_hit, load etag idx range = ok (data, ram_hit) →
  data = object_bytes (contents etag) range.start range.end_)

include hload

theorem cached_of_load {etag : String} (hetag : ∀ c ∈ overlap.cached_ranges, overlap.etag = etag) :
    ∀ c ∈ overlap.cached_ranges, ∀ idx data ram_hit, load overlap.etag idx c = ok (data, ram_hit) →
      data = object_bytes (contents etag) c.start c.end_ := by
  intro c hc idx data ram_hit hread
  rw [← hetag c hc]
  exact hload _ idx c data ram_hit hread

theorem fetch_and_cache_filled {stored : Bool}
    (hupstream : (Coordination.fetcher answer stored).Honest contents)
    (h : fetch_and_cache_page_missing_ranges load answer stored page overlap = ok filled) :
    filled.Filled contents page := by
  simp only [fetch_and_cache_page_missing_ranges, bind_eq_ok, guard_eq_ok, map_err_eq_ok,
    ok.injEq] at h
  obtain ⟨fetched, hfetched, -, hone, merged, hmerged, rfl⟩ := h
  have hall := etags_of_one_version rfl hone
  have hcached := cached_of_load hload fun c hc =>
    hall overlap.etag (List.mem_append_left _ (List.mem_map.mpr ⟨c, hc, rfl⟩))
  have hbodies : ∀ f ∈ fetched.map fun f => (f.1, f.2.body),
      f.2 = object_bytes (contents ((segment_etags overlap fetched).headD "")) f.1.start
        f.1.end_ := by
    intro f hf
    obtain ⟨g, hg, rfl⟩ := List.mem_map.mp hf
    obtain ⟨hnames, hanswers⟩ := hupstream g.1 g.2 (answer_of_mem_fetched_ranges hfetched hg)
    rw [← hall (g.2.etag.getD "") (List.mem_append_right _ (List.mem_map.mpr ⟨g, hg, rfl⟩))]
    exact hanswers.body hnames
  obtain ⟨hdata, hlength, -⟩ := merge_range_segments_eq_ok hcached hbodies hmerged
  exact ⟨hdata, hlength⟩

theorem load_page_from_cache_filled (h : load_page_from_cache load page overlap = ok filled) :
    filled.Filled contents page := by
  simp only [load_page_from_cache, bind_eq_ok, map_err_eq_ok, ok.injEq] at h
  obtain ⟨merged, hmerged, rfl⟩ := h
  have hcached := cached_of_load hload fun c hc =>
    (if_neg (by simpa using List.ne_nil_of_mem hc) : overlap.first_etag = overlap.etag).symm
  obtain ⟨hdata, hlength, -⟩ := merge_range_segments_eq_ok hcached
    (fun f hf => absurd hf List.not_mem_nil) hmerged
  exact ⟨hdata, hlength⟩

theorem fill_page_loop_filled {coordination : Coordination}
    (hupstream : coordination.Honest contents)
    (h : fill_page_loop object_version_id cache_key load page current_etag overlap coordination =
      ok filled) : filled.Filled contents page := by
  induction coordination with
  | fetcher answer stored => exact fetch_and_cache_filled hload hupstream h
  | fetch_failed message => cases h
  | waited lookup rest ih =>
    obtain ⟨later, -, h⟩ := bind_eq_ok.mp h
    split at h
    · exact load_page_from_cache_filled hload h
    · exact ih hupstream h
  | again rest ih => exact ih hupstream h

end Load

/-- **A filled page has the bytes of its version.** -/
theorem fill_page_filled {run : PageRun} (hrun : run.Faithful contents page current_etag)
    (h : fill_page object_version_id cache_key page current_etag run = ok filled) :
    filled.Filled contents page := by
  unfold fill_page at h
  split at h
  · rename_i data etag hhit
    obtain rfl := ok.inj h
    unfold PageRun.ram_hit at hhit
    split_ifs at hhit
    obtain ⟨_, hetag, hram⟩ := Option.bind_eq_some_iff.mp hhit
    obtain ⟨_, hdata, hpair⟩ := Option.map_eq_some_iff.mp hram
    obtain ⟨rfl, rfl⟩ := Prod.mk.inj hpair
    exact hrun.ram _ hetag _ hdata
  · obtain ⟨overlap, -, h⟩ := bind_eq_ok.mp h
    split at h
    · exact load_page_from_cache_filled hrun.load h
    · exact fill_page_loop_filled hrun.load hrun.upstream h

end Honest

end HybridCache.HttpProxy
