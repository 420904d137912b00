/-
Answering a small range request from whole pages (`try_widened_range_request`,
`serve_widened_pages`, `handle_widened_suffix_response` in `http_proxy.rs`).

The request is resolved against the size at hand, its pages are filled, and the bytes are cut out
of them. The pages must be of the version of the record on disk. The size is checked only against
pages that were fetched.
-/
import HybridCache.HttpProxy.PageFill
import HybridCache.RangeHandler.Pages

namespace HybridCache.HttpProxy

open Lib Lib.Outcome RangeHandler List
open CacheTypes (FilePath NewCacheMetadata ObjectMetadata)
open CacheManager (ContentRange)
open Journal (add_of_first_ten record_of)

/-! ## The model -/

inductive Relayed where
  | fallback
  | upstream
deriving DecidableEq, Repr

/-- A `206` from pages or a slice; `etag` is the version they are of. -/
structure WidenedResponse where
  range : RangeSpec
  total_size : ℕ
  body : List UInt8
  etag : String
deriving DecidableEq, Repr

/-- `build_content_range_header`. -/
def WidenedResponse.content_range (response : WidenedResponse) : String :=
  let start := response.range.start
  let end_ := response.range.end_
  let total := response.total_size
  s!"bytes {start}-{end_}/{total}"

/-- A `GET` with a `Range` header. `preloaded_metadata` is the record from the metadata cache,
`current_etag` the etag of the one on disk. -/
structure WidenedRequest where
  range_signed : Bool
  range_header : RangeHeader
  page_size : ℕ
  preloaded_metadata : Option NewCacheMetadata
  current_etag : Option String

/-- The size the request is resolved against; zero counts as unknown (`handle_range_request`). -/
def WidenedRequest.content_length (request : WidenedRequest) : Option ℕ :=
  request.preloaded_metadata.bind fun m =>
    if m.object_metadata.content_length > 0 then some m.object_metadata.content_length else none

/-- How the fetch of a widened suffix ends. -/
inductive SuffixResponse where
  | failed
  | other_status
  | partial_content (response : PartialContent)

/-- What the request meets; `cached_metadata` is the record that is read once the pages are
filled. -/
structure WidenedRun where
  pages : RangeSpec → PageRun
  cached_metadata : Option NewCacheMetadata
  suffix_response : SuffixResponse

/-- `resolve_cached_metadata`. -/
def WidenedRun.object_metadata (run : WidenedRun) : ObjectMetadata :=
  (run.cached_metadata.map NewCacheMetadata.object_metadata).getD default

/-- `handle_widened_suffix_response`, on a `206`. -/
def handle_widened_suffix_response (n : ℕ) (response : PartialContent) :
    Outcome Relayed WidenedResponse :=
  match response.content_range.bind parse_content_range with
  | none => err .upstream
  | some returned =>
    let requested_start := returned.total_size - n
    let requested_end := returned.total_size - 1
    if requested_start < returned.start ∨ requested_end > returned.end_ then err .fallback
    else
      let slice_start := requested_start - returned.start
      let slice_end := slice_start + (requested_end - requested_start + 1)
      if slice_end > response.body.length then err .fallback
      else
        ok
          { range := ⟨requested_start, requested_end⟩
            total_size := returned.total_size
            body := response.body.extract slice_start slice_end
            etag := response.etag.getD "" }

def fetch_widened_suffix_size_unknown (n : ℕ) : SuffixResponse → Outcome Relayed WidenedResponse
  | .failed => err .fallback
  | .other_status => err .upstream
  | .partial_content response => handle_widened_suffix_response n response

/-- The pages are of one version, with the size the request was resolved against. -/
def one_version (etag : String) (filled : List FilledPage) (current_etag : Option String)
    (resolved_size : Option ℕ) : Bool :=
  etag ≠ "" && (filled.all fun page => page.etag = etag) &&
    (current_etag.all fun current => current = etag) &&
    (filled.filterMap FilledPage.object_size).all fun size =>
      resolved_size.all fun resolved => resolved = size

section Serve

variable (object_version_id : String → FilePath) (cache_key : String)

def fill_pages (current_etag : Option String) (runs : RangeSpec → PageRun) :
    List RangeSpec → Outcome PageError (List FilledPage)
  | [] => ok []
  | page :: rest => do
    let filled ← fill_page object_version_id cache_key page current_etag (runs page)
    let others ← fill_pages current_etag runs rest
    ok (filled :: others)

def assemble_pages (original : RangeSpec) (target_start : ℕ) (current_etag : Option String)
    (resolved_size : Option ℕ) (cached_metadata : ObjectMetadata) (first : FilledPage)
    (others : List FilledPage) : Outcome Relayed WidenedResponse :=
  if one_version first.etag (first :: others) current_etag resolved_size = false ∨
      cached_metadata.etag ≠ first.etag then err .fallback
  else
    let widened_data := (first :: others).flatMap FilledPage.data
    let slice_start := original.start - target_start
    let slice_len := original.end_ - original.start + 1
    if slice_start + slice_len > widened_data.length then err .fallback
    else
      ok
        { range := original
          total_size :=
            if cached_metadata.content_length > 0 then cached_metadata.content_length
            else original.end_ + 1
          body := widened_data.extract slice_start (slice_start + slice_len)
          etag := cached_metadata.etag }

def serve_widened_pages (original : RangeSpec) (pages : List RangeSpec)
    (request : WidenedRequest) (run : WidenedRun) : Outcome Relayed WidenedResponse := do
  let filled ← (fill_pages object_version_id cache_key request.current_etag run.pages
    pages).map_err fun _ => .fallback
  match filled, pages with
  | first :: others, target :: _ =>
    assemble_pages original target.start request.current_etag request.content_length
      run.object_metadata first others
  | _, _ => panic

def serve_range (original : RangeSpec) (pages : Outcome ProxyError (List RangeSpec))
    (request : WidenedRequest) (run : WidenedRun) : Outcome Relayed WidenedResponse := do
  let pages ← pages.map_err fun _ => .fallback
  serve_widened_pages object_version_id cache_key original pages request run

/-- `try_widened_range_request`; `none` if the request is not widened. -/
def try_widened_range_request (request : WidenedRequest) (run : WidenedRun) :
    Option (Outcome Relayed WidenedResponse) :=
  if request.range_signed then none
  else
    match request.range_header with
    | .suffix n =>
      if n = 0 ∨ n ≥ request.page_size then none
      else
        match request.content_length with
        | some size => some (serve_range object_version_id cache_key ⟨size - n, size - 1⟩
            (suffix_page_target n request.page_size size) request run)
        | none => some (fetch_widened_suffix_size_unknown n run.suffix_response)
    | header =>
      match parse_range_header header request.content_length with
      | some range =>
        if range.end_ - range.start + 1 ≥ request.page_size then none
        else some (serve_range object_version_id cache_key range
          (overlapping_pages range.start range.end_ request.page_size
            (request.content_length.getD u64_max)) request run)
      | none => none

end Serve

/-- The pages that a request is widened to. -/
def WidenedRequest.target (request : WidenedRequest) : Outcome ProxyError (List RangeSpec) :=
  match request.range_header, request.content_length with
  | .suffix n, some size => suffix_page_target n request.page_size size
  | .suffix _, none => ok []
  | header, size => (parse_range_header header size).elim (ok []) fun range =>
    overlapping_pages range.start range.end_ request.page_size (size.getD u64_max)

/-! ## What an answer should be -/

/-- The answer is the bytes that the header selects of one version, and says so. -/
def WidenedResponse.Exact (contents : String → List UInt8) (header : RangeHeader)
    (response : WidenedResponse) : Prop :=
  header.Selects (contents response.etag).length response.range ∧
    response.body =
      object_bytes (contents response.etag) response.range.start response.range.end_ ∧
    response.total_size = (contents response.etag).length

/-- The sizes at hand are those of the version on record: the one the request was resolved with,
as far as it matters, and the recorded one, for which the end of the range stands in if it is
zero. -/
def WidenedRequest.PagesFit (contents : String → List UInt8) (request : WidenedRequest)
    (run : WidenedRun) : Prop :=
  let size := (contents run.object_metadata.etag).length
  request.range_header.SizeFits request.content_length size ∧
    (run.object_metadata.content_length = size ∨
      run.object_metadata.content_length = 0 ∧
        ∀ range ∈ parse_range_header request.range_header request.content_length,
          range.end_ + 1 = size)

/-- Only a suffix of an object of unknown size does not need them. -/
def WidenedRequest.SizesFit (contents : String → List UInt8) (request : WidenedRequest)
    (run : WidenedRun) : Prop :=
  (request.content_length = none ∧ ∃ n, request.range_header = .suffix n) ∨
    request.PagesFit contents run

section Exact

variable {contents : String → List UInt8}

theorem WidenedRequest.content_length_pos (request : WidenedRequest) :
    ∀ length ∈ request.content_length, 0 < length := by
  intro length hlength
  obtain ⟨m, -, hm⟩ := Option.bind_eq_some_iff.mp hlength
  split_ifs at hm with hpos
  exact Option.some.inj hm ▸ hpos

theorem handle_widened_suffix_response_exact {n : ℕ} {response : PartialContent}
    {widened : WidenedResponse} (hn : 0 < n) (hnames : response.Names contents)
    (h : handle_widened_suffix_response n response = ok widened) :
    widened.Exact contents (.suffix n) := by
  unfold handle_widened_suffix_response at h
  split at h
  · cases h
  rename_i returned hreturned
  obtain ⟨sent, hsent, hparsed⟩ := Option.bind_eq_some_iff.mp hreturned
  obtain ⟨hbody, -, htotal⟩ := hnames sent hsent
  unfold parse_content_range at hparsed
  split at hparsed
  · cases hparsed
  rename_i total hsent_total
  split_ifs at hparsed with hvalid
  cases hparsed
  have htotal := htotal total hsent_total
  simp only [guard_eq_ok, ok.injEq] at h
  obtain ⟨hcover, -, rfl⟩ := h
  unfold PartialContent.object at hbody htotal
  refine ⟨⟨?_, ?_, ?_, ?_⟩, ?_, htotal⟩
  · dsimp only
    omega
  · dsimp only
    omega
  · rw [htotal]
  · rw [htotal]
  · dsimp only
    rw [hbody]
    unfold object_bytes
    rw [extract_extract (by omega)]
    congr 1 <;> omega

variable {object_version_id : String → FilePath} {cache_key : String}

variable {pages : List RangeSpec} {filled : List FilledPage}

theorem fill_pages_filled {current_etag : Option String} {runs : RangeSpec → PageRun}
    (hruns : ∀ page ∈ pages, (runs page).Faithful contents page current_etag)
    (h : fill_pages object_version_id cache_key current_etag runs pages = ok filled) :
    List.Forall₂ (fun page (f : FilledPage) => f.Filled contents page) pages filled := by
  induction pages generalizing filled with
  | nil =>
    obtain rfl := ok.inj h
    exact .nil
  | cons page rest ih =>
    simp only [fill_pages, bind_eq_ok, ok.injEq] at h
    obtain ⟨first, hfirst, others, hothers, rfl⟩ := h
    exact .cons (fill_page_filled (hruns page mem_cons_self) hfirst)
      (ih (fun p hp => hruns p (mem_cons_of_mem page hp)) hothers)

theorem flatMap_data_of_tiles {start end_ : ℕ} {target : RangeSpec} {rest : List RangeSpec}
    {etag : String} (htiles : Tiles start end_ (target :: rest))
    (hfilled : List.Forall₂ (fun page (f : FilledPage) => f.Filled contents page) (target :: rest)
      filled) (hetag : ∀ f ∈ filled, f.etag = etag) :
    target.start ≤ start ∧ ∃ last, end_ ≤ last ∧
      filled.flatMap FilledPage.data = (contents etag).extract target.start (last + 1) := by
  cases htiles with
  | one _ hstart hend =>
    obtain ⟨f, _, hf, hnil, rfl⟩ := forall₂_cons_left_iff.mp hfilled
    obtain rfl := forall₂_nil_left_iff.mp hnil
    refine ⟨hstart, target.end_, hend, ?_⟩
    rw [← hetag f mem_cons_self, flatMap_cons, flatMap_nil, append_nil]
    exact hf.1
  | two _ last hstart hfirst hnext hlast hend =>
    obtain ⟨f, _, hf, htail, rfl⟩ := forall₂_cons_left_iff.mp hfilled
    obtain ⟨g, _, hg, hnil, rfl⟩ := forall₂_cons_left_iff.mp htail
    obtain rfl := forall₂_nil_left_iff.mp hnil
    have hf_etag := hetag f mem_cons_self
    have hg_etag := hetag g (mem_cons_of_mem _ mem_cons_self)
    refine ⟨hstart, last.end_, hend, ?_⟩
    rw [flatMap_cons, flatMap_cons, flatMap_nil, append_nil, hf.1, hg.1, hf_etag, hg_etag]
    unfold object_bytes
    rw [hnext, extract_append_extract (by omega) (by omega)]

variable {original : RangeSpec} {request : WidenedRequest} {run : WidenedRun}
  {response : WidenedResponse}

/-- What is cut out of the pages: the bytes of the range that was resolved, which the version on
record therefore has. -/
theorem serve_widened_pages_eq_ok
    (hpages : ∀ page ∈ pages, (run.pages page).Faithful contents page request.current_etag)
    (htiles : Tiles original.start original.end_ pages) (hle : original.start ≤ original.end_)
    (h : serve_widened_pages object_version_id cache_key original pages request run = ok response) :
    response.range = original ∧ response.etag = run.object_metadata.etag ∧
      response.total_size = (if run.object_metadata.content_length > 0 then
        run.object_metadata.content_length else original.end_ + 1) ∧
      response.body =
        object_bytes (contents run.object_metadata.etag) original.start original.end_ ∧
      original.end_ < (contents run.object_metadata.etag).length := by
  unfold serve_widened_pages at h
  simp only [bind_eq_ok, map_err_eq_ok] at h
  obtain ⟨filled, hfilled, h⟩ := h
  have hfilled := fill_pages_filled hpages hfilled
  cases hfilled with
  | nil => cases htiles
  | @cons target first rest others hfirst hothers =>
    unfold assemble_pages at h
    simp only [guard_eq_ok, ok.injEq] at h
    obtain ⟨hversion, hslice, rfl⟩ := h
    rw [not_or, Bool.not_eq_false, not_not] at hversion
    obtain ⟨hone, hrecord⟩ := hversion
    unfold one_version at hone
    simp only [Bool.and_eq_true, List.all_eq_true, decide_eq_true_eq] at hone
    obtain ⟨⟨⟨-, hetags⟩, -⟩, -⟩ := hone
    obtain ⟨hstart, last, hlast, hdata⟩ :=
      flatMap_data_of_tiles htiles (.cons hfirst hothers) hetags
    rw [← hrecord] at hdata
    rw [hdata] at hslice ⊢
    have hwindow : ((contents run.object_metadata.etag).extract target.start (last + 1)).extract
        (original.start - target.start)
        (original.start - target.start + (original.end_ - original.start + 1)) =
          object_bytes (contents run.object_metadata.etag) original.start original.end_ := by
      rw [extract_extract (by omega)]
      congr 1 <;> omega
    refine ⟨rfl, rfl, rfl, hwindow, ?_⟩
    rw [length_extract] at hslice
    omega

theorem serve_range_exact_iff {pages : Outcome ProxyError (List RangeSpec)}
    (hpages : ∀ ps, pages = ok ps → ∀ page ∈ ps,
      (run.pages page).Faithful contents page request.current_etag)
    (hparse : parse_range_header request.range_header request.content_length = some original)
    (htiles : ∀ ps, pages = ok ps → Tiles original.start original.end_ ps)
    (h : serve_range object_version_id cache_key original pages request run = ok response) :
    response.Exact contents request.range_header ↔ request.PagesFit contents run := by
  unfold serve_range at h
  simp only [bind_eq_ok, map_err_eq_ok] at h
  obtain ⟨ps, hps, h⟩ := h
  have hle := (parse_range_header_bounds hparse request.content_length_pos).1
  obtain ⟨hrange, hetag, htotal, hbody, hlt⟩ :=
    serve_widened_pages_eq_ok (hpages ps hps) (htiles ps hps) hle h
  unfold WidenedResponse.Exact WidenedRequest.PagesFit
  rw [hrange, hetag, htotal, hbody, hparse,
    parse_range_header_selects_iff hparse hle hlt request.content_length_pos]
  simp only [true_and, Option.mem_def, Option.some.injEq, forall_eq']
  refine and_congr_right fun _ => ?_
  split_ifs with hpos
  · constructor
    · exact .inl
    · rintro (hsize | ⟨hzero, -⟩)
      · exact hsize
      · omega
  · constructor
    · exact fun hsize => .inr ⟨by omega, hsize⟩
    · rintro (hsize | ⟨-, hsize⟩)
      · omega
      · exact hsize

end Exact

/-- **A widened answer is exact if the sizes fit.** Whatever the caches hold of the pages of the
target and the upstream answers, as long as each is of the version and the extent it is given for, a
`206` from pages or a slice has the bytes of the range that was resolved, of one version; it is what
the header asks for, under that version's size, if and only if the sizes at hand were those of the
version. -/
theorem widened_answer_exact_iff (object_version_id : String → FilePath) (cache_key : String)
    (contents : String → List UInt8) (request : WidenedRequest) (run : WidenedRun)
    (response : WidenedResponse)
    (hpages : ∀ pages, request.target = ok pages → ∀ page ∈ pages,
      (run.pages page).Faithful contents page request.current_etag)
    (hsuffix : ∀ r, run.suffix_response = .partial_content r → r.Names contents)
    (h : try_widened_range_request object_version_id cache_key request run = some (ok response)) :
    response.Exact contents request.range_header ↔ request.SizesFit contents run := by
  unfold try_widened_range_request at h
  split_ifs at h
  split at h
  · rename_i n hheader
    split_ifs at h with hn
    split at h
    · -- a suffix, resolved against the size at hand
      rename_i size hsize
      have hparse : parse_range_header request.range_header request.content_length =
          some ⟨size - n, size - 1⟩ := by
        rw [hheader, hsize]
        exact if_neg (by omega)
      have htarget : request.target = suffix_page_target n request.page_size size := by
        simp only [WidenedRequest.target, hheader, hsize]
      rw [serve_range_exact_iff (htarget ▸ hpages) hparse
        (fun ps hps => suffix_page_target_tiles (by omega) hps) (Option.some.inj h)]
      refine (or_iff_right ?_).symm
      rintro ⟨hnone, -⟩
      rw [hsize] at hnone
      cases hnone
    · -- a suffix of an object of unknown size
      rename_i hnone
      have h := Option.some.inj h
      unfold fetch_widened_suffix_size_unknown at h
      split at h
      · cases h
      · cases h
      · rename_i r hr
        have hexact := handle_widened_suffix_response_exact (by omega) (hsuffix r hr) h
        rw [← hheader] at hexact
        exact iff_of_true hexact (.inl ⟨hnone, n, hheader⟩)
  · rename_i hheader
    split at h
    swap
    · cases h
    rename_i range hparse
    split_ifs at h with hshort
    obtain ⟨-, hend⟩ := parse_range_header_bounds hparse request.content_length_pos
    have hsize : range.end_ < request.content_length.getD u64_max ∨
        request.content_length.getD u64_max = u64_max := by
      cases hlength : request.content_length with
      | none => exact .inr rfl
      | some length => exact .inl (hend length hlength)
    have htarget : request.target = overlapping_pages range.start range.end_ request.page_size
        (request.content_length.getD u64_max) := by
      unfold WidenedRequest.target
      split
      · exact absurd ‹_› (hheader _)
      · exact absurd ‹_› (hheader _)
      · rw [hparse]
        rfl
    rw [serve_range_exact_iff (htarget ▸ hpages) hparse
      (fun ps hps => overlapping_pages_tiles (by omega) hsize hps) (Option.some.inj h)]
    refine (or_iff_right ?_).symm
    rintro ⟨-, n, hn⟩
    exact hheader n hn

/-! ## Ten bytes -/

def ten_bytes (_ : String) : List UInt8 :=
  [0, 1, 2, 3, 4, 5, 6, 7, 8, 9]

def ten_bytes_record (content_length : ℕ) : NewCacheMetadata :=
  { record_of [(add_of_first_ten 1 10).range_spec] with
    object_metadata :=
      { (default : ObjectMetadata) with etag := "v", content_length := content_length }
    expires_at := 60 }

def ten_bytes_request (header : RangeHeader) (content_length : ℕ) : WidenedRequest :=
  ⟨false, header, 8, some (ten_bytes_record content_length), some "v"⟩

def from_disk (content_length : ℕ) : WidenedRun where
  pages _ :=
    { has_range_conditional := false
      ram := none
      lookup := ⟨1, true, some (ten_bytes_record content_length),
        some (ten_bytes_record content_length), [], []⟩
      load := fun etag _ range => ok (object_bytes (ten_bytes etag) range.start range.end_, false)
      coordination := .fetch_failed "" }
  cached_metadata := some (ten_bytes_record content_length)
  suffix_response := .failed

def last_eight_bytes : PartialContent where
  etag := some "v"
  last_modified := none
  content_range := some ⟨2, 9, some 10⟩
  content_length := some 8
  headers := []
  body := [2, 3, 4, 5, 6, 7, 8, 9]

def from_upstream : WidenedRun where
  pages _ :=
    { has_range_conditional := false
      ram := none
      lookup := ⟨1, true, none, none, [], []⟩
      load := fun etag _ range => ok (object_bytes (ten_bytes etag) range.start range.end_, false)
      coordination := .fetcher (fun _ => some last_eight_bytes) true }
  cached_metadata := some (ten_bytes_record 10)
  suffix_response := .failed

/-- The last two bytes, resolved against a size of five that is no longer the object's, are
answered with bytes three and four; bytes two and three of an object whose recorded length is zero
with a size of four; and the first four bytes with others, if the response to the fetch of the
page is not compared with what was asked. -/
theorem widened_answers_that_are_not_exact :
    (∃ response, try_widened_range_request (fun _ => ['v']) "bucket/object"
        (ten_bytes_request (.suffix 2) 5) (from_disk 10) = some (ok response) ∧
      response.body = [3, 4] ∧ response.content_range = "bytes 3-4/10" ∧
      ¬ response.Exact ten_bytes (.suffix 2)) ∧
    (∃ response, try_widened_range_request (fun _ => ['v']) "bucket/object"
        (ten_bytes_request (.bounded 2 3) 0) (from_disk 0) = some (ok response) ∧
      response.body = [2, 3] ∧ response.content_range = "bytes 2-3/4" ∧
      ¬ response.Exact ten_bytes (.bounded 2 3)) ∧
    (last_eight_bytes.Names ten_bytes ∧
      ∃ response, try_widened_range_request (fun _ => ['v']) "bucket/object"
        (ten_bytes_request (.bounded 0 3) 10) from_upstream = some (ok response) ∧
      response.body = [2, 3, 4, 5] ∧ response.content_range = "bytes 0-3/10" ∧
      ¬ response.Exact ten_bytes (.bounded 0 3)) := by
  refine ⟨⟨_, rfl, ?_, ?_, ?_⟩, ⟨_, rfl, ?_, ?_, ?_⟩, ?_, ⟨_, rfl, ?_, ?_, ?_⟩⟩
  · decide
  · decide
  · intro h
    exact absurd h.1.2.2.1 (by decide)
  · decide
  · decide
  · intro h
    exact absurd h.2.2 (by decide)
  · intro sent hsent
    cases hsent
    exact ⟨by decide, by decide, by decide⟩
  · decide
  · decide
  · intro h
    exact absurd h.2.1 (by decide)

/-- With the object's size, the last two bytes are the last two bytes. -/
theorem widened_answer_of_the_last_two_bytes :
    ∃ response, try_widened_range_request (fun _ => ['v']) "bucket/object"
        (ten_bytes_request (.suffix 2) 10) (from_disk 10) = some (ok response) ∧
      response.body = [8, 9] ∧ response.content_range = "bytes 8-9/10" ∧
      response.Exact ten_bytes (.suffix 2) := by
  refine ⟨_, rfl, ?_, ?_, ?_⟩
  · decide
  · decide
  · refine (widened_answer_exact_iff (fun _ => ['v']) "bucket/object" ten_bytes
      (ten_bytes_request (.suffix 2) 10) (from_disk 10) _ ?_ nofun rfl).mpr ?_
    · intro _ _ page _
      refine ⟨nofun, ?_, trivial⟩
      intro etag idx range data ram_hit hload
      exact (Prod.mk.inj (ok.inj hload)).1.symm
    · exact .inr ⟨.inl rfl, .inl rfl⟩

end HybridCache.HttpProxy
