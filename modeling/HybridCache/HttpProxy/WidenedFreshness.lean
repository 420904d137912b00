/-
How old the bytes are that widened reads serve (`fill_page`, `find_page_overlap` and
`promote_page_to_ram` in `http_proxy.rs`).

A page may come out of RAM, off disk, or out of a file that only the journals know. The first and
the last have no expiry at all, and on disk the stored expiry counts, whatever the TTL is now.
`last_validated` follows when the object was last fetched or validated.
-/
import HybridCache.CacheManager.KeyState
import HybridCache.HttpProxy.PageFill

namespace HybridCache.HttpProxy

open Lib Lib.Outcome RangeHandler
open CacheTypes (NewCacheMetadata ObjectMetadata)
open DiskCache
open CacheManager (KeyEvent KeyState consolidated_at)

/-! ## The model -/

/-- A read of one page, and what it meets. -/
structure PageRead (ι : Type) where
  instance_id : ι
  now : ℕ
  get_ttl : ℕ
  page : RangeSpec
  has_range_conditional : Bool
  shared_storage_mode : Bool
  load : String → Load
  answer : RangeSpec → Option PartialContent
  store : RangeSpec → StoreRun
  compressed_size : RangeSpec → ℕ
  ram_cache_eligible : Bool
  promoted : Bool

/-- The files of a key, the pages in the RAM of each process, and when the object was last fetched
or validated. -/
structure WidenedState (ι τ : Type) where
  key : KeyState ι τ
  ram : ι → RangeSpec → String → Option (List UInt8)
  last_validated : ℕ

def WidenedState.init {ι τ : Type} : WidenedState ι τ :=
  ⟨.init, fun _ _ _ => none, 0⟩

inductive WidenedEvent (ι τ : Type) where
  | other (event : KeyEvent ι τ)
  | ram (i : ι) (page : RangeSpec) (etag : String) (data : Option (List UInt8))
  | fill (read : PageRead ι)
  | resume (read : PageRead ι)

def upstream_time {ι τ : Type} : KeyEvent ι τ → Option ℕ
  | .version (.consolidate _ _ _ _ _ _) => none
  | event => event.time

def fetched_request (get_ttl : ℕ) (range : RangeSpec) (response : PartialContent)
    (compressed_size : ℕ) : StoreRequest where
  start := range.start
  end_ := range.end_
  data_len := response.body.length
  object_metadata := extract_object_metadata_from_response response
  content_range_end := response.content_range.map SentContentRange.end_
  ttl := get_ttl
  compressed_size := compressed_size

section Step

variable (env : KeyEnv) {ι τ : Type}

def WidenedState.current_etag (s : WidenedState ι τ) : Option String :=
  s.key.file.map fun m => m.object_metadata.etag

def WidenedState.page_run (s : WidenedState ι τ) (read : PageRead ι) (stored : Bool) : PageRun where
  has_range_conditional := read.has_range_conditional
  ram := s.current_etag.bind fun etag => s.ram read.instance_id read.page etag
  lookup := ⟨read.now, read.shared_storage_mode, s.key.file, s.key.file, s.key.versions.journals,
    s.key.versions.journals⟩
  load := read.load
  coordination := .fetcher read.answer stored

def WidenedState.overlap (s : WidenedState ι τ) (read : PageRead ι) :
    Option (Outcome PageError PageOverlap) :=
  match (s.page_run read true).ram_hit s.current_etag with
  | some _ => none
  | none => some ((s.page_run read true).first_overlap env.object_version_id env.cache_key read.page
      s.current_etag)

def WidenedState.fetched (s : WidenedState ι τ) (read : PageRead ι) :
    List (RangeSpec × PartialContent) :=
  match s.overlap env read with
  | some (ok overlap) =>
    if overlap.can_serve_from_cache then []
    else
      match fetched_ranges overlap read.answer with
      | ok fetched => fetched
      | _ => []
  | _ => []

def found_page (read : PageRead ι) : Outcome PageError PageOverlap → Option FilledPage
  | ok overlap =>
    if overlap.can_serve_from_cache then
      match load_page_from_cache read.load read.page overlap with
      | ok filled => some filled
      | _ => none
    else none
  | _ => none

def WidenedState.later_overlap (s : WidenedState ι τ) (read : PageRead ι) :
    Outcome PageError PageOverlap :=
  find_page_overlap env.object_version_id env.cache_key read.page s.current_etag
    (s.page_run read true).lookup

variable [DecidableEq ι]

def store_fetched (read : PageRead ι) (versions : Versions ι) :
    List (RangeSpec × PartialContent) → Versions ι × Bool
  | [] => (versions, true)
  | f :: rest =>
    let out := store_range env versions read.instance_id { read.store f.1 with now := read.now }
      (fetched_request read.get_ttl f.1 f.2 (read.compressed_size f.1))
    if out.2 = none then store_fetched read out.1 rest else (out.1, false)

def WidenedState.promote_page_to_ram (s : WidenedState ι τ) (read : PageRead ι) :
    Option FilledPage → ι → RangeSpec → String → Option (List UInt8)
  | some filled =>
    if read.ram_cache_eligible && read.promoted && filled.etag ≠ "" && !filled.data.isEmpty then
      fun i page etag =>
        if i = read.instance_id ∧ page = read.page ∧ etag = filled.etag then some filled.data
        else s.ram i page etag
    else s.ram
  | none => s.ram

def WidenedState.filled (s : WidenedState ι τ) : WidenedEvent ι τ → Option FilledPage
  | .fill read =>
    match fill_page env.object_version_id env.cache_key read.page s.current_etag
      (s.page_run read (store_fetched env read s.key.versions (s.fetched env read)).2) with
    | ok filled => some filled
    | _ => none
  | .resume read => found_page read (s.later_overlap env read)
  | _ => none

variable [DecidableEq τ]

def WidenedState.step (s : WidenedState ι τ) : WidenedEvent ι τ → Option (WidenedState ι τ)
  | .other event => (s.key.step env event).map fun key =>
      { s with key, last_validated := max s.last_validated ((upstream_time event).getD 0) }
  | .ram i page etag data =>
    some { s with ram := fun i' page' etag' =>
      if i' = i ∧ page' = page ∧ etag' = etag then data else s.ram i' page' etag' }
  | .fill read =>
    let fetched := s.fetched env read
    some
      { key := { s.key with versions := (store_fetched env read s.key.versions fetched).1 }
        ram := s.promote_page_to_ram read ((s.overlap env read).bind (found_page read))
        last_validated :=
          if fetched.isEmpty then s.last_validated else max s.last_validated read.now }
  | .resume read =>
    some { s with ram := s.promote_page_to_ram read (found_page read (s.later_overlap env read)) }

end Step

/-! ## When the caches are dry -/

open WidenedState

section Results

variable (env : KeyEnv) {ι τ : Type}

def WidenedEvent.read : WidenedEvent ι τ → Option (PageRead ι)
  | .fill read | .resume read => some read
  | _ => none

/-- No tier has anything to give: the page is not in RAM, the record has expired, and nothing of
the recorded version is pending in the journals. -/
structure WidenedState.Dry (s : WidenedState ι τ) (read : PageRead ι) : Prop where
  ram : ∀ etag ∈ s.current_etag, s.ram read.instance_id read.page etag = none
  disk : ∀ m ∈ s.key.file, m.expires_at < read.now
  journals : ∀ etag ∈ s.current_etag, ∀ entry ∈ s.key.versions.journals,
    entry.cache_key = env.cache_key → entry.operation = .Add →
      entry.matches_object_version env.object_version_id etag = false

/-- A read that comes after the TTL finds the caches dry. -/
def WidenedState.DryWhenStale (s : WidenedState ι τ) (event : WidenedEvent ι τ) : Prop :=
  ∀ read ∈ event.read, s.last_validated + read.get_ttl < read.now → s.Dry env read

/-- A page with bytes out of a cache is served within the TTL. -/
def WidenedState.Fresh (s : WidenedState ι τ) (event : WidenedEvent ι τ)
    (filled : Option FilledPage) : Prop :=
  ∀ read ∈ event.read, ∀ page ∈ filled, 0 < page.bytes_from_cache →
    read.now ≤ s.last_validated + read.get_ttl

variable {env}

theorem find_pending_of_dry {request : Request} {etag : String}
    (h : ∀ entry ∈ request.journals, entry.cache_key = request.cache_key → entry.operation = .Add →
      entry.matches_object_version env.object_version_id etag = false) :
    find_pending_journal_ranges env.object_version_id request (some etag) = [] := by
  unfold find_pending_journal_ranges
  split
  · rfl
  · dsimp only
    rw [List.filter_eq_nil_iff.mpr]
    · rfl
    · intro entry hentry hmatch
      obtain ⟨hkey, hadd, hversion⟩ := of_decide_eq_true hmatch
      rw [h entry hentry hkey hadd] at hversion
      cases hversion

variable {s : WidenedState ι τ} {read : PageRead ι} {overlap : PageOverlap}

theorem WidenedState.Dry.later_overlap (hdry : s.Dry env read)
    (h : s.later_overlap env read = ok overlap) : overlap.cached_ranges = [] := by
  unfold WidenedState.later_overlap find_page_overlap at h
  simp only [bind_eq_ok, map_err_eq_ok] at h
  obtain ⟨found, hfound, h⟩ := h
  have hmissing := find_cached_ranges_all_missing (by exact hdry.disk) hfound
  have hnone : find_pending_journal_ranges env.object_version_id
      { (s.page_run read true).lookup.request env.cache_key read.page with
        journals := (s.page_run read true).lookup.journals_later } s.current_etag = [] := by
    cases hetag : s.current_etag with
    | none =>
      unfold find_pending_journal_ranges
      split <;> rfl
    | some etag => exact find_pending_of_dry (hdry.journals etag hetag)
  rw [hnone, hmissing] at h
  obtain rfl := ok.inj h
  rfl

variable {stored : Bool}

theorem WidenedState.Dry.first_overlap (hdry : s.Dry env read)
    (h : (s.page_run read stored).first_overlap env.object_version_id env.cache_key read.page
      s.current_etag = ok overlap) : overlap.cached_ranges = [] := by
  unfold PageRun.first_overlap at h
  split at h
  · obtain rfl := ok.inj h
    rfl
  · exact hdry.later_overlap h

variable {load : String → Load} {page : RangeSpec} {filled : FilledPage}

theorem bytes_from_cache_load_page (hnone : overlap.cached_ranges = [])
    (h : load_page_from_cache load page overlap = ok filled) : filled.bytes_from_cache = 0 := by
  simp only [load_page_from_cache, bind_eq_ok, map_err_eq_ok, ok.injEq] at h
  obtain ⟨merged, hmerged, rfl⟩ := h
  rw [hnone] at hmerged
  exact bytes_from_cache_of_nothing_cached hmerged

theorem bytes_from_cache_fetch_page {answer : RangeSpec → Option PartialContent}
    (hnone : overlap.cached_ranges = [])
    (h : fetch_and_cache_page_missing_ranges load answer stored page overlap = ok filled) :
    filled.bytes_from_cache = 0 := by
  simp only [fetch_and_cache_page_missing_ranges, bind_eq_ok, guard_eq_ok, map_err_eq_ok,
    ok.injEq] at h
  obtain ⟨fetched, -, -, -, merged, hmerged, rfl⟩ := h
  rw [hnone] at hmerged
  exact bytes_from_cache_of_nothing_cached hmerged

theorem WidenedState.Dry.fill_page (hdry : s.Dry env read)
    (h : fill_page env.object_version_id env.cache_key read.page s.current_etag
      (s.page_run read stored) = ok filled) : filled.bytes_from_cache = 0 := by
  have hram : (s.page_run read stored).ram_hit s.current_etag = none := by
    unfold PageRun.ram_hit
    split
    · rfl
    · cases hetag : s.current_etag with
      | none => rfl
      | some etag => simp [page_run, hetag, hdry.ram etag hetag]
  unfold HttpProxy.fill_page at h
  rw [hram] at h
  obtain ⟨overlap, hoverlap, h⟩ := bind_eq_ok.mp h
  have hnone := hdry.first_overlap hoverlap
  split at h
  · exact bytes_from_cache_load_page hnone h
  · exact bytes_from_cache_fetch_page hnone h

theorem bytes_from_cache_found_page {found : Outcome PageError PageOverlap}
    (hnone : ∀ overlap, found = ok overlap → overlap.cached_ranges = [])
    (h : found_page read found = some filled) : filled.bytes_from_cache = 0 := by
  unfold found_page at h
  split at h
  · rename_i overlap
    split at h
    · split at h
      · rename_i page hpage
        cases h
        exact bytes_from_cache_load_page (hnone overlap rfl) hpage
      · cases h
    · cases h
  · cases h

variable [DecidableEq ι] [DecidableEq τ]

variable {s' : WidenedState ι τ} {event : WidenedEvent ι τ}

theorem WidenedState.last_validated_le (h : s.step env event = some s') :
    s.last_validated ≤ s'.last_validated := by
  cases event with
  | other event =>
    obtain ⟨key, -, rfl⟩ := Option.map_eq_some_iff.mp h
    exact le_max_left _ _
  | ram i page etag data | resume read =>
    cases h
    exact le_rfl
  | fill read =>
    cases h
    split
    · exact le_rfl
    · exact le_max_left _ _

/-- **Step lemma.** -/
theorem WidenedState.fresh_of_dryWhenStale (hguard : s.DryWhenStale env event)
    (h : s.step env event = some s') : s'.Fresh event (s.filled env event) := by
  intro read hread page hpage hbytes
  by_contra hlate
  have hstale : s.last_validated + read.get_ttl < read.now := by
    have := last_validated_le h
    omega
  have hdry := hguard read hread hstale
  have hzero : page.bytes_from_cache = 0 := by
    cases event with
    | other event | ram i page etag data => cases hread
    | fill fill =>
      cases hread
      unfold filled at hpage
      dsimp only at hpage
      split at hpage <;> cases hpage
      rename_i filled hfilled
      exact hdry.fill_page hfilled
    | resume resume =>
      cases hread
      exact bytes_from_cache_found_page (fun overlap hoverlap => hdry.later_overlap hoverlap) hpage
  omega

/-- **Widened reads are fresh while stale caches are dry.** In every run in which each read that
comes later than its TTL after the last contact finds no page in RAM, an expired record and no
pending entry, no read serves a byte out of a cache later than that. -/
theorem widened_reads_are_fresh (env : KeyEnv) (events : List (WidenedEvent ι τ))
    (s : WidenedState ι τ) (hrun : run (step env) .init events = some s)
    (hguard : Guarded (step env) (WidenedState.DryWhenStale env) .init events) :
    ∀ n event s₁ s₂, run (step env) .init (events.take n) = some s₁ →
      events[n]? = some event → s₁.step env event = some s₂ →
        s₂.Fresh event (s₁.filled env event) := by
  intro n event s₁ s₂ hs₁ hevent hs₂
  have hsteps := (run_steps_iff_guarded (fun s event _ => s.DryWhenStale env event)
    (fun _ _ _ _ => Iff.rfl) hrun).mpr hguard
  exact fresh_of_dryWhenStale (hsteps n event s₁ s₂ hs₁ hevent hs₂) hs₂

end Results

/-! ## One page -/

def mondays_page : PartialContent where
  etag := some "mon"
  last_modified := some "Mon"
  content_range := some ⟨0, 9, some 10⟩
  content_length := some 10
  headers := []
  body := List.replicate 10 0

def page_read (now get_ttl : ℕ) : PageRead Unit where
  instance_id := ()
  now := now
  get_ttl := get_ttl
  page := ⟨0, 9⟩
  has_range_conditional := false
  shared_storage_mode := true
  load := fun _ _ range => ok (List.replicate (range.end_ + 1 - range.start) 0, false)
  answer := fun _ => some mondays_page
  store := fun _ => undisturbed now
  compressed_size := fun _ => 10
  ram_cache_eligible := true
  promoted := true

def fetched_at_one (get_ttl : ℕ) : List (WidenedEvent Unit Unit) :=
  [.fill (page_read 1 get_ttl)]

def recorded_at_one (get_ttl : ℕ) : List (WidenedEvent Unit Unit) :=
  fetched_at_one get_ttl ++ [.other (consolidated_at 1)]

def promoted_at_two : List (WidenedEvent Unit Unit) :=
  recorded_at_one 60 ++ [.fill (page_read 2 60)]

/-- After `past`, the page validated at `1` is served out of the cache, and is not fresh. -/
def ServesStale (past : List (WidenedEvent Unit Unit)) (read : PageRead Unit) : Prop :=
  ∃ s s' page, run (step plain_env) .init past = some s ∧ s.step plain_env (.fill read) = some s' ∧
    s.filled plain_env (.fill read) = some page ∧ page.bytes_from_cache = 10 ∧
    s'.last_validated = 1 ∧ ¬ s'.Fresh (.fill read) (some page)

/-- The page was fetched at `1`. At `1000`, under a TTL of 60, it is served out of RAM, or out of
the file of a pending entry though the record has expired; at `100`, under a TTL of zero, it is
served off disk, because it was stored under a TTL of an hour. -/
theorem stale_page_is_served :
    ServesStale promoted_at_two (page_read 1000 60) ∧
    ServesStale (fetched_at_one 60) (page_read 1000 60) ∧
    ServesStale (recorded_at_one 3600) (page_read 100 0) := by
  refine ⟨⟨_, _, _, rfl, rfl, rfl, by decide, by decide, fun h => ?_⟩,
    ⟨_, _, _, rfl, rfl, rfl, by decide, by decide, fun h => ?_⟩,
    ⟨_, _, _, rfl, rfl, rfl, by decide, by decide, fun h => ?_⟩⟩
  all_goals exact absurd (h _ rfl _ rfl (by decide)) (by decide)

/-- Within the TTL a page out of RAM is fresh. -/
theorem promoted_page_is_fresh :
    ∃ s s' page, run (step plain_env) .init
        (promoted_at_two ++ [.fill (page_read 3 60)]) = some s ∧
      run (step plain_env) .init promoted_at_two = some s' ∧
      s'.filled plain_env (.fill (page_read 3 60)) = some page ∧ page.bytes_from_cache = 10 ∧
      s.Fresh (.fill (page_read 3 60)) (some page) := by
  refine ⟨_, _, _, rfl, rfl, rfl, ?_, ?_⟩
  · decide
  · refine widened_reads_are_fresh plain_env (promoted_at_two ++ [.fill (page_read 3 60)]) _ rfl ?_
      3 (.fill (page_read 3 60)) _ _ rfl rfl rfl
    refine (guarded_cons rfl).mpr ⟨?_, (guarded_cons rfl).mpr ⟨nofun, (guarded_cons rfl).mpr
      ⟨?_, (guarded_cons rfl).mpr ⟨?_, trivial⟩⟩⟩⟩
    all_goals
      intro read hread hstale
      cases hread
      exact absurd hstale (by decide)

end HybridCache.HttpProxy
