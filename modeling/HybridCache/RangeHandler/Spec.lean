/-
Byte ranges and the reads behind them (`range_handler.rs`, `cache_types.rs`).

Nothing in the source keeps `start` below `end`, so neither does the type. The bytes of a cached
range come from `load_range_data_with_cache`, which may fail; here it is a parameter `load`,
indexed by the segment being read.
-/
import HybridCache.Lib.Span
import HybridCache.Lib.Outcome
import HybridCache.Lib.Window

namespace HybridCache.RangeHandler

open Lib Lib.Outcome

inductive ProxyError where
  | CacheError (msg : String)
  | InvalidRange (msg : String)
deriving DecidableEq, Repr

abbrev RangeSpec := Span

/-- `cache_types::Range`: the extent of a cached range. -/
structure Range where
  start : ℕ
  end_ : ℕ
deriving DecidableEq, Repr

/-- `load_range_data_with_cache` for the segment with the given index: the
decompressed bytes and whether they came from RAM. -/
abbrev Load := ℕ → Range → Outcome ProxyError (List UInt8 × Bool)

/-- The bytes `lo..=hi` of an object. -/
def object_bytes (obj : List UInt8) (lo hi : ℕ) : List UInt8 :=
  obj.extract lo (hi + 1)

/-- The cached ranges that reach into the request, as the lookup in
`disk_cache.rs` selects them. -/
def overlapping (requested : RangeSpec) (cached : List Range) : List Range :=
  cached.filter fun c => requested.start ≤ c.end_ ∧ c.start ≤ requested.end_

def calculate_overlap (range1_start range1_end range2_start range2_end : ℕ) : Option (ℕ × ℕ) :=
  if range1_end < range2_start ∨ range2_end < range1_start then none
  else some (max range1_start range2_start, min range1_end range2_end)

theorem calculate_overlap_eq_some {s₁ e₁ s₂ e₂ : ℕ} {p : ℕ × ℕ} :
    calculate_overlap s₁ e₁ s₂ e₂ = some p ↔ s₂ ≤ e₁ ∧ s₁ ≤ e₂ ∧ p = (max s₁ s₂, min e₁ e₂) := by
  unfold calculate_overlap
  split_ifs
  · constructor
    · intro hnone
      cases hnone
    · rintro ⟨h₁, h₂, -⟩
      omega
  · rw [Option.some.injEq]
    constructor
    · rintro rfl
      exact ⟨by omega, by omega, rfl⟩
    · rintro ⟨-, -, rfl⟩
      rfl

/-! ## `extract_bytes_from_cached_range` -/

/-- `RangeHandler::extract_bytes_from_cached_range`: the part of a cached range
that lies in `requested_start..=requested_end`, cut out of its loaded bytes. -/
def extract_bytes_from_cached_range (load : Load) (idx : ℕ) (cached_range : Range)
    (requested_start requested_end : ℕ) : Outcome ProxyError (List UInt8 × Bool) :=
  let ⟨cs, ce⟩ := cached_range
  if ce < requested_start ∨ cs > requested_end then
    err (.InvalidRange (s!"Cached range {cs}-{ce} does not overlap with " ++
      s!"requested range {requested_start}-{requested_end}"))
  else do
    let intersection_start := max cs requested_start
    let intersection_end := min ce requested_end
    let read_offset ← u64_sub intersection_start cs
    let read_length ← inclusive_len intersection_start intersection_end
    let cached_range_size ← inclusive_len cs ce
    if read_offset ≥ cached_range_size then
      err (.InvalidRange (s!"Read offset {read_offset} exceeds " ++
        s!"cached range size {cached_range_size}"))
    else
      let read_end ← u64_add read_offset read_length
      if read_end > cached_range_size then
        err (.InvalidRange (s!"Read offset {read_offset} + length {read_length} exceeds " ++
          s!"cached range size {cached_range_size}"))
      else
        let (range_data, ram_hit) ← load idx ⟨cs, ce⟩
        let got := range_data.length
        if got ≠ cached_range_size then
          err (.CacheError (s!"Cached range data size mismatch: " ++
            s!"expected {cached_range_size} bytes, got {got} bytes"))
        else if read_end > got then
          err (.InvalidRange (s!"Extraction range {read_offset}-{read_end} exceeds " ++
            s!"data length {got}"))
        else
          ok (range_data.extract read_offset read_end, ram_hit)

variable {c : Range} {idx re rs : ℕ} {load : Load}

/-- What a successful extraction did: the ranges overlap, the load succeeded
with a payload of the range's size, and the result is the overlapping part. -/
theorem extract_bytes_from_cached_range_eq_ok {r : List UInt8 × Bool}
    (h : extract_bytes_from_cached_range load idx c rs re = ok r) :
    rs ≤ c.end_ ∧ c.start ≤ re ∧ max c.start rs ≤ min c.end_ re ∧ c.end_ - c.start + 1 ≤ u64_max ∧
      ∃ data, load idx c = ok (data, r.2) ∧ data.length = c.end_ - c.start + 1 ∧
        r.1 = data.extract (max c.start rs - c.start) (min c.end_ re + 1 - c.start) := by
  obtain ⟨cs, ce⟩ := c
  simp only [extract_bytes_from_cached_range, guard_eq_ok, bind_eq_ok, u64_sub_eq_ok,
    u64_add_eq_ok, inclusive_len_eq_ok] at h
  obtain ⟨hov, off, ⟨hoff, rfl⟩, len, ⟨hlen, -, rfl⟩, size, ⟨hsize, hmax, rfl⟩, hlt, fin,
    ⟨-, rfl⟩, hfin, ⟨data, ram⟩, hload, hdata, -, hr⟩ := h
  simp only [ok.injEq] at hr
  subst hr
  dsimp only
  refine ⟨by omega, by omega, hlen, hmax, data, hload, by simpa using hdata, ?_⟩
  congr 1
  omega

theorem extract_bytes_from_cached_range_ok {data : List UInt8} {ram : Bool}
    (hload : load idx c = ok (data, ram)) (hdata : data.length = c.end_ - c.start + 1)
    (hmax : c.end_ < u64_max) (hcov : c.start ≤ rs ∧ rs ≤ re ∧ re ≤ c.end_) :
    extract_bytes_from_cached_range load idx c rs re =
      ok (data.extract (rs - c.start) (re + 1 - c.start), ram) := by
  obtain ⟨cs, ce⟩ := c
  obtain ⟨h₁, h₂, h₃⟩ := hcov
  simp only at hload hdata hmax h₁ h₃
  simp only [extract_bytes_from_cached_range, guard_eq_ok, bind_eq_ok, u64_sub_eq_ok,
    u64_add_eq_ok, inclusive_len_eq_ok]
  refine ⟨by omega, _, ⟨by omega, rfl⟩, _, ⟨by omega, by omega, rfl⟩, _,
    ⟨by omega, by omega, rfl⟩, by omega, _, ⟨by omega, rfl⟩, by omega, (data, ram), hload,
    by simpa using hdata, by simp only; omega, ?_⟩
  simp only [ok.injEq, Prod.mk.injEq, and_true]
  congr 1 <;> omega

end HybridCache.RangeHandler
