/-
The page grid of widened range requests, and what a `Range` header asks for (`range_handler.rs`).

`overlapping_pages` gives the one or two pages that a range shorter than a page meets (`Tiles`).
`parse_range_header` resolves a header with the size the proxy has at hand; `Selects` says what it
asks for of the size the object has.
-/
import HybridCache.RangeHandler.Spec

namespace HybridCache.RangeHandler

open Lib Lib.Outcome

/-! ## The header -/

/-- What the text of a `Range` header says. -/
inductive RangeHeader where
  | bounded (start end_ : ℕ)
  | open_ended (start : ℕ)
  | suffix (n : ℕ)
  /-- Several ranges, or none that can be read. -/
  | other
deriving DecidableEq, Repr

def parse_range_header (header : RangeHeader) (content_length : Option ℕ) : Option RangeSpec :=
  match header, content_length with
  | .bounded start end_, some length =>
    if start > end_ ∨ start ≥ length then none else some ⟨start, min end_ (length - 1)⟩
  | .bounded start end_, none => if start > end_ then none else some ⟨start, end_⟩
  | .open_ended start, some length => if start ≥ length then none else some ⟨start, length - 1⟩
  | .suffix n, some length => if n = 0 then none else some ⟨length - n, length - 1⟩
  | _, _ => none

/-- The bytes that a header selects of an object. -/
def RangeHeader.Selects (header : RangeHeader) (size : ℕ) (range : RangeSpec) : Prop :=
  range.start ≤ range.end_ ∧ range.end_ < size ∧
    match header with
    | .bounded start end_ => range.start = start ∧ range.end_ = min end_ (size - 1)
    | .open_ended start => range.start = start ∧ range.end_ = size - 1
    | .suffix n => range.start = size - n ∧ range.end_ = size - 1
    | .other => False

/-- The range a header was resolved to with one size is the one it selects of an object of
another only if the two sizes are the same, or it ends before both. -/
def RangeHeader.SizeFits (header : RangeHeader) (content_length : Option ℕ) (size : ℕ) : Prop :=
  content_length = some size ∨
    ∃ start end_, header = .bounded start end_ ∧ end_ < size ∧
      ∀ length ∈ content_length, end_ < length

variable {header : RangeHeader} {content_length : Option ℕ} {range page : RangeSpec}
  {size page_size start : ℕ}

theorem parse_range_header_bounds (h : parse_range_header header content_length = some range)
    (hpos : ∀ length ∈ content_length, 0 < length) :
    range.start ≤ range.end_ ∧ ∀ length ∈ content_length, range.end_ < length := by
  unfold parse_range_header at h
  split at h
  · rename_i start end_ length
    split_ifs at h
    cases h
    simp only [Option.mem_def, Option.some.injEq, forall_eq']
    omega
  · split_ifs at h
    cases h
    exact ⟨by dsimp only; omega, nofun⟩
  · rename_i start length
    split_ifs at h
    cases h
    simp only [Option.mem_def, Option.some.injEq, forall_eq']
    omega
  · rename_i n length
    have hlength := hpos length rfl
    split_ifs at h
    cases h
    simp only [Option.mem_def, Option.some.injEq, forall_eq']
    omega
  · cases h

theorem sizeFits_iff_of_not_bounded {length : ℕ} (h : ∀ start end_, header ≠ .bounded start end_) :
    header.SizeFits (some length) size ↔ length = size := by
  constructor
  · rintro (hsize | ⟨start, end_, hheader, -⟩)
    · exact Option.some.inj hsize
    · exact absurd hheader (h start end_)
  · exact fun hsize => .inl (congrArg some hsize)

theorem parse_range_header_selects_iff (h : parse_range_header header content_length = some range)
    (hle : range.start ≤ range.end_) (hlt : range.end_ < size)
    (hpos : ∀ length ∈ content_length, 0 < length) :
    header.Selects size range ↔ header.SizeFits content_length size := by
  unfold RangeHeader.Selects
  cases content_length with
  | none =>
    cases header with
    | bounded start end_ =>
      unfold parse_range_header at h
      dsimp only at h
      split_ifs at h
      cases h
      dsimp only at hle hlt ⊢
      constructor
      · rintro ⟨-, -, -, -⟩
        exact .inr ⟨start, end_, rfl, hlt, nofun⟩
      · intro _
        exact ⟨hle, hlt, rfl, by omega⟩
    | open_ended start | suffix n | other => cases h
  | some length =>
    have hlength := hpos length rfl
    cases header with
    | bounded start end_ =>
      unfold parse_range_header at h
      dsimp only at h
      split_ifs at h
      cases h
      dsimp only at hle hlt ⊢
      constructor
      · rintro ⟨-, -, -, hend⟩
        by_cases hsize : length = size
        · exact .inl (congrArg some hsize)
        · refine .inr ⟨start, end_, rfl, by omega, fun other hother => ?_⟩
          cases hother
          omega
      · rintro (hsize | ⟨_, _, hheader, hend, hother⟩)
        · cases hsize
          exact ⟨hle, hlt, rfl, rfl⟩
        · obtain ⟨rfl, rfl⟩ := RangeHeader.bounded.inj hheader
          have := hother length rfl
          exact ⟨hle, hlt, rfl, by omega⟩
    | open_ended start | suffix n =>
      unfold parse_range_header at h
      dsimp only at h
      split_ifs at h
      cases h
      dsimp only at hle hlt ⊢
      rw [sizeFits_iff_of_not_bounded fun _ _ => RangeHeader.noConfusion]
      constructor
      · rintro ⟨-, -, -, hend⟩
        omega
      · rintro rfl
        exact ⟨hle, hlt, rfl, rfl⟩
    | other => cases h

/-! ## The grid -/

def page_bounds (start page_size size : ℕ) : Outcome ProxyError RangeSpec :=
  if page_size = 0 ∨ size = 0 then panic
  else do
    let page_start := start / page_size * page_size
    let past ← u64_add page_start page_size
    let page_end ← u64_sub past 1
    ok ⟨page_start, min page_end (size - 1)⟩

def overlapping_pages (start end_ page_size size : ℕ) : Outcome ProxyError (List RangeSpec) :=
  if end_ < start then panic
  else do
    let first ← page_bounds start page_size size
    let last ← page_bounds end_ page_size size
    ok (if last ≠ first then [first, last] else [first])

/-- `suffix_page_target`, for a known size. -/
def suffix_page_target (n page_size size : ℕ) : Outcome ProxyError (List RangeSpec) :=
  if n = 0 ∨ page_size = 0 ∨ size = 0 then panic
  else overlapping_pages (size - min n size) (size - 1) page_size size

theorem page_bounds_eq_ok (h : page_bounds start page_size size = ok page) :
    0 < page_size ∧ page.start = start / page_size * page_size ∧
      page.end_ = min (page.start + page_size - 1) (size - 1) ∧
      page.start + page_size ≤ u64_max := by
  unfold page_bounds at h
  split_ifs at h
  simp only [bind_eq_ok, u64_add_eq_ok, u64_sub_eq_ok, ok.injEq] at h
  obtain ⟨_, ⟨hmax, rfl⟩, _, ⟨-, rfl⟩, rfl⟩ := h
  exact ⟨by omega, rfl, rfl, hmax⟩

theorem page_bounds_ok (hpage : 0 < page_size) (hsize : 0 < size)
    (hfits : start / page_size * page_size + page_size ≤ u64_max) :
    ∃ page, page_bounds start page_size size = ok page := by
  unfold page_bounds
  rw [if_neg (by omega)]
  dsimp only
  rw [u64_add_of_le hfits, bind_ok, u64_sub_of_le (by omega), bind_ok]
  exact ⟨_, rfl⟩

variable {start end_ page_size size : ℕ}

theorem overlapping_pages_ok (hle : start ≤ end_) (hpage : 0 < page_size) (hsize : 0 < size)
    (hfits : end_ / page_size * page_size + page_size ≤ u64_max) :
    ∃ pages, overlapping_pages start end_ page_size size = ok pages := by
  have hmono : start / page_size * page_size ≤ end_ / page_size * page_size :=
    Nat.mul_le_mul_right _ (Nat.div_le_div_right hle)
  have hstart : start / page_size * page_size + page_size ≤ u64_max := by omega
  obtain ⟨first, hfirst⟩ := page_bounds_ok hpage hsize hstart
  obtain ⟨last, hlast⟩ := page_bounds_ok hpage hsize hfits
  unfold overlapping_pages
  rw [if_neg (by omega), hfirst, bind_ok, hlast, bind_ok]
  exact ⟨_, rfl⟩

variable {pages : List RangeSpec}

theorem overlapping_pages_on_grid (h : overlapping_pages start end_ page_size size = ok pages)
    (hmem : page ∈ pages) :
    page_size ∣ page.start ∧ page.end_ = min (page.start + page_size - 1) (size - 1) ∧
      page.start + page_size ≤ u64_max := by
  have hgrid : ∀ {offset : ℕ} {p : RangeSpec}, page_bounds offset page_size size = ok p →
      page_size ∣ p.start ∧ p.end_ = min (p.start + page_size - 1) (size - 1) ∧
        p.start + page_size ≤ u64_max := by
    intro offset p hp
    obtain ⟨-, hstart, hend, hmax⟩ := page_bounds_eq_ok hp
    exact ⟨⟨offset / page_size, by rw [hstart, Nat.mul_comm]⟩, hend, hmax⟩
  unfold overlapping_pages at h
  split_ifs at h
  simp only [bind_eq_ok, ok.injEq] at h
  obtain ⟨first, hfirst, last, hlast, rfl⟩ := h
  split at hmem
  · rcases List.mem_cons.mp hmem with rfl | hmem
    · exact hgrid hfirst
    · obtain rfl := List.mem_singleton.mp hmem
      exact hgrid hlast
  · obtain rfl := List.mem_singleton.mp hmem
    exact hgrid hfirst

/-- The pages lie one after the other, from no later than `start` to no earlier than `end_`. -/
inductive Tiles (start end_ : ℕ) : List RangeSpec → Prop where
  | one (page : RangeSpec) (hstart : page.start ≤ start) (hend : end_ ≤ page.end_) :
      Tiles start end_ [page]
  | two (first last : RangeSpec) (hstart : first.start ≤ start) (hfirst : start ≤ first.end_)
      (hnext : last.start = first.end_ + 1) (hlast : last.start ≤ end_) (hend : end_ ≤ last.end_) :
      Tiles start end_ [first, last]

theorem Tiles.covers {start end_ : ℕ} (h : Tiles start end_ pages) {x : ℕ} (hlo : start ≤ x)
    (hhi : x ≤ end_) : Span.Covers pages x := by
  cases h with
  | one page hstart hend => exact ⟨page, List.mem_singleton_self _, by omega, by omega⟩
  | two first last hstart hfirst hnext hlast hend =>
    by_cases hx : x ≤ first.end_
    · exact ⟨first, List.mem_cons_self, by omega, hx⟩
    · exact ⟨last, List.mem_cons_of_mem _ List.mem_cons_self, by omega, by omega⟩

/-- **The pages of a range shorter than a page.** The size may be the stand-in for an unknown
one: a page that reaches it does not exist. -/
theorem overlapping_pages_tiles (hlen : end_ - start + 1 < page_size)
    (hsize : end_ < size ∨ size = u64_max)
    (h : overlapping_pages start end_ page_size size = ok pages) : Tiles start end_ pages := by
  unfold overlapping_pages at h
  split_ifs at h with hle
  simp only [bind_eq_ok, ok.injEq] at h
  obtain ⟨first, hfirst, last, hlast, rfl⟩ := h
  obtain ⟨hpos, hfs, hfe, -⟩ := page_bounds_eq_ok hfirst
  obtain ⟨-, hls, hle', hmax⟩ := page_bounds_eq_ok hlast
  -- a range shorter than a page meets its first page and at most the next one
  have hdiv : end_ / page_size = start / page_size ∨ end_ / page_size = start / page_size + 1 := by
    have hmono : start / page_size ≤ end_ / page_size := Nat.div_le_div_right (by omega)
    have hnext : end_ / page_size ≤ start / page_size + 1 := by
      rw [← Nat.add_div_right _ hpos]
      exact Nat.div_le_div_right (by omega)
    omega
  have hs := Nat.div_add_mod' start page_size
  have hsm := Nat.mod_lt start hpos
  have he := Nat.div_add_mod' end_ page_size
  have hem := Nat.mod_lt end_ hpos
  rcases hdiv with hsame | hnext
  · rw [hsame] at hls he
    have heq : last = first := by
      have hstarts : last.start = first.start := hls.trans hfs.symm
      have hends : last.end_ = first.end_ := by rw [hle', hfe, hstarts]
      cases first
      cases last
      simp only at hstarts hends
      rw [hstarts, hends]
    rw [if_neg (by simp [heq])]
    exact .one first (by omega) (by omega)
  · rw [hnext, Nat.add_mul, Nat.one_mul] at hls he
    have hne : last ≠ first := by
      intro heq
      rw [heq] at hls
      omega
    rw [if_pos hne]
    exact .two first last (by omega) (by omega) (by omega) (by omega) (by omega)

theorem suffix_page_target_tiles {n page_size size : ℕ} (hn : n < page_size)
    (h : suffix_page_target n page_size size = ok pages) :
    Tiles (size - n) (size - 1) pages := by
  unfold suffix_page_target at h
  split_ifs at h
  rw [show size - min n size = size - n by omega] at h
  exact overlapping_pages_tiles (by omega) (.inl (by omega)) h

end HybridCache.RangeHandler
