/-
What a small range request is widened to (the first half of `try_widened_range_request` in
`http_proxy.rs`): the pages of the grid that the requested bytes lie on, or, for a suffix of an
object of unknown size, its last page-sized stretch. A recorded size of zero counts as unknown.

The grid is computed in `u64`; requests whose last page does not end there are left out
(`EndsOnGrid`).
-/
import HybridCache.HttpProxy.WidenedRange
import HybridCache.RangeHandler.Header

namespace HybridCache.HttpProxy

open Lib Lib.Outcome RangeHandler

/-! ## The model -/

/-- Where a request is widened to: pages, with the range the client asked for, or a suffix of
`page_size` bytes in place of one of `n`. -/
inductive WidenedTarget where
  | Pages (pages : List RangeSpec) (original : RangeSpec)
  | SizeUnknownSuffix (n : ℕ)
deriving DecidableEq, Repr

def known_length (recorded : Option ℕ) : Option ℕ :=
  recorded.filter fun length => length > 0

def widened_target (range_header : List Char) (page_size : ℕ) (content_length : Option ℕ) :
    Outcome ProxyError (Option WidenedTarget) :=
  let trimmed := trim range_header
  if "bytes=-".toList <+: trimmed then
    match parse_unsigned u64_max (trimmed.drop 7) with
    | some n =>
      if n = 0 then ok none
      else
        match content_length with
        | some size =>
          if n ≥ page_size then ok none
          else do
            let pages ← suffix_page_target n page_size size
            let last ← u64_sub size 1
            ok (some (.Pages pages ⟨size - n, last⟩))
        | none => if n ≥ page_size then ok none else ok (some (.SizeUnknownSuffix n))
    | none => ok none
  else
    match Parse.parse_range_header trimmed content_length with
    | ok (.SingleRange range_spec) => do
      let len ← inclusive_len range_spec.start range_spec.end_
      if len ≥ page_size then ok none
      else do
        -- a size that is not known is taken to be as great as can be
        let size := content_length.getD u64_max
        let pages ← overlapping_pages range_spec.start range_spec.end_ page_size size
        ok (some (.Pages pages range_spec))
    | ok _ => ok none
    | err e => nomatch e
    | .panic => .panic

/-! ## What a target should be -/

/-- One or two neighbouring pages of the grid, cut off at the end of the object if its size is
known, with every byte of the range. -/
structure OnPages (page_size : ℕ) (content_length : Option ℕ) (original : RangeSpec)
    (pages : List RangeSpec) : Prop where
  tiles : Tiles original.start original.end_ pages
  aligned : ∀ page ∈ pages, page_size ∣ page.start
  clipped : ∀ page ∈ pages, page.end_ + 1 =
    content_length.elim (page.start + page_size) fun size => min (page.start + page_size) size
  covers : ∀ x, original.Contains x → Span.Covers pages x

/-- What the header is widened to: the pages of the range that its one specification asks for, if
that is shorter than a page; and for a suffix of unknown size a longer suffix. -/
def WidenedTarget.Widens (range_header : List Char) (page_size : ℕ) (content_length : Option ℕ) :
    WidenedTarget → Prop
  | .Pages pages original =>
    original.end_ - original.start + 1 < page_size ∧
      OnPages page_size content_length original pages ∧
      ∃ range_spec, Parse.range_specs (trim range_header) = [range_spec] ∧
        Denotes content_length range_spec original
  | .SizeUnknownSuffix n =>
    content_length = none ∧ 0 < n ∧ n < page_size ∧
      (∃ range_spec, Parse.range_specs (trim range_header) = [range_spec] ∧
        Says range_spec (.suffix n)) ∧
      ∀ size x, (RangeHeader.suffix n).Includes size x →
        (RangeHeader.suffix page_size).Includes size x

/-- The header asks for less than a page: for a suffix of so many bytes, or for the one range that
it is read as. -/
def AsksForLess (range_header : List Char) (page_size : ℕ) (content_length : Option ℕ) : Prop :=
  if "bytes=-".toList <+: trim range_header then
    ∃ n, parse_unsigned u64_max ((trim range_header).drop 7) = some n ∧ 0 < n ∧ n < page_size
  else
    ∃ range, Parse.parse_range_header (trim range_header) content_length =
      ok (.SingleRange range) ∧ range.end_ - range.start + 1 < page_size

/-- The target is computed, is there exactly if the header asks for less than a page, and is then
what the header should be widened to. -/
def Targeted (range_header : List Char) (page_size : ℕ) (content_length : Option ℕ) : Prop :=
  ∃ target, widened_target range_header page_size content_length = ok target ∧
    (target.isSome ↔ AsksForLess range_header page_size content_length) ∧
    ∀ t ∈ target, t.Widens range_header page_size content_length

/-- The page of the last byte that the header asks for ends below `2 ^ 64`. -/
def EndsOnGrid (range_header : List Char) (page_size : ℕ) (content_length : Option ℕ) : Prop :=
  ∀ range_spec range, Parse.range_specs (trim range_header) = [range_spec] →
    Denotes content_length range_spec range →
    range.end_ / page_size * page_size + page_size ≤ u64_max

/-! ## The target -/

theorem known_length_pos {recorded : Option ℕ} : ∀ length ∈ known_length recorded, 0 < length := by
  intro length hlength
  have hpos := (Option.filter_eq_some_iff.mp hlength).2
  exact of_decide_eq_true hpos

variable {page_size n : ℕ}

theorem overlapping_pages_onPages {content_length : Option ℕ} {original : RangeSpec}
    {pages : List RangeSpec} (hlen : original.end_ - original.start + 1 < page_size)
    (hinside : ∀ length ∈ content_length, original.end_ < length)
    (h : overlapping_pages original.start original.end_ page_size (content_length.getD u64_max) =
      ok pages) :
    OnPages page_size content_length original pages := by
  have htiles : Tiles original.start original.end_ pages := by
    refine overlapping_pages_tiles hlen ?_ h
    cases content_length with
    | none => exact .inr rfl
    | some length => exact .inl (hinside length rfl)
  refine ⟨htiles, fun page hpage => (overlapping_pages_on_grid h hpage).1, fun page hpage => ?_,
    fun x hx => htiles.covers hx.1 hx.2⟩
  obtain ⟨-, hend, hmax⟩ := overlapping_pages_on_grid h hpage
  cases content_length with
  | none =>
    dsimp only [Option.getD_none, Option.elim_none] at hend ⊢
    omega
  | some length =>
    have hlt := hinside length rfl
    dsimp only [Option.getD_some, Option.elim_some] at hend ⊢
    omega

theorem range_specs_of_suffix {trimmed : List Char} (hbytes : "bytes=-".toList <+: trimmed)
    (hn : IsNumber (trimmed.drop 7) n) :
    ∃ range_spec, Parse.range_specs trimmed = [range_spec] ∧ Says range_spec (.suffix n) := by
  obtain ⟨digits, rfl⟩ := hbytes
  have hdash : '-' ∉ digits := fun hmem => absurd (hn.plus_or_digit hmem) (by decide)
  have hcomma : ',' ∉ '-' :: digits := by
    intro hmem
    rcases List.mem_cons.mp hmem with heq | hmem
    · exact absurd heq (by decide)
    · exact absurd (hn.plus_or_digit hmem) (by decide)
  have htrim : trim digits = digits :=
    trim_of_no_space fun _ hc => hn.not_is_whitespace hc
  have hspec : trim ('-' :: digits) = '-' :: digits := by
    refine trim_of_no_space fun c hc => ?_
    rcases List.mem_cons.mp hc with rfl | hmem
    · decide
    · exact hn.not_is_whitespace hmem
  refine ⟨'-' :: digits, ?_, ?_⟩
  · have hdrop : ("bytes=-".toList ++ digits).drop 6 = '-' :: digits := rfl
    rw [Parse.range_specs, hdrop, List.splitOn_eq_singleton hcomma, List.map_singleton, hspec]
  · have hsaid := Says.suffix [] digits n (List.not_mem_nil) hdash rfl (by rwa [htrim])
    exact hsaid

theorem suffix_includes_mono {m : ℕ} (h : n ≤ m) (size x : ℕ)
    (hx : (RangeHeader.suffix n).Includes size x) : (RangeHeader.suffix m).Includes size x := by
  obtain ⟨hlt, hle⟩ := hx
  refine ⟨hlt, ?_⟩
  omega

theorem suffix_target_widens {size : ℕ} {range_header range_spec : List Char}
    (hspecs : Parse.range_specs (trim range_header) = [range_spec])
    (hsaid : Says range_spec (.suffix n)) (hn : 0 < n) (hlt : n < page_size) (hsize : 0 < size)
    (hgrid : EndsOnGrid range_header page_size (some size)) :
    ∃ pages, suffix_page_target n page_size size = ok pages ∧
      (WidenedTarget.Pages pages ⟨size - n, size - 1⟩).Widens range_header page_size
        (some size) := by
  have hdenotes : Denotes (some size) range_spec ⟨size - n, size - 1⟩ := by
    refine denotes_of_parsed hsaid ?_ fun _ _ hzero => ?_
    · exact if_neg (by omega)
    · exact absurd (Option.some.inj hzero) (by omega)
  have hfits := hgrid _ _ hspecs hdenotes
  have hlast : size - min n size = size - n := by omega
  obtain ⟨pages, hpages⟩ := overlapping_pages_ok hdenotes.proper (by omega) hsize hfits
  refine ⟨pages, ?_, ?_, ?_, range_spec, hspecs, hdenotes⟩
  · unfold suffix_page_target
    rw [if_neg (by omega), hlast]
    exact hpages
  · dsimp only
    omega
  · refine overlapping_pages_onPages ?_ hdenotes.inside hpages
    dsimp only
    omega

section Targets

variable {range_header : List Char} {content_length : Option ℕ}
  (hpos : ∀ length ∈ content_length, 0 < length)
  (hgrid : EndsOnGrid range_header page_size content_length)

include hpos hgrid

/-- The target of a suffix. -/
theorem suffix_targeted (hbytes : "bytes=-".toList <+: trim range_header) :
    Targeted range_header page_size content_length := by
  unfold Targeted widened_target AsksForLess
  rw [if_pos hbytes, if_pos hbytes]
  cases hparsed : parse_unsigned u64_max ((trim range_header).drop 7) with
  | none => exact ⟨none, rfl, by simp, nofun⟩
  | some n =>
    obtain ⟨hn, -⟩ := parse_unsigned_eq_some_iff.mp hparsed
    obtain ⟨range_spec, hspecs, hsaid⟩ := range_specs_of_suffix hbytes hn
    by_cases hless : 0 < n ∧ n < page_size
    · obtain ⟨hzero, hlt⟩ := hless
      have hasks : ∃ n', some n = some n' ∧ 0 < n' ∧ n' < page_size := ⟨n, rfl, hzero, hlt⟩
      dsimp only
      rw [if_neg hzero.ne']
      cases content_length with
      | none =>
        refine ⟨some (.SizeUnknownSuffix n), if_neg hlt.not_ge, iff_of_true rfl hasks, ?_⟩
        rintro _ ⟨⟩
        exact ⟨rfl, hzero, hlt, ⟨range_spec, hspecs, hsaid⟩, suffix_includes_mono hlt.le⟩
      | some size =>
        have hsize := hpos size rfl
        obtain ⟨pages, hpages, hwidens⟩ :=
          suffix_target_widens hspecs hsaid hzero hlt hsize hgrid
        dsimp only
        rw [if_neg hlt.not_ge, hpages, bind_ok, u64_sub_of_le hsize, bind_ok]
        refine ⟨_, rfl, iff_of_true rfl hasks, ?_⟩
        rintro _ ⟨⟩
        exact hwidens
    · refine ⟨none, ?_, by simpa using hless, nofun⟩
      dsimp only
      split_ifs with hzero hge
      · rfl
      · cases content_length <;> rfl
      · exact absurd ⟨Nat.pos_of_ne_zero hzero, not_le.mp hge⟩ hless

/-- The target of anything else. -/
theorem range_targeted (hpage : 0 < page_size) (hbytes : ¬ "bytes=-".toList <+: trim range_header) :
    Targeted range_header page_size content_length := by
  have hpanic : content_length ≠ some 0 := by
    rintro rfl
    exact absurd (hpos 0 rfl) (Nat.lt_irrefl 0)
  unfold Targeted widened_target AsksForLess
  rw [if_neg hbytes, if_neg hbytes]
  cases hparsed : Parse.parse_range_header (trim range_header) content_length with
  | panic => exact absurd hparsed (parse_range_header_ne_panic hpanic _)
  | err e => cases e
  | ok result =>
    cases result with
    | MultipleRanges ranges | Invalid msg | None => exact ⟨none, rfl, by simp, nofun⟩
    | SingleRange range =>
      obtain ⟨range_spec, hspecs, hdenotes⟩ := parse_range_header_eq_single hparsed
      have hfits := hgrid _ _ hspecs hdenotes
      have hproper := hdenotes.proper
      -- a byte on a page that ends below the greatest number is below it too
      have hlast : range.end_ < u64_max := by
        have hmod := Nat.div_add_mod' range.end_ page_size
        have hrest := Nat.mod_lt range.end_ hpage
        omega
      have hlen : (inclusive_len range.start range.end_ : Outcome ProxyError ℕ) =
          ok (range.end_ - range.start + 1) :=
        inclusive_len_eq_ok.mpr ⟨hproper, by omega, rfl⟩
      have hsize : 0 < content_length.getD u64_max := by
        cases content_length with
        | none => exact Nat.lt_of_le_of_lt (Nat.zero_le _) hlast
        | some size => exact hpos size rfl
      obtain ⟨pages, hpages⟩ := overlapping_pages_ok hproper hpage hsize hfits
      dsimp only
      rw [hlen, bind_ok]
      split
      case isTrue hge => exact ⟨none, rfl, by simpa using hge, nofun⟩
      case isFalse hlt =>
        rw [hpages, bind_ok]
        refine ⟨_, rfl, iff_of_true rfl ⟨range, rfl, by omega⟩, ?_⟩
        rintro _ ⟨⟩
        exact ⟨by omega, overlapping_pages_onPages (by omega) hdenotes.inside hpages, range_spec,
          hspecs, hdenotes⟩

end Targets

/-- **The target of every request whose last page ends on the grid.** It is computed without an
overflow or a panic, and is there exactly if the request is for less than a page. It is one or two
neighbouring pages with every requested byte, or the longer suffix. -/
theorem widened_target_widens (range_header : List Char) (page_size : ℕ) (recorded : Option ℕ)
    (hpage : 0 < page_size)
    (hgrid : EndsOnGrid range_header page_size (known_length recorded)) :
    ∃ target, widened_target range_header page_size (known_length recorded) = ok target ∧
      (target.isSome ↔ AsksForLess range_header page_size (known_length recorded)) ∧
      ∀ t ∈ target, t.Widens range_header page_size (known_length recorded) := by
  by_cases hbytes : "bytes=-".toList <+: trim range_header
  · exact suffix_targeted known_length_pos hgrid hbytes
  · exact range_targeted known_length_pos hgrid hpage hbytes

/-- A request for eleven bytes on both sides of the end of a page. -/
theorem straddling_request_widened :
    0 < 16 ∧ EndsOnGrid "bytes=10-20".toList 16 (known_length (some 100)) ∧
      widened_target "bytes=10-20".toList 16 (known_length (some 100)) =
        ok (some (.Pages [⟨0, 15⟩, ⟨16, 31⟩] ⟨10, 20⟩)) ∧
      (WidenedTarget.Pages [⟨0, 15⟩, ⟨16, 31⟩] ⟨10, 20⟩).Widens "bytes=10-20".toList 16
        (known_length (some 100)) := by
  have hgrid : EndsOnGrid "bytes=10-20".toList 16 (known_length (some 100)) := by
    intro range_spec range _ hdenotes
    have hlt := hdenotes.inside 100 rfl
    have hmax : 200 ≤ u64_max := by decide
    omega
  have htarget : widened_target "bytes=10-20".toList 16 (known_length (some 100)) =
      ok (some (.Pages [⟨0, 15⟩, ⟨16, 31⟩] ⟨10, 20⟩)) := by
    decide
  obtain ⟨target, heq, -, hwidens⟩ :=
    widened_target_widens "bytes=10-20".toList 16 (some 100) (by decide) hgrid
  exact ⟨by decide, hgrid, htarget, hwidens _ (by rw [← ok.inj heq]; rfl)⟩

/-- The last five bytes of an object of unknown size are not widened to pages: of an object of
forty bytes the last sixteen are fetched, and they begin within a page. -/
theorem suffix_of_unknown_size_off_grid :
    widened_target "bytes=-5".toList 16 (known_length none) = ok (some (.SizeUnknownSuffix 5)) ∧
      (¬ ∃ pages original,
        widened_target "bytes=-5".toList 16 (known_length none) =
          ok (some (.Pages pages original))) ∧
      (RangeHeader.suffix 16).Includes 40 24 ∧ ¬ (RangeHeader.suffix 16).Includes 40 23 ∧
      ¬ 16 ∣ 24 := by
  have htarget : widened_target "bytes=-5".toList 16 (known_length none) =
      ok (some (.SizeUnknownSuffix 5)) := by
    decide
  refine ⟨htarget, ?_, ⟨by decide, by dsimp only; omega⟩, fun h => ?_, by decide⟩
  · rintro ⟨pages, original, h⟩
    cases h
  · obtain ⟨-, hle⟩ := h
    omega

end HybridCache.HttpProxy
