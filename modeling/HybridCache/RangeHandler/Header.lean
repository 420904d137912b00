/-
Reading the text of a `Range` header (`parse_range_header` and `parse_single_range_spec` in
`range_handler.rs`).

`Says` is what a specification says, apart from how it is read, and `RangeHeader.Includes` the
bytes it asks for of an object of a given size. Whatever is read is resolved as it should be,
except that the last byte of the object is `length - 1`, and a suffix of an empty object gets that
far.
-/
import HybridCache.Lib.Text
import HybridCache.RangeHandler.Pages

namespace HybridCache.RangeHandler

open Lib Lib.Outcome

/-! ## The model -/

def ProxyError.to_string : ProxyError → String
  | .CacheError msg => s!"Cache error: {msg}"
  | .InvalidRange msg => s!"Invalid range: {msg}"

inductive RangeParseResult where
  | SingleRange (range : RangeSpec)
  | MultipleRanges (ranges : List RangeSpec)
  | Invalid (msg : String)
  | None
deriving DecidableEq, Repr

namespace Parse

def parse_position (s : List Char) (msg : String) : Outcome ProxyError ℕ :=
  match parse_unsigned u64_max s with
  | some n => ok n
  | none => err (.InvalidRange msg)

def parse_bounded (start_str end_str : List Char) (content_length : Option ℕ) :
    Outcome ProxyError RangeSpec := do
  let start ← parse_position start_str "Invalid start position"
  let end_ ← parse_position end_str "Invalid end position"
  if start > end_ then
    err (.InvalidRange "Start position cannot be greater than end position")
  else
    match content_length with
    | some length =>
      if start ≥ length then err (.InvalidRange "Start position exceeds content length")
      else do
        let last ← u64_sub length 1
        ok ⟨start, min end_ last⟩
    | none => ok ⟨start, end_⟩

def parse_open_ended (start_str : List Char) (content_length : Option ℕ) :
    Outcome ProxyError RangeSpec := do
  let start ← parse_position start_str "Invalid start position"
  match content_length with
  | some length =>
    if start ≥ length then err (.InvalidRange "Start position exceeds content length")
    else do
      let last ← u64_sub length 1
      ok ⟨start, last⟩
  | none => err (.InvalidRange "Cannot determine end position without content length")

def parse_suffix (end_str : List Char) (content_length : Option ℕ) :
    Outcome ProxyError RangeSpec := do
  let suffix ← parse_position end_str "Invalid suffix length"
  match content_length with
  | some length =>
    if suffix = 0 then err (.InvalidRange "Suffix length cannot be zero")
    else do
      let last ← u64_sub length 1
      ok ⟨length - suffix, last⟩
  | none => err (.InvalidRange "Cannot determine suffix range without content length")

def parse_single_range_spec (range_spec : List Char) (content_length : Option ℕ) :
    Outcome ProxyError RangeSpec :=
  if '-' ∈ range_spec then
    match range_spec.splitOn '-' with
    | [before, after] =>
      let start_str := trim before
      let end_str := trim after
      match start_str.isEmpty, end_str.isEmpty with
      | false, false => parse_bounded start_str end_str content_length
      | false, true => parse_open_ended start_str content_length
      | true, false => parse_suffix end_str content_length
      | true, true => err (.InvalidRange "Empty range specification")
    | _ => err (.InvalidRange "Range specification must contain exactly one dash")
  else err (.InvalidRange "Range specification must contain a dash")

def range_specs (range_header : List Char) : List (List Char) :=
  ((range_header.drop 6).splitOn ',').map trim

/-- `RangeHandler::parse_range_header`. It returns no error, but it may panic. -/
def parse_range_header (range_header : List Char) (content_length : Option ℕ) :
    Outcome Empty RangeParseResult :=
  if "bytes=".toList <+: range_header then
    match Outcome.traverse (fun range_spec => parse_single_range_spec range_spec content_length)
        (range_specs range_header) with
    | ok parsed_ranges =>
      match parsed_ranges with
      | [] => ok (.Invalid "No valid range specifications")
      | [range] => ok (.SingleRange range)
      | ranges => ok (.MultipleRanges ranges)
    | err e => ok (.Invalid ("Invalid range specification: " ++ e.to_string))
    | .panic => .panic
  else ok (.Invalid "Range header must start with 'bytes='")

end Parse

def RangeParseResult.ranges : RangeParseResult → List RangeSpec
  | .SingleRange range => [range]
  | .MultipleRanges ranges => ranges
  | _ => []

/-! ## What a specification says -/

/-- The bytes that a specification asks for of an object of a size. -/
def RangeHeader.Includes (spec : RangeHeader) (size x : ℕ) : Prop :=
  x < size ∧
    match spec with
    | .bounded first last => first ≤ x ∧ x ≤ last
    | .open_ended first => first ≤ x
    | .suffix n => size ≤ x + n
    | .other => False

/-- What the text of a specification says: two positions, a first position, or a number of last
bytes. Blanks may stand around the numbers. -/
inductive Says : List Char → RangeHeader → Prop where
  | bounded (before after : List Char) (first last : ℕ) (hbefore : '-' ∉ before)
      (hafter : '-' ∉ after) (hfirst : IsNumber (trim before) first)
      (hlast : IsNumber (trim after) last) :
      Says (before ++ '-' :: after) (.bounded first last)
  | open_ended (before after : List Char) (first : ℕ) (hbefore : '-' ∉ before)
      (hafter : '-' ∉ after) (hfirst : IsNumber (trim before) first) (hblank : trim after = []) :
      Says (before ++ '-' :: after) (.open_ended first)
  | suffix (before after : List Char) (n : ℕ) (hbefore : '-' ∉ before) (hafter : '-' ∉ after)
      (hblank : trim before = []) (hn : IsNumber (trim after) n) :
      Says (before ++ '-' :: after) (.suffix n)

/-- The range is what a specification asks for: not empty, inside the object if its size is known,
and then exactly the bytes that the specification includes. Without a size only two positions
can be resolved. -/
structure Denotes (content_length : Option ℕ) (range_spec : List Char) (range : RangeSpec) :
    Prop where
  proper : range.start ≤ range.end_
  inside : ∀ length ∈ content_length, range.end_ < length
  exact : ∃ spec, Says range_spec spec ∧
    (content_length = none → spec = .bounded range.start range.end_) ∧
    ∀ length ∈ content_length, ∀ x, range.Contains x ↔ spec.Includes length x

open Parse

/-- A header is read without a panic, and each range of the result is what the specification in
its place asks for. -/
def ReadExactly (range_header : List Char) (content_length : Option ℕ) : Prop :=
  ∃ result, Parse.parse_range_header range_header content_length = ok result ∧
    (result.ranges = [] ∨
      List.Forall₂ (Denotes content_length) (Parse.range_specs range_header) result.ranges)

/-- A header whose first specification is a suffix, for an object that is known to be empty. -/
def SuffixOfNothing (range_header : List Char) (content_length : Option ℕ) : Prop :=
  content_length = some 0 ∧ "bytes=".toList <+: range_header ∧
    ∃ first ∈ (range_specs range_header).head?, ∃ n, Says first (.suffix n) ∧
      0 < n ∧ n ≤ u64_max

/-! ## Reading one specification -/

namespace Parse

variable {msg : String} {s end_str start_str : List Char}

theorem parse_position_eq_ok {n : ℕ} :
    parse_position s msg = ok n ↔ IsNumber s n ∧ n ≤ u64_max := by
  unfold parse_position
  rw [← parse_unsigned_eq_some_iff]
  cases parse_unsigned u64_max s with
  | none | some m => simp

theorem parse_position_ne_panic : parse_position s msg ≠ .panic := by
  unfold parse_position
  split <;> exact nofun

variable {content_length : Option ℕ} {range : RangeSpec}

theorem parse_bounded_eq_ok (h : parse_bounded start_str end_str content_length = ok range) :
    ∃ first last, IsNumber start_str first ∧ IsNumber end_str last ∧
      RangeHandler.parse_range_header (.bounded first last) content_length = some range := by
  simp only [parse_bounded, bind_eq_ok, parse_position_eq_ok, guard_eq_ok] at h
  obtain ⟨first, ⟨hfirst, -⟩, last, ⟨hlast, -⟩, hle, h⟩ := h
  refine ⟨first, last, hfirst, hlast, ?_⟩
  cases content_length with
  | none =>
    obtain rfl := ok.inj h
    exact if_neg hle
  | some length =>
    simp only [guard_eq_ok, bind_eq_ok, u64_sub_eq_ok] at h
    obtain ⟨hlt, past, ⟨-, rfl⟩, h⟩ := h
    obtain rfl := ok.inj h
    exact if_neg (by omega)

theorem parse_bounded_ne_panic : parse_bounded start_str end_str content_length ≠ .panic := by
  unfold parse_bounded
  simp only [Ne, bind_eq_panic, parse_position_ne_panic, false_or, not_exists, not_and]
  intro first _ last _
  split
  · exact nofun
  · cases content_length with
    | none => exact nofun
    | some length =>
      dsimp only
      split
      · exact nofun
      · rw [u64_sub_of_le (by omega)]
        exact nofun

theorem parse_open_ended_eq_ok (h : parse_open_ended start_str content_length = ok range) :
    ∃ first, IsNumber start_str first ∧
      RangeHandler.parse_range_header (.open_ended first) content_length = some range := by
  simp only [parse_open_ended, bind_eq_ok, parse_position_eq_ok] at h
  obtain ⟨first, ⟨hfirst, -⟩, h⟩ := h
  refine ⟨first, hfirst, ?_⟩
  cases content_length with
  | none => cases h
  | some length =>
    simp only [guard_eq_ok, bind_eq_ok, u64_sub_eq_ok] at h
    obtain ⟨hlt, past, ⟨-, rfl⟩, h⟩ := h
    obtain rfl := ok.inj h
    exact if_neg hlt

theorem parse_open_ended_ne_panic : parse_open_ended start_str content_length ≠ .panic := by
  unfold parse_open_ended
  simp only [Ne, bind_eq_panic, parse_position_ne_panic, false_or, not_exists, not_and]
  intro first _
  cases content_length with
  | none => exact nofun
  | some length =>
    dsimp only
    split
    · exact nofun
    · rw [u64_sub_of_le (by omega)]
      exact nofun

theorem parse_suffix_eq_ok (h : parse_suffix end_str content_length = ok range) :
    ∃ n, IsNumber end_str n ∧ content_length ≠ some 0 ∧
      RangeHandler.parse_range_header (.suffix n) content_length = some range := by
  simp only [parse_suffix, bind_eq_ok, parse_position_eq_ok] at h
  obtain ⟨n, ⟨hn, -⟩, h⟩ := h
  refine ⟨n, hn, ?_⟩
  cases content_length with
  | none => cases h
  | some length =>
    simp only [guard_eq_ok, bind_eq_ok, u64_sub_eq_ok] at h
    obtain ⟨hpos, past, ⟨hlength, rfl⟩, h⟩ := h
    obtain rfl := ok.inj h
    refine ⟨fun hzero => ?_, if_neg hpos⟩
    cases hzero
    omega

theorem parse_suffix_eq_panic_iff :
    parse_suffix end_str content_length = .panic ↔
      content_length = some 0 ∧ ∃ n, IsNumber end_str n ∧ 0 < n ∧ n ≤ u64_max := by
  unfold parse_suffix
  simp only [bind_eq_panic, parse_position_ne_panic, false_or, parse_position_eq_ok]
  cases content_length with
  | none => simp
  | some length =>
    simp only [Option.some.injEq]
    constructor
    · rintro ⟨n, ⟨hn, hmax⟩, h⟩
      split_ifs at h
      simp only [bind_eq_panic] at h
      rcases h with h | ⟨last, -, h⟩
      · refine ⟨?_, n, hn, by omega, hmax⟩
        by_contra hlength
        rw [u64_sub_of_le (by omega)] at h
        cases h
      · cases h
    · rintro ⟨rfl, n, hn, hpos, hmax⟩
      refine ⟨n, ⟨hn, hmax⟩, ?_⟩
      rw [if_neg (by omega)]
      rfl

theorem parse_single_range_spec_of_dash {before after : List Char} (hbefore : '-' ∉ before)
    (hafter : '-' ∉ after) (content_length : Option ℕ) :
    parse_single_range_spec (before ++ '-' :: after) content_length =
      match (trim before).isEmpty, (trim after).isEmpty with
      | false, false => parse_bounded (trim before) (trim after) content_length
      | false, true => parse_open_ended (trim before) content_length
      | true, false => parse_suffix (trim after) content_length
      | true, true => err (.InvalidRange "Empty range specification") := by
  unfold parse_single_range_spec
  rw [if_pos (by simp), splitOn_eq_pair.mpr ⟨rfl, hbefore, hafter⟩]

theorem exists_dash {range_spec : List Char}
    (h : ∀ msg, parse_single_range_spec range_spec content_length ≠ err (.InvalidRange msg)) :
    ∃ before after, range_spec = before ++ '-' :: after ∧ '-' ∉ before ∧ '-' ∉ after := by
  unfold parse_single_range_spec at h
  split at h
  · split at h
    · rename_i before after hsplit
      exact ⟨before, after, splitOn_eq_pair.mp hsplit⟩
    · exact absurd rfl (h _)
  · exact absurd rfl (h _)

end Parse

variable {range : RangeSpec} {spec : RangeHeader}

theorem RangeHeader.Selects.contains_iff {size : ℕ} (h : spec.Selects size range) (x : ℕ) :
    range.Contains x ↔ spec.Includes size x := by
  obtain ⟨hle, hlt, hbounds⟩ := h
  unfold Span.Contains RangeHeader.Includes
  cases spec with
  | bounded first last | open_ended first | suffix n =>
    omega
  | other => exact hbounds.elim

variable {content_length : Option ℕ}

theorem length_pos_of_parsed (h : parse_range_header spec content_length = some range)
    (hsuffix : ∀ n, spec = .suffix n → content_length ≠ some 0) :
    ∀ length ∈ content_length, 0 < length := by
  intro length hlength
  obtain rfl := Option.mem_def.mp hlength
  by_contra hzero
  obtain rfl : length = 0 := by omega
  cases spec with
  | bounded first last =>
    rw [parse_range_header, if_pos (Or.inr (Nat.zero_le first))] at h
    cases h
  | open_ended first | other =>
    cases h
  | suffix n => exact hsuffix n rfl rfl

variable {range_spec : List Char}

theorem denotes_of_parsed (hsaid : Says range_spec spec)
    (h : parse_range_header spec content_length = some range)
    (hsuffix : ∀ n, spec = .suffix n → content_length ≠ some 0) :
    Denotes content_length range_spec range := by
  have hpos := length_pos_of_parsed h hsuffix
  obtain ⟨hle, hlt⟩ := parse_range_header_bounds h hpos
  refine ⟨hle, hlt, spec, hsaid, ?_, fun length hlength => ?_⟩
  · rintro rfl
    cases hsaid with
    | bounded before after first last =>
      rw [parse_range_header] at h
      split at h <;> cases h
      rfl
    | open_ended | suffix => cases h
  · have hselects := (parse_range_header_selects_iff h hle (hlt length hlength) hpos).mpr
      (.inl hlength)
    exact hselects.contains_iff

theorem parse_single_range_spec_eq_ok
    (h : parse_single_range_spec range_spec content_length = ok range) :
    ∃ spec, Says range_spec spec ∧ parse_range_header spec content_length = some range ∧
      ∀ n, spec = .suffix n → content_length ≠ some 0 := by
  obtain ⟨before, after, rfl, hbefore, hafter⟩ := exists_dash fun msg => by
    rw [h]
    exact nofun
  rw [parse_single_range_spec_of_dash hbefore hafter] at h
  split at h
  · obtain ⟨first, last, hfirst, hlast, h⟩ := parse_bounded_eq_ok h
    exact ⟨_, .bounded before after first last hbefore hafter hfirst hlast, h, nofun⟩
  · rename_i hblank
    obtain ⟨first, hfirst, h⟩ := parse_open_ended_eq_ok h
    exact ⟨_, .open_ended before after first hbefore hafter hfirst (List.isEmpty_iff.mp hblank), h,
      nofun⟩
  · rename_i hblank _
    obtain ⟨n, hn, hzero, h⟩ := parse_suffix_eq_ok h
    exact ⟨_, .suffix before after n hbefore hafter (List.isEmpty_iff.mp hblank) hn, h,
      fun _ _ => hzero⟩
  · cases h

/-- **One specification**: what is read is what it says. -/
theorem parse_single_range_spec_denotes
    (h : parse_single_range_spec range_spec content_length = ok range) :
    Denotes content_length range_spec range := by
  obtain ⟨spec, hsaid, hparsed, hsuffix⟩ := parse_single_range_spec_eq_ok h
  exact denotes_of_parsed hsaid hparsed hsuffix

/-- **Where it panics**: at a suffix of an empty object. -/
theorem parse_single_range_spec_eq_panic_iff :
    parse_single_range_spec range_spec content_length = .panic ↔
      content_length = some 0 ∧ ∃ n, Says range_spec (.suffix n) ∧ 0 < n ∧ n ≤ u64_max := by
  constructor
  · intro h
    obtain ⟨before, after, rfl, hbefore, hafter⟩ := exists_dash fun msg => by
      rw [h]
      exact nofun
    rw [parse_single_range_spec_of_dash hbefore hafter] at h
    split at h
    · exact absurd h parse_bounded_ne_panic
    · exact absurd h parse_open_ended_ne_panic
    · rename_i hblank _
      obtain ⟨hzero, n, hn, hpos, hmax⟩ := parse_suffix_eq_panic_iff.mp h
      exact ⟨hzero, n, .suffix before after n hbefore hafter (List.isEmpty_iff.mp hblank) hn,
        hpos, hmax⟩
    · cases h
  · rintro ⟨rfl, n, hsaid, hpos, hmax⟩
    cases hsaid with
    | suffix before after _ hbefore hafter hblank hn =>
      have hafterne : (trim after).isEmpty = false := by
        rw [List.isEmpty_eq_false_iff]
        exact hn.ne_nil
      rw [parse_single_range_spec_of_dash hbefore hafter, hblank, hafterne]
      exact parse_suffix_eq_panic_iff.mpr ⟨rfl, n, hn, hpos, hmax⟩

theorem parse_single_range_spec_empty : parse_single_range_spec range_spec (some 0) ≠ ok range := by
  intro h
  exact absurd ((parse_single_range_spec_denotes h).inside 0 rfl) (Nat.not_lt_zero _)

/-! ## Reading a header -/

variable {range_header : List Char}

theorem Parse.range_specs_ne_nil (range_header : List Char) : range_specs range_header ≠ [] := by
  unfold range_specs
  rw [Ne, List.map_eq_nil_iff]
  exact List.splitOn_ne_nil _ _

theorem traverse_specs_eq_panic_iff :
    Outcome.traverse (fun range_spec => parse_single_range_spec range_spec content_length)
        (range_specs range_header) = .panic ↔
      content_length = some 0 ∧ ∃ first ∈ (range_specs range_header).head?,
        ∃ n, Says first (.suffix n) ∧ 0 < n ∧ n ≤ u64_max := by
  by_cases hzero : content_length = some 0
  · subst hzero
    cases hspecs : range_specs range_header with
    | nil => exact absurd hspecs (range_specs_ne_nil range_header)
    | cons first rest =>
      have hfirst : Outcome.traverse (fun range_spec => parse_single_range_spec range_spec (some 0))
          (first :: rest) = .panic ↔ parse_single_range_spec first (some 0) = .panic := by
        rw [Outcome.traverse, bind_eq_panic, or_iff_left]
        rintro ⟨range, hrange, -⟩
        exact parse_single_range_spec_empty hrange
      rw [hfirst, parse_single_range_spec_eq_panic_iff]
      simp only [List.head?_cons, Option.mem_def, Option.some.injEq, exists_eq_left']
  · have hnever : Outcome.traverse
        (fun range_spec => parse_single_range_spec range_spec content_length)
        (range_specs range_header) ≠ .panic := by
      refine traverse_ne_panic fun range_spec _ hpanic => ?_
      exact hzero (parse_single_range_spec_eq_panic_iff.mp hpanic).1
    exact ⟨fun h => absurd h hnever, fun h => absurd h.1 hzero⟩

theorem parse_range_header_ne_panic (h : content_length ≠ some 0) (range_header : List Char) :
    Parse.parse_range_header range_header content_length ≠ .panic := by
  unfold Parse.parse_range_header
  split
  · split
    · split <;> exact nofun
    · exact nofun
    · rename_i hpanic
      exact absurd (traverse_specs_eq_panic_iff.mp hpanic).1 h
  · exact nofun

theorem parse_range_header_eq_single
    (h : Parse.parse_range_header range_header content_length = ok (.SingleRange range)) :
    ∃ range_spec, Parse.range_specs range_header = [range_spec] ∧
      Denotes content_length range_spec range := by
  unfold Parse.parse_range_header at h
  split at h
  swap
  · cases h
  split at h
  · rename_i parsed hparsed
    split at h
    · cases h
    · cases h
      obtain ⟨range_spec, specs, hfirst, hnil, hspecs⟩ :=
        List.forall₂_cons_right_iff.mp (traverse_eq_ok.mp hparsed)
      obtain rfl := List.forall₂_nil_right_iff.mp hnil
      exact ⟨range_spec, hspecs, parse_single_range_spec_denotes hfirst⟩
    · cases h
  · cases h
  · cases h

/-- **A header is read exactly unless it starts with a suffix of an object that is known to be
empty.** -/
theorem read_exactly_iff_not_suffixOfNothing (range_header : List Char)
    (content_length : Option ℕ) :
    ReadExactly range_header content_length ↔ ¬ SuffixOfNothing range_header content_length := by
  unfold ReadExactly SuffixOfNothing Parse.parse_range_header
  by_cases hbytes : "bytes=".toList <+: range_header
  · simp only [if_pos hbytes]
    cases hspecs : Outcome.traverse
        (fun range_spec => parse_single_range_spec range_spec content_length)
        (range_specs range_header) with
    | ok ranges =>
      have hpanic : ¬ _ := mt traverse_specs_eq_panic_iff.mpr (by rw [hspecs]; exact nofun)
      have hall : List.Forall₂ (Denotes content_length) (range_specs range_header) ranges :=
        (traverse_eq_ok.mp hspecs).imp fun _ _ h => parse_single_range_spec_denotes h
      refine iff_of_true ?_ fun h => hpanic ⟨h.1, h.2.2⟩
      cases ranges with
      | nil => exact ⟨_, rfl, .inl rfl⟩
      | cons range rest =>
        cases rest with
        | nil | cons second rest => exact ⟨_, rfl, .inr hall⟩
    | err e =>
      have hpanic : ¬ _ := mt traverse_specs_eq_panic_iff.mpr (by rw [hspecs]; exact nofun)
      exact iff_of_true ⟨_, rfl, .inl rfl⟩ fun h => hpanic ⟨h.1, h.2.2⟩
    | panic =>
      obtain ⟨hzero, hfirst⟩ := traverse_specs_eq_panic_iff.mp hspecs
      refine iff_of_false ?_ (not_not_intro ⟨hzero, hbytes, hfirst⟩)
      rintro ⟨result, h, -⟩
      cases h
  · simp only [if_neg hbytes]
    exact iff_of_true ⟨_, rfl, .inl rfl⟩ fun h => hbytes h.2.1

example : Parse.parse_range_header "bytes= 10 - 19 ,-5".toList (some 100) =
    ok (.MultipleRanges [⟨10, 19⟩, ⟨95, 99⟩]) := by
  decide

/-- The last five bytes of an empty object. -/
theorem suffix_of_nothing_panics :
    Parse.parse_range_header "bytes=-5".toList (some 0) = .panic ∧
      ¬ ReadExactly "bytes=-5".toList (some 0) := by
  have hpanic : Parse.parse_range_header "bytes=-5".toList (some 0) = .panic := by decide
  refine ⟨hpanic, ?_⟩
  rintro ⟨result, h, -⟩
  cases h

end HybridCache.RangeHandler
