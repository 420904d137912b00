/-
Text as a list of characters: white space, trimming, numbers, and lines.

A line ends with a line feed, which may follow a carriage return; what stands after the last line
feed is a line of its own, unless it is empty.
-/
import Mathlib.Data.List.Basic
import Mathlib.Data.List.TakeWhile
import Mathlib.Tactic.Common

namespace HybridCache.Lib

open List

def is_whitespace (c : Char) : Bool :=
  (0x9 ≤ c.toNat ∧ c.toNat ≤ 0xD) ∨ (0x2000 ≤ c.toNat ∧ c.toNat ≤ 0x200A) ∨
    c.toNat ∈ [0x20, 0x85, 0xA0, 0x1680, 0x2028, 0x2029, 0x202F, 0x205F, 0x3000]

def trim_matches (p : Char → Bool) (s : List Char) : List Char :=
  ((s.dropWhile p).reverse.dropWhile p).reverse

def trim (s : List Char) : List Char :=
  trim_matches is_whitespace s

def split_once (c : Char) (s : List Char) : Option (List Char × List Char) :=
  if c ∈ s then some (s.takeWhile fun d => d ≠ c, (s.dropWhile fun d => d ≠ c).tail) else none

variable {s : List Char}

theorem split_once_append {c : Char} (h : c ∉ s) (t : List Char) :
    split_once c (s ++ c :: t) = some (s, t) := by
  have hne : ∀ d ∈ s, decide (d ≠ c) = true := by
    intro d hd
    exact decide_eq_true fun heq => h (heq ▸ hd)
  unfold split_once
  rw [if_pos (by simp), takeWhile_append_of_pos hne, dropWhile_append_of_pos hne]
  simp

variable {before after : List Char}

theorem split_once_eq_some {c : Char} (h : split_once c s = some (before, after)) :
    s = before ++ c :: after ∧ c ∉ before := by
  by_cases hmem : c ∈ s
  · obtain ⟨first, rest, rfl, hfirst⟩ := eq_append_cons_of_mem hmem
    rw [split_once_append hfirst] at h
    obtain ⟨rfl, rfl⟩ := Prod.mk.inj (Option.some.inj h)
    exact ⟨rfl, hfirst⟩
  · rw [split_once, if_neg hmem] at h
    cases h

theorem trim_eq_self (hhead : ∀ c ∈ s.head?, is_whitespace c = false)
    (hlast : ∀ c ∈ s.getLast?, is_whitespace c = false) : trim s = s := by
  have hdrop : ∀ {l : List Char}, (∀ c ∈ l.head?, is_whitespace c = false) →
      l.dropWhile is_whitespace = l := by
    intro l hl
    cases l with
    | nil => rfl
    | cons c l =>
      rw [dropWhile_cons, if_neg]
      rw [hl c rfl]
      exact Bool.false_ne_true
  have hreverse : ∀ c ∈ s.reverse.head?, is_whitespace c = false := by
    rw [List.head?_reverse]
    exact hlast
  rw [trim, trim_matches, hdrop hhead, hdrop hreverse, reverse_reverse]

theorem trim_of_no_space (h : ∀ c ∈ s, is_whitespace c = false) : trim s = s :=
  trim_eq_self (fun c hc => h c (mem_of_mem_head? hc)) fun c hc => h c (mem_of_getLast? hc)

theorem trim_append (hbefore : ∀ c ∈ before, is_whitespace c = true)
    (hafter : ∀ c ∈ after, is_whitespace c = true) (s : List Char) :
    trim (before ++ (s ++ after)) = trim s := by
  unfold trim trim_matches
  rw [dropWhile_append_of_pos hbefore, dropWhile_append]
  by_cases hempty : s.dropWhile is_whitespace = []
  · have hnil : after.dropWhile is_whitespace = [] := dropWhile_eq_nil_iff.mpr hafter
    rw [hempty, hnil]
    rfl
  · have hreverse : ∀ c ∈ after.reverse, is_whitespace c = true :=
      fun c hc => hafter c (mem_reverse.mp hc)
    rw [if_neg (by simpa using hempty), reverse_append, dropWhile_append_of_pos hreverse]

theorem mem_trim {c : Char} (h : c ∈ s) (hc : is_whitespace c = false) : c ∈ trim s := by
  have hdrop : ∀ {l : List Char}, c ∈ l → c ∈ l.dropWhile is_whitespace := by
    intro l hl
    rw [← @List.takeWhile_append_dropWhile _ is_whitespace l, mem_append] at hl
    rcases hl with hl | hl
    · have hspace := mem_takeWhile_imp hl
      rw [hc] at hspace
      cases hspace
    · exact hl
  rw [trim, trim_matches, mem_reverse]
  exact hdrop (mem_reverse.mpr (hdrop h))

/-! ## Parts of a text -/

section Parts

variable {sub a b : List Char} {c : Char}

/-- A text does not stand across a character that it does not have. -/
theorem part_of_append_cons (hc : c ∉ sub) (h : sub <:+: a ++ c :: b) :
    sub <:+: a ∨ sub <:+: b := by
  obtain ⟨s, t, heq⟩ := h
  rcases append_eq_append_iff.mp heq with ⟨rest, ha, -⟩ | ⟨past, hs, hb⟩
  · exact .inl ⟨s, rest, ha.symm⟩
  · cases past with
    | nil => exact .inl ⟨s, [], by rw [append_nil] at hs ⊢; exact hs⟩
    | cons d past =>
      obtain ⟨rfl, rfl⟩ := List.cons.inj hb
      rcases append_eq_append_iff.mp hs with ⟨rest, -, hsub⟩ | ⟨front, -, hover⟩
      · exact absurd (hsub ▸ mem_append_right rest mem_cons_self) hc
      · cases front with
        | nil => exact absurd (hover ▸ mem_cons_self : c ∈ [] ++ sub) hc
        | cons d front =>
          obtain ⟨-, rfl⟩ := List.cons.inj hover
          exact .inr ⟨front, t, rfl⟩

theorem part_of_append_left (hne : sub ≠ []) (ha : ∀ c ∈ a, c ∉ sub) (h : sub <:+: a ++ b) :
    sub <:+: b := by
  induction a with
  | nil => exact h
  | cons c a ih =>
    have hrest : sub <:+: [] ∨ sub <:+: a ++ b := part_of_append_cons (ha c mem_cons_self) h
    rcases hrest with hnil | hrest
    · exact absurd (infix_nil.mp hnil) hne
    · exact ih (fun d hd => ha d (mem_cons_of_mem c hd)) hrest

theorem part_of_append_right (hne : sub ≠ []) (hb : ∀ c ∈ b, c ∉ sub) (h : sub <:+: a ++ b) :
    sub <:+: a := by
  cases b with
  | nil => rwa [append_nil] at h
  | cons c b =>
    rcases part_of_append_cons (hb c mem_cons_self) h with ha | hrest
    · exact ha
    · obtain ⟨d, sub, rfl⟩ := exists_cons_of_ne_nil hne
      have hd := mem_cons_of_mem c (hrest.subset mem_cons_self)
      exact absurd mem_cons_self (hb d hd)

end Parts

/-! ## Numbers -/

/-- `IntErrorKind`, of a text that is no number of the type. -/
inductive IntErrorKind where
  | Empty
  | InvalidDigit
  | PosOverflow
deriving DecidableEq, Repr

/-- `Display` of a `ParseIntError`. -/
def IntErrorKind.to_string : IntErrorKind → String
  | .Empty => "cannot parse integer from empty string"
  | .InvalidDigit => "invalid digit found in string"
  | .PosOverflow => "number too large to fit in target type"

def hex_digit (c : Char) : Option ℕ :=
  if '0' ≤ c ∧ c ≤ '9' then some (c.toNat - '0'.toNat)
  else if 'a' ≤ c ∧ c ≤ 'f' then some (c.toNat - 'a'.toNat + 10)
  else if 'A' ≤ c ∧ c ≤ 'F' then some (c.toNat - 'A'.toNat + 10)
  else none

def decimal_digit (c : Char) : Option ℕ :=
  if c.isDigit then some (c.toNat - '0'.toNat) else none

section Radix

variable (digit : Char → Option ℕ) (radix max : ℕ)

/-- The digits of a number that is at most `max`, after a value. -/
def parse_digits : ℕ → List Char → Except IntErrorKind ℕ
  | value, [] => .ok value
  | value, c :: rest =>
    match digit c with
    | none => .error .InvalidDigit
    | some d =>
      if max < value * radix + d then .error .PosOverflow
      else parse_digits (value * radix + d) rest

/-- `from_str_radix` at an unsigned type whose greatest number is `max`. A plus sign may stand in
front. -/
def from_str_radix : List Char → Except IntErrorKind ℕ
  | [] => .error .Empty
  | ['+'] => .error .InvalidDigit
  | '+' :: digits => parse_digits digit radix max 0 digits
  | digits => parse_digits digit radix max 0 digits

/-- The number that digits are after a value, without a bound. -/
def text_value (value : ℕ) (s : List Char) : ℕ :=
  s.foldl (fun n c => n * radix + (digit c).getD 0) value

variable {digit radix max} {n : ℕ}

theorem le_text_value (hradix : 0 < radix) (value : ℕ) (s : List Char) :
    value ≤ text_value digit radix value s := by
  induction s generalizing value with
  | nil => exact Nat.le_refl value
  | cons c s ih =>
    have hstep : value ≤ value * radix + (digit c).getD 0 :=
      (Nat.le_mul_of_pos_right value hradix).trans (Nat.le_add_right _ _)
    exact hstep.trans (ih _)

/-- Digits are read as their value, if that fits. The value only grows, so an early overflow is
final. -/
theorem parse_digits_eq_ok_iff (hradix : 0 < radix) {value : ℕ} (hvalue : value ≤ max) :
    parse_digits digit radix max value s = .ok n ↔
      (∀ c ∈ s, (digit c).isSome = true) ∧ text_value digit radix value s = n ∧ n ≤ max := by
  induction s generalizing value with
  | nil =>
    simp only [parse_digits, Except.ok.injEq, text_value, foldl_nil]
    grind
  | cons c s ih =>
    rw [parse_digits, forall_mem_cons]
    cases hdigit : digit c with
    | none => simp
    | some d =>
      have hcons : text_value digit radix value (c :: s) =
          text_value digit radix (value * radix + d) s := by simp [text_value, hdigit]
      have hle := @le_text_value digit radix hradix (value * radix + d) s
      dsimp only
      split
      case isTrue => simp only [reduceCtorEq, Option.isSome_some, true_and, false_iff]; omega
      case isFalse hmax => simp [ih (Nat.not_lt.mp hmax), hcons]

/-- What is read as a number is digits behind a plus sign that may be missing. -/
theorem from_str_radix_eq_ok_iff (hplus : digit '+' = none) (hradix : 0 < radix) :
    from_str_radix digit radix max s = .ok n ↔
      ∃ digits, digits ≠ [] ∧ (∀ c ∈ digits, (digit c).isSome = true) ∧
        (s = digits ∨ s = '+' :: digits) ∧ text_value digit radix 0 digits = n ∧ n ≤ max := by
  have hno : ∀ digits, ¬ ∀ c ∈ '+' :: digits, (digit c).isSome = true := by simp [hplus]
  unfold from_str_radix
  split
  · simp
  · grind
  · rw [parse_digits_eq_ok_iff hradix (Nat.zero_le max)]
    grind
  · rw [parse_digits_eq_ok_iff hradix (Nat.zero_le max)]
    grind

theorem mem_toDigits (hradix : 1 < radix) {c : Char} (h : c ∈ Nat.toDigits radix n) :
    ∃ d < radix, c = d.digitChar := by
  induction n using Nat.strongRecOn with
  | _ n ih =>
    by_cases hlt : n < radix
    · rw [Nat.toDigits_of_lt_base hlt, mem_singleton] at h
      exact ⟨n, hlt, h⟩
    · rw [Nat.toDigits_of_base_le hradix (Nat.not_lt.mp hlt), mem_append, mem_singleton] at h
      rcases h with h | h
      · exact ih (n / radix) (Nat.div_lt_self (by omega) hradix) h
      · exact ⟨n % radix, Nat.mod_lt n (by omega), h⟩

variable (hdigit : ∀ d < radix, digit d.digitChar = some d)

include hdigit

theorem text_value_toDigits (hradix : 1 < radix) :
    text_value digit radix 0 (Nat.toDigits radix n) = n := by
  induction n using Nat.strongRecOn with
  | _ n ih =>
    by_cases hlt : n < radix
    · simp [Nat.toDigits_of_lt_base hlt, text_value, hdigit n hlt]
    · have hrest := ih (n / radix) (Nat.div_lt_self (by omega) hradix)
      unfold text_value at hrest ⊢
      rw [Nat.toDigits_of_base_le hradix (Nat.not_lt.mp hlt), foldl_append, hrest, foldl_cons,
        hdigit _ (Nat.mod_lt n (by omega))]
      exact Nat.div_add_mod' n radix

/-- A number that is written out is read back. -/
theorem from_str_radix_toDigits (hplus : digit '+' = none) (hradix : 1 < radix) (h : n ≤ max) :
    from_str_radix digit radix max (Nat.toDigits radix n) = .ok n := by
  refine (from_str_radix_eq_ok_iff hplus (by omega)).mpr
    ⟨_, Nat.toDigits_ne_nil, ?_, .inl rfl, text_value_toDigits hdigit hradix, h⟩
  intro c hc
  obtain ⟨d, hd, rfl⟩ := mem_toDigits hradix hc
  rw [hdigit d hd]
  rfl

end Radix

def parse_hex (max : ℕ) : List Char → Except IntErrorKind ℕ :=
  from_str_radix hex_digit 16 max

/-- `str::parse` at an unsigned type whose greatest number is `max`, with the error. -/
def parse_decimal (max : ℕ) : List Char → Except IntErrorKind ℕ :=
  from_str_radix decimal_digit 10 max

def parse_unsigned (max : ℕ) (s : List Char) : Option ℕ :=
  (parse_decimal max s).toOption

variable {n max : ℕ}

theorem parse_hex_toDigits (h : n ≤ max) : parse_hex max (Nat.toDigits 16 n) = .ok n :=
  from_str_radix_toDigits (by decide) rfl (by decide) h

theorem parse_decimal_toDigits (h : n ≤ max) : parse_decimal max (Nat.toDigits 10 n) = .ok n :=
  from_str_radix_toDigits (by decide) rfl (by decide) h

theorem toDigits_injective {m : ℕ} (h : Nat.toDigits 10 m = Nat.toDigits 10 n) : m = n := by
  have hvalue := congrArg (fun digits => Nat.ofDigitChars 10 digits 0) h
  simpa only [Nat.ofDigitChars_ten_toDigits] using hvalue

theorem not_mem_toDigits {c : Char} (hc : c.isDigit = false) : c ∉ Nat.toDigits 10 n := by
  intro hmem
  rw [Nat.isDigit_of_mem_toDigits (by decide) (by decide) hmem] at hc
  cases hc

/-- The text is a number in decimal digits, with or without a plus sign before it. -/
def IsNumber (s : List Char) (n : ℕ) : Prop :=
  ∃ digits, digits ≠ [] ∧ (∀ c ∈ digits, c.isDigit = true) ∧ (s = digits ∨ s = '+' :: digits) ∧
    Nat.ofDigitChars 10 digits 0 = n

theorem isSome_decimal_digit {c : Char} : (decimal_digit c).isSome = true ↔ c.isDigit = true := by
  unfold decimal_digit
  split <;> simp_all

theorem text_value_decimal {value : ℕ} (h : ∀ c ∈ s, c.isDigit = true) :
    text_value decimal_digit 10 value s = Nat.ofDigitChars 10 s value := by
  induction s generalizing value with
  | nil => rfl
  | cons c s ih =>
    have hc : decimal_digit c = some (c.toNat - '0'.toNat) := if_pos (h c mem_cons_self)
    rw [text_value, foldl_cons, hc, Nat.mul_comm]
    exact ih fun d hd => h d (mem_cons_of_mem c hd)

/-- Exactly the numbers that fit are read. -/
theorem parse_unsigned_eq_some_iff : parse_unsigned max s = some n ↔ IsNumber s n ∧ n ≤ max := by
  have hparse : parse_unsigned max s = some n ↔ parse_decimal max s = .ok n := by
    unfold parse_unsigned
    cases parse_decimal max s with
    | error e | ok m => simp [Except.toOption]
  rw [hparse, parse_decimal, from_str_radix_eq_ok_iff rfl (by decide), IsNumber]
  simp only [isSome_decimal_digit]
  constructor
  · rintro ⟨digits, hne, hall, hs, hvalue, hmax⟩
    exact ⟨⟨digits, hne, hall, hs, text_value_decimal hall ▸ hvalue⟩, hmax⟩
  · rintro ⟨⟨digits, hne, hall, hs, hvalue⟩, hmax⟩
    exact ⟨digits, hne, hall, hs, (text_value_decimal hall).trans hvalue, hmax⟩

theorem IsNumber.ne_nil (h : IsNumber s n) : s ≠ [] := by
  obtain ⟨digits, hne, -, hs, -⟩ := h
  rcases hs with rfl | rfl
  · exact hne
  · exact cons_ne_nil _ _

theorem IsNumber.plus_or_digit (h : IsNumber s n) {c : Char} (hc : c ∈ s) :
    c = '+' ∨ c.isDigit = true := by
  obtain ⟨digits, -, hall, hs, -⟩ := h
  rcases hs with rfl | rfl
  · exact .inr (hall c hc)
  · rcases mem_cons.mp hc with rfl | hc
    · exact .inl rfl
    · exact .inr (hall c hc)

theorem isDigit_bounds {c : Char} (h : c.isDigit = true) : 48 ≤ c.toNat ∧ c.toNat ≤ 57 := by
  rw [Char.isDigit, Bool.and_eq_true, decide_eq_true_eq, decide_eq_true_eq] at h
  exact ⟨UInt32.le_iff_toNat_le.mp h.1, UInt32.le_iff_toNat_le.mp h.2⟩

theorem is_whitespace_of_isDigit {c : Char} (h : c.isDigit = true) : is_whitespace c = false := by
  have hbounds := isDigit_bounds h
  apply decide_eq_false
  simp only [mem_cons, not_mem_nil, or_false]
  omega

theorem IsNumber.not_is_whitespace (h : IsNumber s n) {c : Char} (hc : c ∈ s) :
    is_whitespace c = false := by
  rcases h.plus_or_digit hc with rfl | hdigit
  · decide
  · exact is_whitespace_of_isDigit hdigit

/-! ## Words -/

theorem splitOn_eq_pair {c : Char} {a b : List Char} :
    s.splitOn c = [a, b] ↔ s = a ++ c :: b ∧ c ∉ a ∧ c ∉ b := by
  constructor
  · intro h
    have hmem : c ∈ s := by
      by_contra hmem
      rw [splitOn_eq_singleton hmem] at h
      cases h
    obtain ⟨first, rest, rfl, hfirst⟩ := eq_append_cons_of_mem hmem
    rw [splitOn_append_cons_self_of_not_mem hfirst] at h
    obtain ⟨rfl, hrest⟩ := List.cons.inj h
    have hmem' : c ∉ rest := by
      intro hmem'
      obtain ⟨second, third, rfl, hsecond⟩ := eq_append_cons_of_mem hmem'
      rw [splitOn_append_cons_self_of_not_mem hsecond] at hrest
      exact splitOn_ne_nil c third (List.cons.inj hrest).2
    rw [splitOn_eq_singleton hmem'] at hrest
    obtain rfl := (List.cons.inj hrest).1
    exact ⟨rfl, hfirst, hmem'⟩
  · rintro ⟨rfl, ha, hb⟩
    rw [splitOn_append_cons_self_of_not_mem ha, splitOn_eq_singleton hb]

def split_whitespace (s : List Char) : List (List Char) :=
  (s.splitOnP is_whitespace).filter fun word => word ≠ []

theorem split_whitespace_append {word : List Char} (hne : word ≠ [])
    (hword : ∀ c ∈ word, is_whitespace c = false) {c : Char} (hc : is_whitespace c = true)
    (rest : List Char) : split_whitespace (word ++ c :: rest) = word :: split_whitespace rest := by
  unfold split_whitespace
  rw [splitOnP_append_cons_of_forall_mem hword c hc, filter_cons_of_pos]
  exact decide_eq_true hne

/-! ## Parts between a text -/

/-- The parts of a text between the occurrences of another, from the left. `current` is the part so
far, last character first, and `skip` is what is left of the occurrence that was just found. -/
def split_text_from (sep : List Char) : ℕ → List Char → List Char → List (List Char)
  | _, current, [] => [current.reverse]
  | skip + 1, current, _ :: rest => split_text_from sep skip current rest
  | 0, current, c :: rest =>
    if sep <+: c :: rest then current.reverse :: split_text_from sep (sep.length - 1) [] rest
    else split_text_from sep 0 (c :: current) rest

def split_text (sep s : List Char) : List (List Char) :=
  split_text_from sep 0 [] s

variable {sep current first second : List Char} {rest : List (List Char)}

theorem split_text_from_eq (h : split_text_from sep 0 current s = first :: second :: rest) :
    ∃ tail, current.reverse ++ s = first ++ (sep ++ tail) := by
  induction s generalizing current with
  | nil =>
    cases h
  | cons c s ih =>
    rw [split_text_from] at h
    split_ifs at h with hsep
    · obtain ⟨tail, htail⟩ := hsep
      refine ⟨tail, ?_⟩
      rw [(List.cons.inj h).1, htail]
    · obtain ⟨tail, htail⟩ := ih h
      refine ⟨tail, ?_⟩
      rw [← htail, reverse_cons, append_assoc, singleton_append]

theorem split_text_eq (h : split_text sep s = first :: second :: rest) :
    ∃ tail, s = first ++ (sep ++ tail) :=
  split_text_from_eq h

/-! ## Lines -/

/-- The characters of a line so far, last first, without the carriage return they end in. -/
def without_return : List Char → List Char
  | '\r' :: rest => rest
  | current => current

/-- The lines of a text, given what has been read of the first one, last character first. -/
def lines_from (current : List Char) : List Char → List (List Char)
  | [] => if current = [] then [] else [current.reverse]
  | c :: rest =>
    if c = '\n' then (without_return current).reverse :: lines_from [] rest
    else lines_from (c :: current) rest

def lines (s : List Char) : List (List Char) :=
  lines_from [] s

def unlines (texts : List (List Char)) : List Char :=
  texts.flatMap fun text => text ++ ['\n']

/-- A text that is one line. -/
def OneLine (text : List Char) : Prop :=
  '\n' ∉ text ∧ text.getLast? ≠ some '\r'

theorem without_return_of_ne (h : current.head? ≠ some '\r') :
    without_return current = current := by
  unfold without_return
  split
  · exact absurd rfl h
  · rfl

theorem lines_from_line (current text rest : List Char) (h : '\n' ∉ text) :
    lines_from current (text ++ '\n' :: rest) =
      (without_return (text.reverse ++ current)).reverse :: lines rest := by
  induction text generalizing current with
  | nil =>
    rfl
  | cons c text ih =>
    rw [mem_cons, not_or] at h
    rw [cons_append, lines_from, if_neg (Ne.symm h.1), ih _ h.2, reverse_cons, append_assoc]
    rfl

/-- Lines that are written out are read back. -/
theorem lines_unlines {texts : List (List Char)} (h : ∀ text ∈ texts, OneLine text) :
    lines (unlines texts) = texts := by
  induction texts with
  | nil => rfl
  | cons text rest ih =>
    obtain ⟨hfeed, hreturn⟩ := h text mem_cons_self
    have hlast : (text.reverse ++ []).head? ≠ some '\r' := by
      rw [append_nil, List.head?_reverse]
      exact hreturn
    rw [unlines, flatMap_cons, append_assoc, singleton_append, lines,
      lines_from_line _ _ _ hfeed, without_return_of_ne hlast, append_nil,
      reverse_reverse]
    exact congrArg (text :: ·) (ih fun t ht => h t (mem_cons_of_mem _ ht))

variable {text : List Char}

theorem lines_crlf (h : '\n' ∉ text) (rest : List Char) :
    lines (text ++ '\r' :: '\n' :: rest) = text :: lines rest := by
  have hfeed : '\n' ∉ text ++ ['\r'] := by simpa using h
  have hline := lines_from_line [] (text ++ ['\r']) rest hfeed
  rw [append_assoc, append_nil, reverse_append] at hline
  refine hline.trans ?_
  rw [show ['\r'].reverse ++ text.reverse = '\r' :: text.reverse from rfl, without_return,
    reverse_reverse]

theorem lines_last (h : '\n' ∉ text) (hne : text ≠ []) : lines text = [text] := by
  have hfrom : ∀ current : List Char, text.reverse ++ current ≠ [] →
      lines_from current text = [(text.reverse ++ current).reverse] := by
    clear hne
    induction text with
    | nil =>
      intro current hcurrent
      rw [lines_from, if_neg (by simpa using hcurrent)]
      rfl
    | cons c text ih =>
      intro current hcurrent
      rw [mem_cons, not_or] at h
      rw [lines_from, if_neg (Ne.symm h.1), ih h.2 (c :: current) (by simp)]
      simp
  rw [lines, hfrom [] (by simpa using hne), append_nil, reverse_reverse]

end HybridCache.Lib
