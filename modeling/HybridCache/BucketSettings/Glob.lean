/-
The translation of a glob into a regular expression (`bucket_settings.rs`).

`glob_to_regex` reads each byte of the pattern as a character of its own and slices as many bytes
as that has. For a character outside ASCII that is two bytes, so a character of three or four is
cut and the slice panics: the translation succeeds exactly on patterns below U+0800.

The expression and the glob agree on all paths exactly if there is no `**`, which becomes `.*` and
stops at a line feed. No pattern with `**` is saved by what stands beside it: a path with more line
feeds behind slashes than the pattern has tokens is out of reach (`breaks`).
-/
import HybridCache.Lib.Outcome
import HybridCache.Lib.Regex
import HybridCache.Lib.Text
import HybridCache.Lib.Utf8

namespace HybridCache.BucketSettings

open Lib List

/-! ## The model -/

/-- `str::is_char_boundary`, in the bytes of a text. -/
def is_char_boundary (bytes : List UInt8) (index : ℕ) : Bool :=
  match bytes[index]? with
  | some b => !continues b
  | none => index = bytes.length

/-- A slice of the first `n` bytes of the rest of a text. It panics if it cuts a character; of a
text it never gives bytes that are not one. -/
def slice_text (bytes : List UInt8) (n : ℕ) : Outcome String (List Char) :=
  if is_char_boundary bytes 0 ∧ is_char_boundary bytes n then
    match from_utf8 (bytes.take n) with
    | .ok text => .ok text
    | .error _ => .panic
  else .panic

/-- The loop of `glob_to_regex` from an index on. -/
def translate_glob : List UInt8 → Outcome String (List Char)
  | [] => .ok []
  | b :: rest =>
    let c := Char.ofNat b.toNat
    if c = '*' then
      if rest.head? = some 0x2A then do
        let out ← translate_glob rest.tail
        pure (".*".toList ++ out)
      else do
        let out ← translate_glob rest
        pure ("[^/]*".toList ++ out)
    else if c = '?' then do
      let out ← translate_glob rest
      pure ("[^/]".toList ++ out)
    else do
      let ch_str ← slice_text (b :: rest) c.utf8Size
      let out ← translate_glob ((b :: rest).drop c.utf8Size)
      pure (Regex.escape ch_str ++ out)
termination_by bytes => bytes.length
decreasing_by
  · simp only [length_tail, length_cons]
    omega
  · simp
  · simp
  · have hpos : 0 < (Char.ofNat b.toNat).utf8Size := Char.utf8Size_pos _
    simp only [length_drop, length_cons]
    omega

def glob_to_regex (pattern : List Char) : Outcome String (List Char) :=
  if trim pattern = [] then .err "pattern is empty"
  else do
    let out ← translate_glob (to_utf8 pattern)
    pure ('^' :: (out ++ ['$']))

/-! ## Globs as they are documented -/

inductive GlobToken where
  | star
  | double_star
  | question
  | literal (c : Char)
deriving DecidableEq, Repr

def glob_tokens : List Char → List GlobToken
  | [] => []
  | '*' :: '*' :: rest => .double_star :: glob_tokens rest
  | '*' :: rest => .star :: glob_tokens rest
  | '?' :: rest => .question :: glob_tokens rest
  | c :: rest => .literal c :: glob_tokens rest

/-- `*` is any run of characters without a slash, `**` any run of characters, `?` one character
that is no slash, and every other character is itself. -/
def GlobToken.Matches : List GlobToken → List Char → Prop
  | [], path => path = []
  | .star :: tokens, path => ∃ first later, path = first ++ later ∧ '/' ∉ first ∧
      GlobToken.Matches tokens later
  | .double_star :: tokens, path => ∃ first later, path = first ++ later ∧
      GlobToken.Matches tokens later
  | .question :: tokens, path => ∃ c later, path = c :: later ∧ c ≠ '/' ∧
      GlobToken.Matches tokens later
  | .literal c :: tokens, path => ∃ later, path = c :: later ∧ GlobToken.Matches tokens later

def GlobMatches (pattern path : List Char) : Prop :=
  GlobToken.Matches (glob_tokens pattern) path

/-! ## What the translation gives -/

def token_piece : GlobToken → Regex.Piece
  | .star => ⟨.except '/', true⟩
  | .double_star => ⟨.any, true⟩
  | .question => ⟨.except '/', false⟩
  | .literal c => ⟨.literal c, false⟩

section Translation

variable {c : Char} {rest : List Char}

theorem plain_pieces (tokens : List GlobToken) : ∀ p ∈ tokens.map token_piece, p.atom.Plain := by
  intro p hp
  obtain ⟨token, -, rfl⟩ := List.mem_map.mp hp
  cases token with
  | star | question => exact (by decide : Regex.is_meta_character '/' = false)
  | double_star | literal c => trivial

variable {s pattern : List Char}

theorem head?_to_utf8 : (to_utf8 s).head? = some 0x2A ↔ s.head? = some '*' := by
  cases s with
  | nil => simp
  | cons c rest =>
    obtain ⟨b, more, hencode, hb⟩ := encode_head c
    rw [to_utf8_cons, hencode, cons_append, List.head?_cons, List.head?_cons,
      Option.some.injEq, Option.some.injEq, ← UInt8.toNat_inj, ← Char.toNat_inj]
    change b.toNat = 42 ↔ c.toNat = 42
    omega

theorem is_char_boundary_to_utf8 (s : List Char) : is_char_boundary (to_utf8 s) 0 = true := by
  cases s with
  | nil => rfl
  | cons c rest =>
    obtain ⟨b, more, hencode, hb⟩ := encode_head c
    have hcontinues : continues b = false := decide_eq_false (by omega)
    rw [to_utf8_cons, hencode, is_char_boundary, cons_append, List.getElem?_cons_zero]
    simp only [hcontinues, Bool.not_false]

theorem slice_text_first :
    slice_text (to_utf8 (c :: rest)) (String.utf8EncodeChar c).length = .ok [c] := by
  have hend : is_char_boundary (to_utf8 (c :: rest)) (String.utf8EncodeChar c).length = true := by
    have hrest := is_char_boundary_to_utf8 rest
    rw [is_char_boundary] at hrest ⊢
    rw [to_utf8_cons, List.getElem?_append_right le_rfl, Nat.sub_self, length_append]
    cases hget : (to_utf8 rest)[0]? with
    | none =>
      simp only [hget, decide_eq_true_eq] at hrest ⊢
      omega
    | some b => simpa only [hget] using hrest
  have htake : (to_utf8 (c :: rest)).take (String.utf8EncodeChar c).length = to_utf8 [c] := by
    rw [to_utf8_cons, take_left, to_utf8_cons, to_utf8_nil, append_nil]
  rw [slice_text, if_pos ⟨is_char_boundary_to_utf8 _, hend⟩, htake, from_utf8_to_utf8]

theorem translate_glob_other {c : Char} (hstar : c ≠ '*') (hquestion : c ≠ '?')
    (rest : List Char) :
    translate_glob (to_utf8 (c :: rest)) =
      if c.toNat < 0x800 then do
        let out ← translate_glob (to_utf8 rest)
        pure (Regex.escape [c] ++ out)
      else .panic := by
  obtain ⟨b, more, hencode, hb⟩ := encode_head c
  have hblt := b.toNat_lt
  have hbyte : (Char.ofNat b.toNat).toNat = b.toNat := toNat_ofNat_char (Or.inl (by omega))
  have hne : ∀ d : Char, d.toNat < 128 → c ≠ d → Char.ofNat b.toNat ≠ d := by
    rintro d hd hcd rfl
    have hvalue : c.toNat = b.toNat := by omega
    exact hcd (Char.toNat_inj.mp (hvalue.trans hbyte.symm))
  have hbytes : to_utf8 (c :: rest) = b :: (more ++ to_utf8 rest) := by
    rw [to_utf8_cons, hencode, cons_append]
  have hsize : (Char.ofNat b.toNat).utf8Size = if b.toNat < 128 then 1 else 2 := by
    split_ifs
    · rw [Char.utf8Size_eq_one_iff, UInt32.le_iff_toNat_le]
      change (Char.ofNat b.toNat).toNat ≤ 127
      omega
    · rw [Char.utf8Size_eq_two_iff, UInt32.lt_iff_toNat_lt, UInt32.le_iff_toNat_le]
      change 127 < (Char.ofNat b.toNat).toNat ∧ (Char.ofNat b.toNat).toNat ≤ 2047
      omega
  rw [hbytes, translate_glob]
  simp only [if_neg (hne '*' (by decide) hstar), if_neg (hne '?' (by decide) hquestion), hsize]
  rw [← hbytes]
  by_cases hnarrow : c.toNat < 0x800
  · -- the slice is as long as the character
    have hlength : (if b.toNat < 128 then 1 else 2) = (String.utf8EncodeChar c).length := by
      by_cases hlow : c.toNat < 128
      · rw [if_pos (by omega), encode_ascii hlow]
        rfl
      · obtain ⟨b', b₁, htwo, -⟩ := encode_two (Nat.not_lt.mp hlow) hnarrow
        rw [if_neg (by omega), htwo]
        rfl
    have hdrop : (to_utf8 (c :: rest)).drop (String.utf8EncodeChar c).length = to_utf8 rest := by
      rw [to_utf8_cons, drop_left]
    rw [hlength, slice_text_first, hdrop, if_pos hnarrow, Outcome.bind_ok]
  · -- the slice ends before the third byte
    obtain ⟨b', b₁, b₂, more', hthree, hb', hcontinues⟩ := encode_three (Nat.not_lt.mp hnarrow)
    have hcut : is_char_boundary (to_utf8 (c :: rest)) 2 = false := by
      rw [is_char_boundary, to_utf8_cons, hthree]
      simp [hcontinues]
    rw [if_neg (by omega : ¬ b.toNat < 128), slice_text, if_neg (by simp [hcut]),
      Outcome.bind_panic, if_neg hnarrow]

theorem translated_append (first : List Char) {rest text out : List Char}
    (hfirst : ∀ c ∈ first, c.toNat < 0x800) :
    (if ∀ c ∈ rest, c.toNat < 0x800 then Outcome.ok out else .panic : Outcome String _) >>=
        (fun out => pure (text ++ out)) =
      if ∀ c ∈ first ++ rest, c.toNat < 0x800 then .ok (text ++ out) else .panic := by
  by_cases hrest : ∀ c ∈ rest, c.toNat < 0x800
  · rw [if_pos hrest, if_pos (forall_mem_append.mpr ⟨hfirst, hrest⟩)]
    rfl
  · rw [if_neg hrest, if_neg fun h => hrest (forall_mem_append.mp h).2]
    rfl

/-- **The translation panics exactly on a character from U+0800 on, and gives the pieces of the
tokens otherwise.** -/
theorem translate_glob_eq :
    translate_glob (to_utf8 pattern) =
      if ∀ c ∈ pattern, c.toNat < 0x800 then
        .ok (((glob_tokens pattern).map token_piece).flatMap Regex.Piece.text)
      else .panic := by
  induction pattern using glob_tokens.induct with
  | case1 => rw [to_utf8_nil, translate_glob, if_pos (forall_mem_nil _)]; rfl
  | case2 rest ih =>
    have hbytes : to_utf8 ('*' :: '*' :: rest) = 0x2A :: 0x2A :: to_utf8 rest := rfl
    rw [hbytes, translate_glob, if_pos (by decide), if_pos List.head?_cons, tail_cons, ih,
      translated_append ['*', '*'] (by simp), glob_tokens]
    rfl
  | case3 rest hrest ih =>
    have hbytes : to_utf8 ('*' :: rest) = 0x2A :: to_utf8 rest := rfl
    have hhead : ¬ (to_utf8 rest).head? = some 0x2A := by
      rw [head?_to_utf8, List.head?_eq_some_iff]
      rintro ⟨text, htext⟩
      exact hrest text htext
    rw [hbytes, translate_glob, if_pos (by decide), if_neg hhead, ih,
      translated_append ['*'] (by simp), glob_tokens]
    · rfl
    · exact hrest
  | case4 rest ih =>
    have hbytes : to_utf8 ('?' :: rest) = 0x3F :: to_utf8 rest := rfl
    rw [hbytes, translate_glob, if_neg (by decide), if_pos (by decide), ih,
      translated_append ['?'] (by simp), glob_tokens]
    rfl
  | case5 c rest hdouble hstar hquestion ih =>
    rw [translate_glob_other hstar hquestion, ih]
    by_cases hc : c.toNat < 0x800
    · have htext : (token_piece (.literal c)).text = Regex.escape [c] := append_nil _
      rw [if_pos hc, translated_append [c] (by simpa using hc), glob_tokens]
      · rw [map_cons, flatMap_cons, htext, singleton_append]
      · exact hdouble
      · exact hstar
      · exact hquestion
    · rw [if_neg hc, if_neg fun h => hc (h c mem_cons_self)]

theorem glob_to_regex_eq (hpattern : trim pattern ≠ []) :
    glob_to_regex pattern =
      if ∀ c ∈ pattern, c.toNat < 0x800 then
        .ok ('^' :: (((glob_tokens pattern).map token_piece).flatMap Regex.Piece.text ++ ['$']))
      else .panic := by
  rw [glob_to_regex, if_neg hpattern, translate_glob_eq]
  split_ifs
  · rfl
  · rfl

end Translation

/-! ## The meaning of the translation -/

section Meaning

variable {tokens : List GlobToken} {path : List Char}

/-- Without `**` the pieces accept what the tokens do. -/
theorem matches_iff_of_no_double_star (h : GlobToken.double_star ∉ tokens) :
    Regex.Matches (tokens.map token_piece) path ↔ GlobToken.Matches tokens path := by
  induction tokens generalizing path with
  | nil => exact Iff.rfl
  | cons token tokens ih =>
    rw [mem_cons, not_or] at h
    have ih := fun path => @ih path h.2
    rw [map_cons, Regex.Matches]
    cases token with
    | double_star => exact absurd rfl h.1
    | star =>
      simp only [GlobToken.Matches, ih]
      refine exists_congr fun first => exists_congr fun later => and_congr_right fun _ => ?_
      have hrun : (∀ c ∈ first, (token_piece .star).atom.accepts c = true) ↔ '/' ∉ first := by
        simp only [token_piece, Regex.Atom.accepts, decide_eq_true_eq]
        exact ⟨fun h hmem => h _ hmem rfl, fun h c hc heq => h (heq ▸ hc)⟩
      rw [hrun]
      simp [token_piece]
    | question =>
      simp only [GlobToken.Matches, ih]
      constructor
      · rintro ⟨first, later, hpath, haccepts, hone, hlater⟩
        obtain ⟨c, rfl⟩ := length_eq_one_iff.mp (hone rfl)
        have hc := haccepts c mem_cons_self
        exact ⟨c, later, hpath, of_decide_eq_true hc, hlater⟩
      · rintro ⟨c, later, hpath, hc, hlater⟩
        refine ⟨[c], later, hpath, ?_, fun _ => rfl, hlater⟩
        rw [forall_mem_singleton]
        exact decide_eq_true hc
    | literal d =>
      simp only [GlobToken.Matches, ih]
      constructor
      · rintro ⟨first, later, hpath, haccepts, hone, hlater⟩
        obtain ⟨c, rfl⟩ := length_eq_one_iff.mp (hone rfl)
        have hc : c = d := of_decide_eq_true (haccepts c mem_cons_self)
        exact ⟨later, hc ▸ hpath, hlater⟩
      · rintro ⟨later, hpath, hlater⟩
        refine ⟨[d], later, hpath, ?_, fun _ => rfl, hlater⟩
        rw [forall_mem_singleton]
        exact decide_eq_true rfl

/-! ### Line feeds before slashes -/

/-- The number of line feeds with a slash behind them. -/
def breaks : List Char → ℕ
  | a :: b :: rest => (if a = '\n' ∧ b = '/' then 1 else 0) + breaks (b :: rest)
  | _ => 0

theorem breaks_append_le (first later : List Char) :
    breaks (first ++ later) ≤ breaks first + breaks later + 1 := by
  induction first with
  | nil =>
    rw [nil_append]
    omega
  | cons a first ih =>
    cases first with
    | nil =>
      cases later with
      | nil => exact Nat.zero_le _
      | cons b later =>
        rw [singleton_append, breaks]
        split <;> omega
    | cons b first =>
      rw [cons_append, cons_append, breaks, breaks]
      rw [cons_append] at ih
      omega

theorem le_breaks_append (first later : List Char) :
    breaks first + breaks later ≤ breaks (first ++ later) := by
  induction first with
  | nil =>
    exact (Nat.zero_add _).le
  | cons a first ih =>
    cases first with
    | nil =>
      cases later with
      | nil => exact Nat.zero_le _
      | cons b later =>
        simp [breaks]
    | cons b first =>
      rw [cons_append, cons_append, breaks, breaks]
      rw [cons_append] at ih
      omega

theorem breaks_eq_zero {s : List Char} (h : '/' ∉ s ∨ '\n' ∉ s) : breaks s = 0 := by
  induction s with
  | nil => rfl
  | cons a s ih =>
    cases s with
    | nil => rfl
    | cons b s =>
      have hrest : '/' ∉ b :: s ∨ '\n' ∉ b :: s :=
        h.imp (fun h hmem => h (mem_cons_of_mem a hmem))
          (fun h hmem => h (mem_cons_of_mem a hmem))
      have hpair : ¬ (a = '\n' ∧ b = '/') := by
        rintro ⟨rfl, rfl⟩
        rcases h with h | h
        · exact h (mem_cons_of_mem _ mem_cons_self)
        · exact h mem_cons_self
      rw [breaks, if_neg hpair, ih hrest]

/-- A piece accepts no line feed together with a slash behind it, so that each break of a path lies
between two pieces. -/
theorem breaks_le_of_matches (h : Regex.Matches (tokens.map token_piece) path) :
    breaks path ≤ tokens.length := by
  induction tokens generalizing path with
  | nil =>
    rw [show path = [] from h]
    exact Nat.zero_le _
  | cons token tokens ih =>
    obtain ⟨first, later, rfl, haccepts, hone, hlater⟩ := h
    have hzero : breaks first = 0 := by
      cases token with
      | star =>
        exact breaks_eq_zero (.inl fun hmem => of_decide_eq_true (haccepts _ hmem) rfl)
      | double_star =>
        exact breaks_eq_zero (.inr fun hmem => of_decide_eq_true (haccepts _ hmem) rfl)
      | question | literal d =>
        obtain ⟨c, rfl⟩ := length_eq_one_iff.mp (hone rfl)
        rfl
    have happend := breaks_append_le first later
    have hih := ih hlater
    rw [length_cons]
    omega

def broken_run : ℕ → List Char
  | 0 => []
  | n + 1 => '\n' :: '/' :: broken_run n

theorem le_breaks_broken_run (n : ℕ) : n ≤ breaks (broken_run n) := by
  induction n with
  | zero => exact Nat.zero_le _
  | succ n ih =>
    have happend := le_breaks_append ['\n', '/'] (broken_run n)
    exact (by omega : n + 1 ≤ 1 + breaks (broken_run n)).trans happend

def broken_path (n : ℕ) : List GlobToken → List Char
  | [] => []
  | .star :: tokens => broken_path n tokens
  | .double_star :: tokens => broken_run n ++ broken_path n tokens
  | .question :: tokens => 'x' :: broken_path n tokens
  | .literal c :: tokens => c :: broken_path n tokens

theorem matches_broken_path (n : ℕ) : GlobToken.Matches tokens (broken_path n tokens) := by
  induction tokens with
  | nil => rfl
  | cons token tokens ih =>
    cases token with
    | star => exact ⟨[], _, rfl, not_mem_nil, ih⟩
    | double_star => exact ⟨_, _, rfl, ih⟩
    | question => exact ⟨'x', _, rfl, by decide, ih⟩
    | literal c => exact ⟨_, rfl, ih⟩

theorem le_breaks_broken_path (n : ℕ) (h : GlobToken.double_star ∈ tokens) :
    n ≤ breaks (broken_path n tokens) := by
  induction tokens with
  | nil => cases h
  | cons token tokens ih =>
    have hlater : ∀ c : Char, breaks (broken_path n tokens) ≤
        breaks (c :: broken_path n tokens) := by
      intro c
      exact (Nat.le_add_left _ _).trans (le_breaks_append [c] _)
    cases token with
    | star => exact ih ((mem_cons.mp h).resolve_left nofun)
    | double_star =>
      have hrun := le_breaks_broken_run n
      have happend := le_breaks_append (broken_run n) (broken_path n tokens)
      rw [broken_path]
      omega
    | question | literal c => exact (ih ((mem_cons.mp h).resolve_left nofun)).trans (hlater _)

/-- **Pieces and tokens agree on all paths exactly without `**`.** -/
theorem matches_all_iff :
    (∀ path, Regex.Matches (tokens.map token_piece) path ↔ GlobToken.Matches tokens path) ↔
      GlobToken.double_star ∉ tokens := by
  constructor
  · intro hall hmem
    have hbroken := (hall (broken_path (tokens.length + 1) tokens)).mpr (matches_broken_path _)
    have hle := breaks_le_of_matches hbroken
    have hge := le_breaks_broken_path (tokens.length + 1) hmem
    omega
  · exact fun h path => matches_iff_of_no_double_star h

theorem not_double_star_start {c : Char} {rest : List Char}
    (h : ∀ text, c = '*' → rest = '*' :: text → False) : ¬ ['*', '*'] <+: c :: rest := by
  rw [cons_prefix_cons]
  rintro ⟨hc, text, htext⟩
  exact h text hc.symm htext.symm

/-- `**` is a token of a pattern exactly if there are two stars side by side. -/
theorem double_star_mem_iff (pattern : List Char) :
    GlobToken.double_star ∈ glob_tokens pattern ↔ ['*', '*'] <:+: pattern := by
  induction pattern using glob_tokens.induct with
  | case1 => simp [glob_tokens]
  | case2 rest ih =>
    exact iff_of_true mem_cons_self ⟨[], rest, rfl⟩
  | case3 rest hrest ih =>
    rw [glob_tokens, mem_cons, ih, infix_cons_iff]
    · exact or_congr_left (iff_of_false nofun (not_double_star_start fun text _ => hrest text))
    · exact hrest
  | case4 rest ih =>
    rw [glob_tokens, mem_cons, ih, infix_cons_iff]
    exact or_congr_left (iff_of_false nofun (not_double_star_start fun _ h => absurd h (by decide)))
  | case5 c rest hdouble hstar hquestion ih =>
    rw [glob_tokens, mem_cons, ih, infix_cons_iff]
    · exact or_congr_left (iff_of_false nofun (not_double_star_start hdouble))
    · exact hdouble
    · exact hstar
    · exact hquestion

end Meaning

/-- **For a pattern that is accepted, `glob_to_regex` returns an expression that matches the paths
that the glob matches, exactly if every character of the pattern is below U+0800 and there is no
`**` in it.** -/
theorem glob_to_regex_exact_iff (pattern : List Char) (hpattern : trim pattern ≠ []) :
    (∃ regex, glob_to_regex pattern = .ok regex ∧
      ∀ path, ∃ matched, Regex.is_match regex path = some matched ∧
        (matched = true ↔ GlobMatches pattern path)) ↔
    (∀ c ∈ pattern, c.toNat < 0x800) ∧ ¬ ['*', '*'] <:+: pattern := by
  rw [glob_to_regex_eq hpattern, ← double_star_mem_iff, ← matches_all_iff]
  split_ifs with hnarrow
  · simp only [Outcome.ok.injEq, exists_eq_left', Regex.is_match_text (plain_pieces _),
      Option.some.injEq,
      Regex.pieces_match_iff, GlobMatches]
    exact (and_iff_right hnarrow).symm
  · constructor
    · rintro ⟨regex, hregex, -⟩
      cases hregex
    · exact fun h => absurd h.1 hnarrow

/-- A pattern with a metacharacter, a character of two bytes and both wildcards. -/
theorem glob_to_regex_of_narrow :
    ∃ regex, glob_to_regex ['a', '.', 'é', '/', '*', '/', '?'] = .ok regex ∧
      ∀ path, ∃ matched, Regex.is_match regex path = some matched ∧
        (matched = true ↔ GlobMatches ['a', '.', 'é', '/', '*', '/', '?'] path) :=
  (glob_to_regex_exact_iff ['a', '.', 'é', '/', '*', '/', '?'] (by decide +kernel)).mpr
    ⟨by simp, by decide⟩

/-- A character of three bytes panics, and `**` stops at a line feed. -/
theorem glob_to_regex_fails :
    glob_to_regex ['日'] = .panic ∧
    glob_to_regex ['*', '*'] = .ok ['^', '.', '*', '$'] ∧
      Regex.is_match ['^', '.', '*', '$'] ['a', '\n', 'b'] = some false ∧
      GlobMatches ['*', '*'] ['a', '\n', 'b'] :=
  ⟨by decide +kernel, by decide +kernel, by decide +kernel, ['a', '\n', 'b'], [], rfl, rfl⟩

end HybridCache.BucketSettings
