/-
A part of the syntax of regular expressions, and its meaning: `^`, then atoms with or without a
star, then `$`. An atom is a character (with a backslash if it is a metacharacter), a dot, or a
class that excludes one character. The meaning is the one that the `regex` crate documents for
expressions without flags. `parse` is undefined on what is not of this part.
-/
import Mathlib.Algebra.Order.Group.Nat
import Mathlib.Data.List.Basic
import Mathlib.Tactic.Common

namespace HybridCache.Lib.Regex

open List

inductive Atom where
  | literal (c : Char)
  | any
  | except (c : Char)
deriving DecidableEq, Repr

def Atom.accepts : Atom → Char → Bool
  | .literal c, d => d = c
  | .any, d => d ≠ '\n'
  | .except c, d => d ≠ c

structure Piece where
  atom : Atom
  starred : Bool
deriving DecidableEq, Repr

/-! ## Writing and reading -/

def is_meta_character (c : Char) : Bool :=
  c ∈ "\\.+*?()|[]{}^$#&-~".toList

def escape (s : List Char) : List Char :=
  s.flatMap fun c => if is_meta_character c then ['\\', c] else [c]

def Atom.text : Atom → List Char
  | .literal c => escape [c]
  | .any => ['.']
  | .except c => ['[', '^', c, ']']

def Piece.text (piece : Piece) : List Char :=
  piece.atom.text ++ if piece.starred then ['*'] else []

def parse_atom : List Char → Option (Atom × List Char)
  | '.' :: rest => some (.any, rest)
  | '[' :: '^' :: c :: ']' :: rest =>
    if is_meta_character c then none else some (.except c, rest)
  | '\\' :: c :: rest => if is_meta_character c then some (.literal c, rest) else none
  | c :: rest => if is_meta_character c then none else some (.literal c, rest)
  | [] => none

def parse_piece (text : List Char) : Option (Piece × List Char) :=
  (parse_atom text).map fun (atom, rest) =>
    match rest with
    | '*' :: rest => (⟨atom, true⟩, rest)
    | rest => (⟨atom, false⟩, rest)

/-- Pieces up to the dollar sign at the end. A piece takes a character at least, so the length of
the text is enough of `n`. -/
def parse_pieces : ℕ → List Char → Option (List Piece)
  | _, ['$'] => some []
  | 0, _ => none
  | n + 1, text => (parse_piece text).bind fun (piece, rest) =>
      (parse_pieces n rest).map (piece :: ·)

def parse : List Char → Option (List Piece)
  | '^' :: rest => parse_pieces rest.length rest
  | _ => none

/-! ## Meaning -/

/-- The text is accepted by the pieces one after another. -/
def Matches : List Piece → List Char → Prop
  | [], s => s = []
  | piece :: rest, s => ∃ first later, s = first ++ later ∧
      (∀ c ∈ first, piece.atom.accepts c = true) ∧
      (piece.starred = false → first.length = 1) ∧ Matches rest later

/-- A repetition, and then `next`. -/
def star_match (accepts : Char → Bool) (next : List Char → Bool) : List Char → Bool
  | [] => next []
  | c :: rest => next (c :: rest) || (accepts c && star_match accepts next rest)

/-- `Matches`, computed. -/
def pieces_match : List Piece → List Char → Bool
  | [], s => s.isEmpty
  | ⟨atom, true⟩ :: rest, s => star_match atom.accepts (pieces_match rest) s
  | ⟨_, false⟩ :: _, [] => false
  | ⟨atom, false⟩ :: rest, c :: s => atom.accepts c && pieces_match rest s

/-- `Regex::is_match`, for an expression of this part. -/
def is_match (regex path : List Char) : Option Bool :=
  (parse regex).map fun pieces => pieces_match pieces path

variable {s : List Char} {pieces : List Piece} {piece : Piece}

theorem star_match_iff {accepts : Char → Bool} {next : List Char → Bool} :
    star_match accepts next s = true ↔
      ∃ first later, s = first ++ later ∧ (∀ c ∈ first, accepts c = true) ∧ next later = true := by
  induction s with
  | nil =>
    constructor
    · intro h
      exact ⟨[], [], rfl, forall_mem_nil _, h⟩
    · rintro ⟨first, later, hs, -, h⟩
      rw [(append_eq_nil_iff.mp hs.symm).2] at h
      exact h
  | cons c rest ih =>
    rw [star_match, Bool.or_eq_true, Bool.and_eq_true, ih]
    constructor
    · rintro (h | ⟨hc, first, later, rfl, hfirst, h⟩)
      · exact ⟨[], c :: rest, rfl, forall_mem_nil _, h⟩
      · exact ⟨c :: first, later, rfl, forall_mem_cons.mpr ⟨hc, hfirst⟩, h⟩
    · rintro ⟨first, later, hs, hfirst, h⟩
      cases first with
      | nil => exact .inl (hs ▸ h)
      | cons d first =>
        obtain ⟨rfl, rfl⟩ := List.cons.inj hs
        obtain ⟨hd, hfirst⟩ := forall_mem_cons.mp hfirst
        exact .inr ⟨hd, first, later, rfl, hfirst, h⟩

/-- The matcher finds a match whenever there is one. -/
theorem pieces_match_iff : pieces_match pieces s = true ↔ Matches pieces s := by
  induction pieces generalizing s with
  | nil =>
    rw [pieces_match, Matches, List.isEmpty_iff]
  | cons piece rest ih =>
    obtain ⟨atom, starred⟩ := piece
    simp only [Matches]
    cases starred with
    | true =>
      rw [pieces_match, star_match_iff]
      simp [ih]
    | false =>
      cases s with
      | nil =>
        rw [pieces_match]
        simp only [Bool.false_eq_true, false_iff]
        rintro ⟨first, later, hs, -, hone, -⟩
        have hnil := (append_eq_nil_iff.mp hs.symm).1
        rw [hnil] at hone
        exact absurd (hone trivial) (by simp)
      | cons c s =>
        rw [pieces_match, Bool.and_eq_true, ih]
        constructor
        · rintro ⟨hc, h⟩
          exact ⟨[c], s, rfl, by simpa using hc, fun _ => rfl, h⟩
        · rintro ⟨first, later, hs, hfirst, hone, h⟩
          obtain ⟨d, rfl⟩ := length_eq_one_iff.mp (hone rfl)
          obtain ⟨rfl, rfl⟩ := List.cons.inj hs
          exact ⟨hfirst c mem_cons_self, h⟩

/-! ## Reading what was written -/

/-- A sequence that can be written: a class excludes no metacharacter. -/
def Atom.Plain : Atom → Prop
  | .except c => is_meta_character c = false
  | _ => True

theorem parse_atom_text {atom : Atom} (hplain : atom.Plain) (rest : List Char) :
    parse_atom (atom.text ++ rest) = some (atom, rest) := by
  cases atom with
  | any => rfl
  | except c =>
    have hc : is_meta_character c = false := hplain
    simp [Atom.text, parse_atom, hc]
  | literal c =>
    by_cases hc : is_meta_character c = true
    · simp [Atom.text, escape, parse_atom, hc]
    · have htext : (Atom.literal c).text ++ rest = c :: rest := by simp [Atom.text, escape, hc]
      have hne : ∀ d, is_meta_character d = true → c ≠ d := by
        rintro d hd rfl
        exact hc hd
      rw [htext, parse_atom]
      · rw [if_neg hc]
      -- it is none of the characters with a meaning of their own
      · exact hne '.' (by decide)
      · intro _ _ hbracket
        exact absurd hbracket (hne '[' (by decide))
      · intro _ _ hbackslash
        exact absurd hbackslash (hne '\\' (by decide))

theorem exists_head_text : ∃ c text, piece.text = c :: text ∧ c ≠ '*' := by
  obtain ⟨atom, starred⟩ := piece
  cases atom with
  | any | except c => exact ⟨_, _, rfl, by decide⟩
  | literal c =>
    by_cases hc : is_meta_character c = true
    · refine ⟨'\\', c :: if starred then ['*'] else [], ?_, by decide⟩
      simp [Piece.text, Atom.text, escape, hc]
    · refine ⟨c, if starred then ['*'] else [], ?_, ?_⟩
      · simp [Piece.text, Atom.text, escape, hc]
      · rintro rfl
        exact hc (by decide)

theorem parse_piece_text (hplain : piece.atom.Plain) {rest : List Char}
    (hrest : ∀ text, rest ≠ '*' :: text) :
    parse_piece (piece.text ++ rest) = some (piece, rest) := by
  obtain ⟨atom, starred⟩ := piece
  rw [parse_piece, Piece.text, append_assoc, parse_atom_text hplain, Option.map_some]
  cases starred with
  | true => rfl
  | false =>
    rw [if_neg Bool.false_ne_true, nil_append]
    split
    case h_1 heq =>
      obtain ⟨rfl, rfl⟩ := Prod.mk.inj heq
      split
      case h_1 text => exact absurd rfl (hrest text)
      case h_2 => rfl

section

variable (hplain : ∀ p ∈ pieces, p.atom.Plain)

include hplain

theorem parse_pieces_text {n : ℕ} (hn : pieces.length ≤ n) :
    parse_pieces n (pieces.flatMap Piece.text ++ ['$']) = some pieces := by
  induction pieces generalizing n with
  | nil =>
    cases n with
    | zero | succ n => rfl
  | cons piece pieces ih =>
    obtain ⟨n, rfl⟩ : ∃ m, n = m + 1 := Nat.exists_eq_succ_of_ne_zero (by
      rintro rfl
      cases hn)
    obtain ⟨hpiece, hplain⟩ := forall_mem_cons.mp hplain
    have hrest : ∀ text, pieces.flatMap Piece.text ++ ['$'] ≠ '*' :: text := by
      intro text heq
      cases pieces with
      | nil => cases heq
      | cons next pieces =>
        obtain ⟨c, more, hnext, hc⟩ := exists_head_text
        rw [flatMap_cons, hnext] at heq
        exact hc (List.cons.inj heq).1
    have hread := parse_piece_text hpiece hrest
    have hlong : piece.text ++ (pieces.flatMap Piece.text ++ ['$']) ≠ ['$'] := by
      obtain ⟨c, more, hpiece, -⟩ := exists_head_text
      rw [hpiece]
      intro heq
      have := (List.cons.inj heq).2
      simp at this
    rw [flatMap_cons, append_assoc, parse_pieces]
    · rw [hread, Option.bind_some]
      simp only [ih hplain (Nat.le_of_succ_le_succ hn), Option.map_some]
    · intro heq
      exact hlong heq

/-- A pattern that is written out is read back. -/
theorem parse_text : parse ('^' :: (pieces.flatMap Piece.text ++ ['$'])) = some pieces := by
  refine parse_pieces_text hplain ?_
  rw [length_append, length_flatMap]
  have hsum : ∀ l : List Piece, l.length ≤ (l.map fun p => p.text.length).sum := by
    intro l
    induction l with
    | nil => exact le_rfl
    | cons piece l ih =>
      obtain ⟨c, more, hpiece, -⟩ := exists_head_text
      rw [map_cons, sum_cons, hpiece, length_cons, length_cons]
      omega
  exact (hsum pieces).trans (Nat.le_add_right _ _)

theorem is_match_text (path : List Char) :
    is_match ('^' :: (pieces.flatMap Piece.text ++ ['$'])) path =
      some (pieces_match pieces path) := by
  rw [is_match, parse_text hplain, Option.map_some]

end

end HybridCache.Lib.Regex
