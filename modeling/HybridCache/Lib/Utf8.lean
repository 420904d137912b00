/-
UTF-8: the encoding of a text, and the reading of bytes as a text.

`str::from_utf8` and `String::from_utf8_lossy` are readings of one scan, which cuts the bytes into
characters and flaws.
-/
import Mathlib

namespace HybridCache.Lib

open List

def to_utf8 (s : List Char) : List UInt8 :=
  s.flatMap String.utf8EncodeChar

/-- A character, or a flaw: so many bytes that are not part of one, or the beginning of a
character that the end of the bytes cuts off. -/
inductive Utf8Token where
  | char (c : Char)
  | invalid (error_len : ℕ)
  | incomplete
deriving DecidableEq, Repr

def continues (b : UInt8) : Bool :=
  0x80 ≤ b.toNat ∧ b.toNat ≤ 0xBF

/-- The bytes that a first one asks for behind it, each by its least and its greatest value. No
character has a value of a surrogate or one that fewer bytes hold. -/
def followers (first : ℕ) : List (ℕ × ℕ) :=
  if first < 0xC2 ∨ 0xF4 < first then []
  else if first ≤ 0xDF then [(0x80, 0xBF)]
  else if first ≤ 0xEF then
    [(if first = 0xE0 then 0xA0 else 0x80, if first = 0xED then 0x9F else 0xBF), (0x80, 0xBF)]
  else
    [(if first = 0xF0 then 0x90 else 0x80, if first = 0xF4 then 0x8F else 0xBF), (0x80, 0xBF),
      (0x80, 0xBF)]

/-- The flaw at the bytes behind a first one, of which so many are passed. -/
def flaw : ℕ → List (ℕ × ℕ) → List UInt8 → Utf8Token
  | passed, [], _ => .invalid passed
  | _, _ :: _, [] => .incomplete
  | passed, (least, greatest) :: more, b :: rest =>
    if least ≤ b.toNat ∧ b.toNat ≤ greatest then flaw (passed + 1) more rest else .invalid passed

/-- What a byte and those after it begin with. -/
def utf8_token (b : UInt8) (rest : List UInt8) : Utf8Token :=
  match (b :: rest).toByteArray.utf8DecodeChar? 0 with
  | some c => .char c
  | none => flaw 1 (followers b.toNat) rest

/-- How many bytes after the first belong to a token. -/
def Utf8Token.more (rest : List UInt8) : Utf8Token → ℕ
  | .char c => c.utf8Size - 1
  | .invalid error_len => error_len - 1
  | .incomplete => rest.length

/-- The tokens of a byte sequence, of which the first bytes are skipped. -/
def utf8_scan : ℕ → List UInt8 → List Utf8Token
  | _, [] => []
  | skip + 1, _ :: rest => utf8_scan skip rest
  | 0, b :: rest => utf8_token b rest :: utf8_scan ((utf8_token b rest).more rest) rest

structure Utf8Error where
  valid_up_to : ℕ
  error_len : Option ℕ
deriving DecidableEq, Repr

def Utf8Error.to_string (error : Utf8Error) : String :=
  let index := error.valid_up_to
  match error.error_len with
  | some bytes => s!"invalid utf-8 sequence of {bytes} bytes from index {index}"
  | none => s!"incomplete utf-8 byte sequence from index {index}"

/-- The text of a row of tokens that begins at an index. -/
def text_of (index : ℕ) : List Utf8Token → Except Utf8Error (List Char)
  | [] => .ok []
  | .char c :: tokens => (text_of (index + c.utf8Size) tokens).map (c :: ·)
  | .invalid error_len :: _ => .error ⟨index, some error_len⟩
  | .incomplete :: _ => .error ⟨index, none⟩

def from_utf8 (bytes : List UInt8) : Except Utf8Error (List Char) :=
  text_of 0 (utf8_scan 0 bytes)

def from_utf8_lossy (bytes : List UInt8) : List Char :=
  (utf8_scan 0 bytes).map fun
    | .char c => c
    | .invalid _ | .incomplete => '�'

/-! ## Encoding -/

variable {n : ℕ}

theorem toNat_ofNat_byte (h : n < 256) : (UInt8.ofNat n).toNat = n := by
  exact Nat.mod_eq_of_lt h

theorem continues_ofNat (h : n < 64) : continues (UInt8.ofNat (n + 128)) = true := by
  rw [continues, toNat_ofNat_byte (by omega)]
  exact decide_eq_true (by omega)

variable {b : UInt8}

/-- A fact about all bytes is one about finitely many numbers. -/
@[elab_as_elim]
theorem forall_byte {P : UInt8 → Prop} (b : UInt8) (h : ∀ n < 256, P (UInt8.ofNat n)) : P b := by
  have hb := h b.toNat b.toNat_lt
  rwa [UInt8.ofNat_toNat] at hb

theorem toNat_ofNat_char (h : n < 0xD800 ∨ (0xDFFF < n ∧ n < 0x110000)) :
    (Char.ofNat n).toNat = n := by
  rw [Char.toNat_ofNat, if_pos h]

variable {c : Char}

variable {rest a : List UInt8} {skip index : ℕ} {s t : List Char}

theorem encode_ascii (h : c.toNat < 128) : String.utf8EncodeChar c = [UInt8.ofNat c.toNat] := by
  unfold String.utf8EncodeChar
  simp only [show c.val.toNat = c.toNat from rfl]
  rw [if_pos (by omega)]

theorem encode_two (hlow : 128 ≤ c.toNat) (hhigh : c.toNat < 0x800) :
    ∃ b b₁, String.utf8EncodeChar c = [b, b₁] ∧ 0xC0 ≤ b.toNat := by
  unfold String.utf8EncodeChar
  simp only [show c.val.toNat = c.toNat from rfl]
  rw [if_neg (by omega), if_pos (by omega)]
  refine ⟨_, _, rfl, ?_⟩
  rw [toNat_ofNat_byte (by omega)]
  omega

theorem encode_three (hlow : 0x800 ≤ c.toNat) :
    ∃ b b₁ b₂ more, String.utf8EncodeChar c = b :: b₁ :: b₂ :: more ∧ 0xC0 ≤ b.toNat ∧
      continues b₂ = true := by
  have hmod : ∀ n, n % 64 < 64 := fun n => Nat.mod_lt n (by omega)
  unfold String.utf8EncodeChar
  simp only [show c.val.toNat = c.toNat from rfl]
  rw [if_neg (by omega), if_neg (by omega)]
  split
  case isTrue =>
    refine ⟨_, _, _, _, rfl, ?_, continues_ofNat (hmod _)⟩
    rw [toNat_ofNat_byte (by omega)]
    omega
  case isFalse =>
    refine ⟨_, _, _, _, rfl, ?_, continues_ofNat (hmod _)⟩
    rw [toNat_ofNat_byte (by omega)]
    omega

theorem encode_head (c : Char) :
    ∃ b more, String.utf8EncodeChar c = b :: more ∧
      ((c.toNat < 128 ∧ b.toNat = c.toNat) ∨ (128 ≤ c.toNat ∧ 0xC0 ≤ b.toNat)) := by
  by_cases hlow : c.toNat < 128
  · exact ⟨_, _, encode_ascii hlow, .inl ⟨hlow, toNat_ofNat_byte (by omega)⟩⟩
  · rw [Nat.not_lt] at hlow
    by_cases htwo : c.toNat < 0x800
    · obtain ⟨b, b₁, h, hb⟩ := encode_two hlow htwo
      exact ⟨b, _, h, .inr ⟨hlow, hb⟩⟩
    · obtain ⟨b, b₁, b₂, more, h, hb, -⟩ := encode_three (Nat.not_lt.mp htwo)
      exact ⟨b, _, h, .inr ⟨hlow, hb⟩⟩

theorem encode_not_ascii (h : 128 ≤ c.toNat) (hb : b ∈ String.utf8EncodeChar c) :
    128 ≤ b.toNat := by
  unfold String.utf8EncodeChar at hb
  simp only [show c.val.toNat = c.toNat from rfl] at hb
  rw [if_neg (by omega)] at hb
  have hbyte : ∀ n, 128 ≤ n → n < 256 → 128 ≤ (UInt8.ofNat n).toNat := by
    intro n hle hlt
    rw [toNat_ofNat_byte hlt]
    exact hle
  split at hb
  · simp only [mem_cons, not_mem_nil, or_false] at hb
    rcases hb with rfl | rfl <;> exact hbyte _ (by omega) (by omega)
  · split at hb
    · simp only [mem_cons, not_mem_nil, or_false] at hb
      rcases hb with rfl | rfl | rfl <;> exact hbyte _ (by omega) (by omega)
    · simp only [mem_cons, not_mem_nil, or_false] at hb
      rcases hb with rfl | rfl | rfl | rfl <;> exact hbyte _ (by omega) (by omega)

/-! ## Reading -/

theorem flaw_ne_char {passed : ℕ} {more : List (ℕ × ℕ)} : flaw passed more rest ≠ .char c := by
  fun_induction flaw <;> simp_all

theorem utf8_token_eq_char : utf8_token b rest = .char c ↔
    (b :: rest).toByteArray.utf8DecodeChar? 0 = some c := by
  unfold utf8_token
  split
  case h_1 d hd => rw [hd, Utf8Token.char.injEq, Option.some.injEq]
  case h_2 hd => simp [hd, flaw_ne_char]

/-- A character is read exactly where its encoding begins. -/
theorem utf8_token_char_iff : utf8_token b rest = .char c ↔
    ∃ more rest', rest = more ++ rest' ∧ String.utf8EncodeChar c = b :: more := by
  rw [utf8_token_eq_char]
  constructor
  · intro h
    obtain ⟨l, hl⟩ := ByteArray.exists_of_utf8DecodeChar?_eq_some h
    have hlist := congrArg (fun x => x.data.toList) hl
    cases hencode : String.utf8EncodeChar c with
    | nil => exact absurd hencode (by simp)
    | cons b' more =>
      simp [hencode] at hlist
      exact ⟨more, _, hlist.2, by rw [hlist.1]⟩
  · rintro ⟨more, rest', rfl, hencode⟩
    rw [← cons_append, ← hencode, List.toByteArray_append]
    exact ByteArray.utf8DecodeChar?_utf8EncodeChar_append

theorem utf8_scan_eq_drop (skip : ℕ) (bytes : List UInt8) :
    utf8_scan skip bytes = utf8_scan 0 (bytes.drop skip) := by
  induction bytes generalizing skip with
  | nil =>
    rw [drop_nil]
    rfl
  | cons b rest ih =>
    cases skip with
    | zero => rfl
    | succ skip => exact ih skip

theorem utf8_scan_cons_char {more : List UInt8} (hencode : String.utf8EncodeChar c = b :: more) :
    utf8_scan 0 (b :: (more ++ rest)) = .char c :: utf8_scan 0 rest := by
  have hlen : c.utf8Size - 1 = more.length := by
    have hsize := String.length_utf8EncodeChar c
    rw [hencode, length_cons] at hsize
    omega
  rw [utf8_scan, utf8_token_char_iff.mpr ⟨more, rest, rfl, hencode⟩, Utf8Token.more,
    utf8_scan_eq_drop, hlen, drop_left]

theorem utf8_scan_to_utf8 (s : List Char) (rest : List UInt8) :
    utf8_scan 0 (to_utf8 s ++ rest) = s.map .char ++ utf8_scan 0 rest := by
  induction s with
  | nil => rfl
  | cons c s ih =>
    obtain ⟨b, more, hencode, -⟩ := encode_head c
    have hbytes : to_utf8 (c :: s) ++ rest = b :: (more ++ (to_utf8 s ++ rest)) := by
      rw [to_utf8, flatMap_cons, hencode, append_assoc]
      rfl
    rw [hbytes, utf8_scan_cons_char hencode, ih]
    rfl

theorem text_of_chars : text_of index (s.map .char) = .ok s := by
  induction s generalizing index with
  | nil => rfl
  | cons c s ih =>
    rw [map_cons, text_of, ih]
    rfl

variable {s : List Char}

theorem chars_of_text_of {tokens : List Utf8Token} (h : text_of index tokens = .ok s) :
    tokens = s.map .char := by
  induction tokens generalizing index s with
  | nil =>
    injection h with h
    rw [← h]
    rfl
  | cons token tokens ih =>
    cases token with
    | char c =>
      rw [text_of] at h
      cases htext : text_of (index + c.utf8Size) tokens with
      | error e =>
        rw [htext] at h
        cases h
      | ok s' =>
        rw [htext] at h
        injection h with h
        rw [← h, ih htext]
        rfl
    | invalid error_len | incomplete => cases h

variable {bytes : List UInt8}

theorem to_utf8_of_scan (h : utf8_scan 0 bytes = s.map .char) : bytes = to_utf8 s := by
  induction s generalizing bytes with
  | nil =>
    cases bytes with
    | nil => rfl
    | cons b rest =>
      cases h
  | cons c s ih =>
    cases bytes with
    | nil => cases h
    | cons b rest =>
      have htoken : utf8_token b rest = .char c := by
        injection h
      obtain ⟨more, rest', rfl, hencode⟩ := utf8_token_char_iff.mp htoken
      rw [utf8_scan_cons_char hencode, map_cons] at h
      injection h with _ h
      rw [to_utf8, flatMap_cons, hencode, cons_append]
      exact congrArg (fun l => b :: (more ++ l)) (ih h)

/-- **Texts and their bytes.** Bytes are read as a text exactly if they are its encoding. -/
theorem from_utf8_eq_ok : from_utf8 bytes = .ok s ↔ bytes = to_utf8 s := by
  constructor
  · intro h
    exact to_utf8_of_scan (chars_of_text_of h)
  · rintro rfl
    have hscan := utf8_scan_to_utf8 s []
    rw [append_nil, utf8_scan, append_nil] at hscan
    rw [from_utf8, hscan, text_of_chars]

theorem from_utf8_to_utf8 (s : List Char) : from_utf8 (to_utf8 s) = .ok s := from_utf8_eq_ok.mpr rfl

theorem to_utf8_injective (h : to_utf8 s = to_utf8 t) : s = t := by
  have hs := from_utf8_to_utf8 s
  rw [h, from_utf8_to_utf8] at hs
  exact (Except.ok.inj hs).symm

theorem from_utf8_lossy_append (s : List Char) (rest : List UInt8) :
    from_utf8_lossy (to_utf8 s ++ rest) = s ++ from_utf8_lossy rest := by
  rw [from_utf8_lossy, utf8_scan_to_utf8, map_append, List.map_map]
  congr 1
  exact List.map_id s

theorem from_utf8_lossy_to_utf8 : from_utf8_lossy (to_utf8 s) = s := by
  have happend := from_utf8_lossy_append s []
  rw [append_nil] at happend
  rw [happend]
  exact append_nil s

@[simp] theorem to_utf8_append : to_utf8 (s ++ t) = to_utf8 s ++ to_utf8 t := flatMap_append

@[simp] theorem to_utf8_nil : to_utf8 [] = [] := rfl

theorem to_utf8_cons : to_utf8 (c :: s) = String.utf8EncodeChar c ++ to_utf8 s := rfl

/-- Bytes below 128 as characters. -/
def ascii (bytes : List UInt8) : List Char :=
  bytes.map fun b => Char.ofNat b.toNat

theorem to_utf8_ascii (h : ∀ b ∈ bytes, b.toNat < 128) : to_utf8 (ascii bytes) = bytes := by
  induction bytes with
  | nil => rfl
  | cons b bytes ih =>
    have hb := h b mem_cons_self
    have hchar : (Char.ofNat b.toNat).toNat = b.toNat := toNat_ofNat_char (Or.inl (by omega))
    have htail : to_utf8 (ascii bytes) = bytes := ih fun c hc => h c (mem_cons_of_mem b hc)
    rw [ascii] at htail ⊢
    rw [map_cons, to_utf8_cons, encode_ascii (by omega), hchar, UInt8.ofNat_toNat, htail]
    rfl

theorem ascii_to_utf8 (h : ∀ c ∈ s, c.toNat < 128) : ascii (to_utf8 s) = s := by
  induction s with
  | nil => rfl
  | cons c s ih =>
    have hc := h c mem_cons_self
    have hrest := ih fun d hd => h d (mem_cons_of_mem c hd)
    rw [to_utf8_cons, encode_ascii hc]
    show Char.ofNat (UInt8.ofNat c.toNat).toNat :: ascii (to_utf8 s) = c :: s
    rw [hrest, toNat_ofNat_byte (by omega), Char.ofNat_toNat]

theorem length_to_utf8_of_ascii (h : ∀ c ∈ s, c.toNat < 128) : (to_utf8 s).length = s.length := by
  conv_rhs => rw [← ascii_to_utf8 h, ascii, length_map]

theorem mem_of_mem_to_utf8 (hb : b ∈ to_utf8 s) (h : b.toNat < 128) : Char.ofNat b.toNat ∈ s := by
  obtain ⟨c, hc, hbc⟩ := mem_flatMap.mp hb
  by_cases hascii : c.toNat < 128
  · rw [encode_ascii hascii, mem_singleton] at hbc
    rw [hbc, toNat_ofNat_byte (by omega), Char.ofNat_toNat]
    exact hc
  · exact absurd (encode_not_ascii (by omega) hbc) (by omega)

/-! ## Lossy reading -/

/-- A reader of the bytes behind the first one, with so many of them passed, that is never past a
byte below 128: what it has not completed there is invalid. -/
def EndsBefore (b : UInt8) (passed : ℕ) (token : List UInt8 → Utf8Token) : Prop :=
  ∀ a rest : List UInt8,
    (token a = .incomplete ∧ token (a ++ b :: rest) = .invalid (a.length + passed)) ∨
      (token a ≠ .incomplete ∧ token (a ++ b :: rest) = token a)

theorem followers_not_ascii (first : ℕ) : ∀ range ∈ followers first, 128 ≤ range.1 := by
  unfold followers
  split_ifs <;> simp

section EndsBefore

variable {b : UInt8} (hb : b.toNat < 128)

include hb

theorem endsBefore_flaw {more : List (ℕ × ℕ)} (hmore : ∀ range ∈ more, 128 ≤ range.1)
    (passed : ℕ) : EndsBefore b passed (flaw passed more) := by
  intro a rest
  induction more generalizing passed a with
  | nil => cases a <;> exact .inr ⟨by simp [flaw], rfl⟩
  | cons range more ih =>
    have hrange := hmore range mem_cons_self
    cases a with
    | nil => exact .inl ⟨rfl, by rw [nil_append, flaw, if_neg (by omega), length_nil, zero_add]⟩
    | cons x a =>
      rw [cons_append, flaw, flaw, length_cons, add_assoc, add_comm 1]
      split
      case isTrue => exact ih (fun r hr => hmore r (mem_cons_of_mem range hr)) (passed + 1) a
      case isFalse => exact .inr ⟨by simp, rfl⟩

theorem endsBefore_token (x : UInt8) : EndsBefore b 1 (utf8_token x) := by
  intro a rest
  cases htoken : (x :: a).toByteArray.utf8DecodeChar? 0 with
  | some c =>
    have hchar := utf8_token_eq_char.mpr htoken
    obtain ⟨more, rest', rfl, hencode⟩ := utf8_token_char_iff.mp hchar
    rw [hchar, append_assoc]
    exact .inr ⟨by simp, utf8_token_char_iff.mpr ⟨more, _, rfl, hencode⟩⟩
  | none =>
    -- a character that reaches to the byte would be that byte
    have hnone : (x :: (a ++ b :: rest)).toByteArray.utf8DecodeChar? 0 = none := by
      by_contra hsome
      obtain ⟨c, hc⟩ := Option.ne_none_iff_exists'.mp hsome
      obtain ⟨more, rest', happend, hencode⟩ := utf8_token_char_iff.mp (utf8_token_eq_char.mpr hc)
      have hshort : ∀ l, a ≠ more ++ l := by
        intro l hl
        rw [utf8_token_eq_char.mp (utf8_token_char_iff.mpr ⟨more, l, hl, hencode⟩)] at htoken
        cases htoken
      obtain ⟨l, rfl, hl⟩ | ⟨l, hl, -⟩ := append_eq_append_iff.mp happend
      · cases l with
        | nil => exact hshort [] (by simp)
        | cons b' l =>
          obtain rfl := (cons.inj hl).1
          by_cases hascii : c.toNat < 128
          · simp [encode_ascii hascii] at hencode
          · have hmem : b ∈ String.utf8EncodeChar c := by simp [hencode]
            exact absurd (encode_not_ascii (by omega) hmem) (by omega)
      · exact hshort l hl
    unfold utf8_token
    rw [htoken, hnone]
    exact endsBefore_flaw hb (followers_not_ascii _) 1 a rest

end EndsBefore

theorem flaw_le {passed n : ℕ} {more : List (ℕ × ℕ)} (h : flaw passed more a = .invalid n) :
    n ≤ a.length + passed := by
  fun_induction flaw <;> grind

theorem utf8_token_more_le (x : UInt8) (a : List UInt8) : (utf8_token x a).more a ≤ a.length := by
  cases htoken : utf8_token x a with
  | char c =>
    obtain ⟨more, rest, rfl, hencode⟩ := utf8_token_char_iff.mp htoken
    have hsize := congrArg List.length hencode
    rw [String.length_utf8EncodeChar] at hsize
    simp only [Utf8Token.more, length_append, length_cons] at hsize ⊢
    omega
  | incomplete => exact Nat.le_refl _
  | invalid error_len =>
    have hlen : error_len ≤ a.length + 1 := by
      unfold utf8_token at htoken
      split at htoken
      case h_1 => cases htoken
      case h_2 => exact flaw_le htoken
    show error_len - 1 ≤ a.length
    omega

theorem from_utf8_lossy_before (a : List UInt8) {b : UInt8} (hb : b.toNat < 128)
    (rest : List UInt8) :
    from_utf8_lossy (a ++ b :: rest) =
      from_utf8_lossy a ++ Char.ofNat b.toNat :: from_utf8_lossy rest := by
  induction hn : a.length using Nat.strongRecOn generalizing a with
  | _ n ih =>
    cases a with
    | nil =>
      have hchar : (Char.ofNat b.toNat).toNat = b.toNat := toNat_ofNat_char (Or.inl (by omega))
      have hencode : String.utf8EncodeChar (Char.ofNat b.toNat) = [b] := by
        rw [encode_ascii (by omega), hchar, UInt8.ofNat_toNat]
      rw [nil_append, from_utf8_lossy, ← nil_append rest, utf8_scan_cons_char hencode]
      rfl
    | cons x a =>
      rw [cons_append, from_utf8_lossy, from_utf8_lossy, utf8_scan, utf8_scan]
      rcases endsBefore_token hb x a rest with ⟨hinc, hinv⟩ | ⟨hne, hsame⟩
      · have hskip : (utf8_token x (a ++ b :: rest)).more (a ++ b :: rest) = a.length := by
          rw [hinv]
          rfl
        have hall : (utf8_token x a).more a = a.length := by
          rw [hinc]
          rfl
        rw [hskip, hall, utf8_scan_eq_drop, drop_left, utf8_scan_eq_drop a.length a,
          drop_length, hinv, hinc]
        have hrest := ih 0 (by rw [← hn]; simp) [] rfl
        simpa [from_utf8_lossy, utf8_scan] using hrest
      · have hmore : (utf8_token x (a ++ b :: rest)).more (a ++ b :: rest) =
            (utf8_token x a).more a := by
          rw [hsame]
          cases htoken : utf8_token x a with
          | char c | invalid error_len => rfl
          | incomplete => exact absurd htoken hne
        have hle := utf8_token_more_le x a
        have hrest := ih (a.drop ((utf8_token x a).more a)).length
          (by rw [← hn, length_drop, length_cons]; omega) _ rfl
        rw [hmore, utf8_scan_eq_drop, drop_append_of_le_length hle,
          utf8_scan_eq_drop _ a, hsame, map_cons, map_cons, cons_append]
        exact congrArg _ hrest

theorem exists_of_mem_utf8_scan {bytes : List UInt8} {token : Utf8Token}
    (h : token ∈ utf8_scan skip bytes) : ∃ b ∈ bytes, ∃ rest, token = utf8_token b rest := by
  induction bytes generalizing skip with
  | nil => cases skip <;> cases h
  | cons b bytes ih =>
    cases skip with
    | zero =>
      rcases mem_cons.mp h with rfl | h
      · exact ⟨b, mem_cons_self, bytes, rfl⟩
      · obtain ⟨b', hb', rest, htoken⟩ := ih h
        exact ⟨b', mem_cons_of_mem b hb', rest, htoken⟩
    | succ skip =>
      obtain ⟨b', hb', rest, htoken⟩ := ih h
      exact ⟨b', mem_cons_of_mem b hb', rest, htoken⟩

theorem mem_of_mem_from_utf8_lossy {bytes : List UInt8} {c : Char} (h : c ∈ from_utf8_lossy bytes)
    (hc : c.toNat < 128) : UInt8.ofNat c.toNat ∈ bytes := by
  obtain ⟨token, hmem, htext⟩ := List.mem_map.mp h
  obtain ⟨b, hb, rest, htoken⟩ := exists_of_mem_utf8_scan hmem
  cases token with
  | char d =>
    obtain rfl : d = c := htext
    obtain ⟨more, rest', -, hencode⟩ := utf8_token_char_iff.mp htoken.symm
    rw [encode_ascii hc] at hencode
    rw [(List.cons.inj hencode).1]
    exact hb
  | invalid error_len | incomplete =>
    obtain rfl : '�' = c := htext
    exact absurd hc (by decide)

end HybridCache.Lib
