/-
Percent-encoding of a text.

The bytes of the text that are in a set, and all bytes outside ASCII, are each written
as a percent sign and two digits; the others stand for themselves. The result is ASCII,
and of the characters of the set it has only the percent sign and digits. If the set has
the percent sign, no two texts have one encoding.
-/
import HybridCache.Lib.Text
import HybridCache.Lib.Utf8

namespace HybridCache.Lib

open List

def upper_hex (b : UInt8) : List Char :=
  [(b.toNat / 16).digitChar.toUpper, (b.toNat % 16).digitChar.toUpper]

def percent_encode_byte (set : UInt8 → Bool) (b : UInt8) : List Char :=
  if set b ∨ 128 ≤ b then '%' :: upper_hex b else [Char.ofNat b.toNat]

def percent_encode (set : UInt8 → Bool) (s : List Char) : List Char :=
  (to_utf8 s).flatMap (percent_encode_byte set)

def hex_pair (digits : List Char) : ℕ :=
  digits.foldl (fun n c => n * 16 + (hex_digit c).getD 0) 0

theorem hex_pair_upper_hex (b : UInt8) : hex_pair (upper_hex b) = b.toNat := by
  refine forall_byte b ?_
  decide +kernel

theorem upper_hex_injective {a b : UInt8} (h : upper_hex a = upper_hex b) : a = b := by
  have hvalue := congrArg hex_pair h
  rw [hex_pair_upper_hex, hex_pair_upper_hex] at hvalue
  exact UInt8.toNat_inj.mp hvalue

/-- One of the sixteen digits that are written. -/
def UpperDigit (c : Char) : Prop :=
  ∃ n < 16, c = n.digitChar.toUpper

theorem mem_upper_hex {b : UInt8} {c : Char} (h : c ∈ upper_hex b) : UpperDigit c := by
  have hlt : b.toNat < 256 := b.toNat_lt
  rcases mem_cons.mp h with rfl | h
  · exact ⟨_, by omega, rfl⟩
  · exact ⟨_, by omega, mem_singleton.mp h⟩

section Set

variable {set : UInt8 → Bool} {s t : List Char} {b : UInt8}

theorem toNat_lt_of_not_encoded (h : ¬ (set b = true ∨ 128 ≤ b)) : b.toNat < 128 := by
  have hle := (not_or.mp h).2
  exact Nat.lt_of_not_le hle

theorem percent_encode_byte_ne_nil : percent_encode_byte set b ≠ [] := by
  unfold percent_encode_byte
  split <;> exact cons_ne_nil _ _

theorem percent_encode_byte_of_safe (hset : set b = false) (hascii : b.toNat < 128) :
    percent_encode_byte set b = [Char.ofNat b.toNat] := by
  rw [percent_encode_byte, if_neg]
  rintro (h | h)
  · rw [hset] at h
    cases h
  · exact absurd (UInt8.le_iff_toNat_le.mp h) (by show ¬ 128 ≤ b.toNat; omega)

theorem mem_percent_encode {c : Char} (h : c ∈ percent_encode set s) :
    c.toNat < 128 ∧ (set (UInt8.ofNat c.toNat) = false ∨ c = '%' ∨ UpperDigit c) := by
  obtain ⟨b, -, hc⟩ := mem_flatMap.mp h
  rw [percent_encode_byte] at hc
  split at hc
  · rcases mem_cons.mp hc with rfl | hc
    · exact ⟨by decide, Or.inr (Or.inl rfl)⟩
    · obtain ⟨n, hn, rfl⟩ := mem_upper_hex hc
      have hascii : ∀ n < 16, n.digitChar.toUpper.toNat < 128 := by decide
      exact ⟨hascii n hn, Or.inr (Or.inr ⟨n, hn, rfl⟩)⟩
  · rename_i hsafe
    have hlt := toNat_lt_of_not_encoded hsafe
    rw [mem_singleton.mp hc, toNat_ofNat_char (Or.inl (by omega)), UInt8.ofNat_toNat]
    exact ⟨hlt, Or.inl (Bool.eq_false_iff.mpr (not_or.mp hsafe).1)⟩

theorem percent_encode_eq_self
    (h : ∀ c ∈ s, c.toNat < 128 ∧ set (UInt8.ofNat c.toNat) = false) :
    percent_encode set s = s := by
  induction s with
  | nil => rfl
  | cons c s ih =>
    obtain ⟨hascii, hset⟩ := h c mem_cons_self
    have hbyte : (UInt8.ofNat c.toNat).toNat = c.toNat := toNat_ofNat_byte (by omega)
    have htail : percent_encode set s = s := ih fun d hd => h d (mem_cons_of_mem c hd)
    rw [percent_encode] at htail ⊢
    rw [to_utf8_cons, encode_ascii hascii, singleton_append, flatMap_cons, htail,
      percent_encode_byte_of_safe hset (by omega), hbyte, Char.ofNat_toNat]
    rfl

theorem percent_encode_byte_cancel (hpercent : set 37 = true) {a : UInt8} {u v : List Char}
    (h : percent_encode_byte set a ++ u = percent_encode_byte set b ++ v) : a = b ∧ u = v := by
  have hpercent_ne : ∀ {d : UInt8}, ¬ (set d = true ∨ 128 ≤ d) → Char.ofNat d.toNat ≠ '%' := by
    intro d hd heq
    have hlt := toNat_lt_of_not_encoded hd
    have hnat := congrArg Char.toNat heq
    rw [toNat_ofNat_char (Or.inl (by omega))] at hnat
    have hd37 : d = 37 := UInt8.toNat_inj.mp hnat
    rw [hd37] at hd
    exact hd (Or.inl hpercent)
  unfold percent_encode_byte at h
  by_cases ha : set a = true ∨ 128 ≤ a
  · by_cases hb : set b = true ∨ 128 ≤ b
    · rw [if_pos ha, if_pos hb] at h
      injection h with _ h
      obtain ⟨hhex, huv⟩ := append_inj h rfl
      exact ⟨upper_hex_injective hhex, huv⟩
    · rw [if_pos ha, if_neg hb] at h
      injection h with h _
      exact absurd h.symm (hpercent_ne hb)
  · by_cases hb : set b = true ∨ 128 ≤ b
    · rw [if_neg ha, if_pos hb] at h
      injection h with h _
      exact absurd h (hpercent_ne ha)
    · rw [if_neg ha, if_neg hb] at h
      injection h with hchar huv
      refine ⟨?_, huv⟩
      have hla := toNat_lt_of_not_encoded ha
      have hlb := toNat_lt_of_not_encoded hb
      have hnat := congrArg Char.toNat hchar
      rw [toNat_ofNat_char (Or.inl (by omega)), toNat_ofNat_char (Or.inl (by omega))] at hnat
      exact UInt8.toNat_inj.mp hnat

theorem flatMap_percent_encode_byte_cancel (hpercent : set 37 = true) {x y : List UInt8}
    (h : x.flatMap (percent_encode_byte set) = y.flatMap (percent_encode_byte set)) : x = y := by
  -- no byte is encoded by nothing
  have hne : ∀ (b : UInt8) (z : List UInt8),
      percent_encode_byte set b ++ z.flatMap (percent_encode_byte set) ≠ [] :=
    fun b z => append_ne_nil_of_left_ne_nil percent_encode_byte_ne_nil _
  induction x generalizing y with
  | nil =>
    cases y with
    | nil => rfl
    | cons b y => exact absurd h.symm (hne b y)
  | cons a x ih =>
    cases y with
    | nil => exact absurd h (hne a x)
    | cons b y =>
      obtain ⟨hab, hrest⟩ := percent_encode_byte_cancel hpercent h
      rw [hab, ih hrest]

/-- **No two texts have one encoding**, if the percent sign is encoded. -/
theorem percent_encode_injective (hpercent : set 37 = true)
    (h : percent_encode set s = percent_encode set t) : s = t :=
  to_utf8_injective (flatMap_percent_encode_byte_cancel hpercent h)

end Set

end HybridCache.Lib
