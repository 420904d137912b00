/-
The chunked body of a response (`decode_chunked_body_bounded` in `signed_request_proxy.rs`).

Which lines give a size is said twice: by the grammar of HTTP/1.1, where digits may be followed by
an extension (`chunk_size_line`), and by the code, which takes the whole trimmed line as a number
(`parsed_size`). The two agree on plain lines of digits. The reader stops at the zero line, but
also where the input ends between two chunks. `Ordinary` is when it answers as the grammar says.

`decoded.len() + chunk_size` and `pos + chunk_size` are sums of `usize`; where they overflow the
call panics, with or without overflow checks.
-/
import HybridCache.Lib.Chunked
import HybridCache.Lib.Outcome
import HybridCache.Lib.Text
import HybridCache.Lib.Utf8

namespace HybridCache.SignedRequest

open Lib List

structure ChunkedDecodeConfig where
  max_chunk_size : ℕ
  max_total_decoded : ℕ
deriving DecidableEq, Repr

def ChunkedDecodeConfig.default : ChunkedDecodeConfig where
  max_chunk_size := 16 * 1024 * 1024
  max_total_decoded := 100 * 1024 * 1024

inductive ChunkedDecodeError where
  | ChunkTooLarge (declared max : ℕ)
  | BodyTooLarge (accumulated max : ℕ)
  | TruncatedBeforeTerminator
  | MalformedChunkSize (size : List Char)
deriving DecidableEq, Repr

def size_text (line : List UInt8) : List Char :=
  trim (from_utf8_lossy line)

def decode_from (config : ChunkedDecodeConfig) (len : ℕ) (decoded rest : List UInt8) :
    Outcome ChunkedDecodeError (List UInt8) :=
  if rest = [] then .ok decoded
  else
    match find_crlf rest with
    | none => .err .TruncatedBeforeTerminator
    | some size_line_end =>
      match parse_hex u64_max (size_text (rest.take size_line_end)) with
      | .error _ => .err (.MalformedChunkSize (size_text (rest.take size_line_end)))
      | .ok chunk_size =>
        let unread := rest.drop (size_line_end + 2)
        if chunk_size = 0 then .ok decoded
        else if chunk_size > config.max_chunk_size then
          .err (.ChunkTooLarge chunk_size config.max_chunk_size)
        else
          (u64_add decoded.length chunk_size).bind fun accumulated =>
            if accumulated > config.max_total_decoded then
              .err (.BodyTooLarge accumulated config.max_total_decoded)
            else
              (u64_add (len - unread.length) chunk_size).bind fun chunk_end =>
                if chunk_end > len then .err .TruncatedBeforeTerminator
                else if crlf <+: unread.drop chunk_size then
                  decode_from config len (decoded ++ unread.take chunk_size)
                    ((unread.drop chunk_size).drop 2)
                else .err .TruncatedBeforeTerminator
termination_by rest.length
decreasing_by
  show (((rest.drop (size_line_end + 2)).drop chunk_size).drop 2).length < rest.length
  have hne : rest ≠ [] := by assumption
  have hpos := length_pos_iff.mpr hne
  simp only [length_drop]
  omega

def decode_chunked_body_bounded (chunked_data : List UInt8) (config : ChunkedDecodeConfig) :
    Outcome ChunkedDecodeError (List UInt8) :=
  decode_from config chunked_data.length [] chunked_data

/-! ## Size lines -/

def parsed_size (line : List UInt8) : Option ℕ :=
  (parse_hex u64_max (size_text line)).toOption

def is_hex (b : UInt8) : Bool :=
  (48 ≤ b ∧ b ≤ 57) ∨ (65 ≤ b ∧ b ≤ 70) ∨ (97 ≤ b ∧ b ≤ 102)

def hex_value (b : UInt8) : ℕ :=
  if b ≤ 57 then b.toNat - 48 else if b ≤ 70 then b.toNat - 55 else b.toNat - 87

def digits_value (value : ℕ) (digits : List UInt8) : ℕ :=
  digits.foldl (fun n b => n * 16 + hex_value b) value

/-- The size that a line gives by the grammar: digits, and then nothing or an extension, which
begins with a semicolon that may stand behind blanks. -/
def chunk_size_line (line : List UInt8) : Option ℕ :=
  let after := line.dropWhile is_hex
  if line.takeWhile is_hex = [] then none
  else if after = [] ∨ (after.dropWhile fun b => b = 32 ∨ b = 9).head? = some 59 then
    some (digits_value 0 (line.takeWhile is_hex))
  else none

/-- A size line that is digits only. -/
structure Plain (line : List UInt8) : Prop where
  nonempty : line ≠ []
  digits : ∀ b ∈ line, is_hex b = true

section SizeLines

variable {line : List UInt8} {n m : ℕ}

theorem parsed_size_eq_some :
    parsed_size line = some n ↔ parse_hex u64_max (size_text line) = .ok n := by
  unfold parsed_size
  cases parse_hex u64_max (size_text line) with
  | error e | ok m => simp [Except.toOption]

theorem hex_digit_of_is_hex {b : UInt8} (h : is_hex b = true) :
    b.toNat < 128 ∧ hex_digit (Char.ofNat b.toNat) = some (hex_value b) ∧
      is_whitespace (Char.ofNat b.toNat) = false := by
  revert h
  refine forall_byte b ?_
  decide +kernel

theorem text_value_ascii {digits : List UInt8} (h : ∀ b ∈ digits, is_hex b = true)
    (value : ℕ) : text_value hex_digit 16 value (ascii digits) = digits_value value digits := by
  induction digits generalizing value with
  | nil => rfl
  | cons b digits ih =>
    obtain ⟨-, hdigit, -⟩ := hex_digit_of_is_hex (h b mem_cons_self)
    rw [ascii, map_cons, text_value, foldl_cons, hdigit]
    exact ih (fun c hc => h c (mem_cons_of_mem b hc)) _

theorem parsed_size_of_plain (h : Plain line) :
    parsed_size line =
      if digits_value 0 line ≤ u64_max then some (digits_value 0 line) else none := by
  have hascii : to_utf8 (ascii line) = line :=
    to_utf8_ascii fun b hb => (hex_digit_of_is_hex (h.digits b hb)).1
  have hspace : ∀ c ∈ ascii line, is_whitespace c = false :=
    forall_mem_map.mpr fun b hb => (hex_digit_of_is_hex (h.digits b hb)).2.2
  have hdigits : ∀ c ∈ ascii line, (hex_digit c).isSome = true := by
    refine forall_mem_map.mpr fun b hb => ?_
    rw [(hex_digit_of_is_hex (h.digits b hb)).2.1]
    rfl
  have htext : size_text line = ascii line := by
    conv_lhs => rw [← hascii]
    rw [size_text, from_utf8_lossy_to_utf8]
    exact trim_of_no_space hspace
  have hne : ascii line ≠ [] := by
    rw [ascii, Ne, map_eq_nil_iff]
    exact h.nonempty
  have hplus : ∀ digits, ascii line ≠ '+' :: digits := by
    intro digits heq
    exact absurd (hdigits '+' (heq ▸ mem_cons_self)) (by decide)
  ext n
  rw [parsed_size_eq_some, htext, parse_hex, from_str_radix_eq_ok_iff rfl (by decide),
    ← text_value_ascii h.digits]
  grind

theorem chunk_size_line_of_plain (h : Plain line) :
    chunk_size_line line = some (digits_value 0 line) := by
  have htake : line.takeWhile is_hex = line := takeWhile_eq_self_iff.mpr h.digits
  have hdrop : line.dropWhile is_hex = [] := dropWhile_eq_nil_iff.mpr h.digits
  unfold chunk_size_line
  rw [htake, hdrop, if_neg h.nonempty, if_pos (Or.inl rfl)]

/-- Digits that fit are the same to the code as by the grammar. -/
theorem parsed_size_eq_of_plain (hplain : Plain line) (hsize : chunk_size_line line = some n)
    (hn : n ≤ u64_max) : parsed_size line = some n := by
  rw [chunk_size_line_of_plain hplain] at hsize
  rw [parsed_size_of_plain hplain, Option.some.inj hsize, if_pos hn]

theorem parsed_size_extension {before rest : List UInt8} (hbefore : ∀ b ∈ before, b.toNat < 128) :
    parsed_size (before ++ 59 :: rest) = none := by
  have hbytes : before ++ 59 :: rest = to_utf8 (ascii (before ++ [59])) ++ rest := by
    rw [to_utf8_ascii]
    · simp
    · exact forall_mem_append.mpr ⟨hbefore, forall_mem_singleton.mpr (by decide)⟩
  have hmem : ';' ∈ size_text (before ++ 59 :: rest) := by
    refine mem_trim ?_ (by decide)
    rw [hbytes, from_utf8_lossy_append, ascii, map_append]
    exact mem_append_left _ (mem_append_right _ mem_cons_self)
  rw [Option.eq_none_iff_forall_ne_some]
  intro n hn
  obtain ⟨digits, -, hdigits, hs, -⟩ :=
    (from_str_radix_eq_ok_iff rfl (by decide)).mp (parsed_size_eq_some.mp hn)
  have hdigit : ';' ∈ digits := by
    rcases hs with hs | hs <;> rw [hs] at hmem
    · exact hmem
    · exact (mem_cons.mp hmem).resolve_left (by decide)
  exact absurd (hdigits _ hdigit) (by decide)

theorem plain_of_both (hgrammar : chunk_size_line line = some n)
    (hcode : parsed_size line = some m) : Plain line ∧ n = m := by
  have hsplit : line.takeWhile is_hex ++ line.dropWhile is_hex = line := takeWhile_append_dropWhile
  have hhex : ∀ b ∈ line.takeWhile is_hex, is_hex b = true := fun b hb => mem_takeWhile_imp hb
  have hsome := hgrammar
  unfold chunk_size_line at hsome
  by_cases hdigits : line.takeWhile is_hex = []
  · rw [if_pos hdigits] at hsome
    cases hsome
  rw [if_neg hdigits] at hsome
  by_cases hafter : line.dropWhile is_hex = []
  · rw [hafter, append_nil] at hsplit
    have hplain : Plain line := by
      rw [← hsplit]
      exact ⟨hdigits, hhex⟩
    refine ⟨hplain, ?_⟩
    rw [chunk_size_line_of_plain hplain] at hgrammar
    rw [parsed_size_of_plain hplain] at hcode
    split_ifs at hcode
    exact (Option.some.inj hgrammar).symm.trans (Option.some.inj hcode)
  · -- an extension
    by_cases hext : ((line.dropWhile is_hex).dropWhile fun b => b = 32 ∨ b = 9).head? = some 59
    · obtain ⟨rest, hrest⟩ := List.head?_eq_some_iff.mp hext
      let blanks := (line.dropWhile is_hex).takeWhile fun b => b = 32 ∨ b = 9
      have hline : line = (line.takeWhile is_hex ++ blanks) ++ 59 :: rest := by
        rw [append_assoc, ← hrest, takeWhile_append_dropWhile, hsplit]
      rw [hline, parsed_size_extension] at hcode
      · cases hcode
      · intro b hb
        rcases mem_append.mp hb with hb | hb
        · exact (hex_digit_of_is_hex (hhex b hb)).1
        · have hblank := mem_takeWhile_imp hb
          rw [decide_eq_true_eq] at hblank
          rcases hblank with rfl | rfl <;> decide
    · rw [if_neg (not_or.mpr ⟨hafter, hext⟩)] at hsome
      cases hsome

end SizeLines

/-! ## Rows of chunks -/

/-- A row of chunks keeps the limits. -/
structure Within (config : ChunkedDecodeConfig) {size_of : List UInt8 → Option ℕ}
    (chunks : List (Chunk size_of)) : Prop where
  each : ∀ chunk ∈ chunks, chunk.payload.length ≤ config.max_chunk_size
  total : (chunk_data chunks).length ≤ config.max_total_decoded

/-- A size that passes the limits as far as they are checked before a sum overflows. -/
def Overflow (config : ChunkedDecodeConfig) (decoded_len pos chunk_size : ℕ) : Prop :=
  chunk_size ≤ config.max_chunk_size ∧
    (u64_max < decoded_len + chunk_size ∨
      (decoded_len + chunk_size ≤ config.max_total_decoded ∧ u64_max < pos + chunk_size))

section Reading

variable {config : ChunkedDecodeConfig} {len : ℕ} {decoded line rest : List UInt8} {n : ℕ}

theorem decode_from_nil : decode_from config len decoded [] = .ok decoded := by
  rw [decode_from, if_pos rfl]

theorem append_crlf_ne_nil : line ++ (crlf ++ rest) ≠ [] := by
  simp [crlf]

theorem decode_from_last (h : IsLine line) (hsize : parsed_size line = some 0) :
    decode_from config len decoded (line ++ (crlf ++ rest)) = .ok decoded := by
  obtain ⟨htake, -⟩ := take_drop_line
  rw [decode_from, if_neg append_crlf_ne_nil, find_crlf_line h]
  dsimp only
  rw [htake, parsed_size_eq_some.mp hsize]
  rfl

theorem decode_from_malformed (h : IsLine line) (hsize : parsed_size line = none) :
    decode_from config len decoded (line ++ (crlf ++ rest)) =
      .err (.MalformedChunkSize (size_text line)) := by
  obtain ⟨htake, -⟩ := take_drop_line
  rw [decode_from, if_neg append_crlf_ne_nil, find_crlf_line h]
  dsimp only
  rw [htake]
  cases hparse : parse_hex u64_max (size_text line) with
  | error e => rfl
  | ok n =>
    rw [parsed_size_eq_some.mpr hparse] at hsize
    cases hsize

section

variable (h : IsLine line) (hsize : parsed_size line = some n) (hn : n ≠ 0)

include h hsize hn

theorem decode_from_size :
    decode_from config len decoded (line ++ (crlf ++ rest)) =
      if n > config.max_chunk_size then .err (.ChunkTooLarge n config.max_chunk_size)
      else
        (u64_add decoded.length n).bind fun accumulated =>
          if accumulated > config.max_total_decoded then
            .err (.BodyTooLarge accumulated config.max_total_decoded)
          else
            (u64_add (len - rest.length) n).bind fun chunk_end =>
              if chunk_end > len then .err .TruncatedBeforeTerminator
              else if crlf <+: rest.drop n then
                decode_from config len (decoded ++ rest.take n) ((rest.drop n).drop 2)
              else .err .TruncatedBeforeTerminator := by
  obtain ⟨htake, hdrop⟩ := take_drop_line
  rw [decode_from, if_neg append_crlf_ne_nil, find_crlf_line h]
  dsimp only
  rw [htake, hdrop, parsed_size_eq_some.mp hsize]
  dsimp only
  rw [if_neg hn]

theorem decode_from_overflow
    (hover : Overflow config decoded.length (len - rest.length) n) :
    decode_from config len decoded (line ++ (crlf ++ rest)) = .panic := by
  obtain ⟨hchunk, hsum⟩ := hover
  rw [decode_from_size h hsize hn, if_neg (by omega)]
  by_cases hdecoded : decoded.length + n ≤ u64_max
  · rw [u64_add_of_le hdecoded]
    show (if decoded.length + n > config.max_total_decoded then _ else _) = _
    rw [if_neg (by omega), u64_add, if_neg (by omega)]
    rfl
  · rw [u64_add, if_neg hdecoded]
    rfl

theorem decode_from_size_cases (hinput : decoded.length + rest.length ≤ len) :
    (∃ e, decode_from config len decoded (line ++ (crlf ++ rest)) = .err e) ∨
    Overflow config decoded.length (len - rest.length) n ∨
    ∃ payload after, rest = payload ++ (crlf ++ after) ∧ payload.length = n ∧
      n ≤ config.max_chunk_size ∧ decoded.length + n ≤ config.max_total_decoded := by
  by_cases hover : Overflow config decoded.length (len - rest.length) n
  · exact Or.inr (Or.inl hover)
  by_cases hchunk : n ≤ config.max_chunk_size
  · have hsum : decoded.length + n ≤ u64_max ∧ (decoded.length + n ≤ config.max_total_decoded →
        len - rest.length + n ≤ u64_max) := by
      unfold Overflow at hover
      omega
    by_cases htotal : decoded.length + n ≤ config.max_total_decoded
    · by_cases hfits : n ≤ rest.length ∧ crlf <+: rest.drop n
      · obtain ⟨after, hafter⟩ := hfits.2
        refine Or.inr (Or.inr ⟨rest.take n, after, ?_, ?_, hchunk, htotal⟩)
        · rw [hafter, take_append_drop]
        · rw [length_take]
          omega
      · left
        refine ⟨.TruncatedBeforeTerminator, ?_⟩
        rw [decode_from_size h hsize hn, if_neg (by omega), u64_add_of_le hsum.1]
        show (if decoded.length + n > config.max_total_decoded then _ else _) = _
        rw [if_neg (by omega), u64_add_of_le (hsum.2 htotal)]
        show (if len - rest.length + n > len then _ else _) = _
        by_cases hend : len - rest.length + n > len
        · rw [if_pos hend]
        · rw [if_neg hend, if_neg]
          intro hcrlf
          exact hfits ⟨by omega, hcrlf⟩
    · left
      refine ⟨.BodyTooLarge (decoded.length + n) config.max_total_decoded, ?_⟩
      rw [decode_from_size h hsize hn, if_neg (by omega), u64_add_of_le hsum.1]
      show (if decoded.length + n > config.max_total_decoded then _ else _) = _
      rw [if_pos (by omega)]
  · left
    refine ⟨.ChunkTooLarge n config.max_chunk_size, ?_⟩
    rw [decode_from_size h hsize hn, if_pos (by omega)]

end

theorem decode_from_chunk (chunk : Chunk parsed_size)
    (hchunk : chunk.payload.length ≤ config.max_chunk_size)
    (htotal : decoded.length + chunk.payload.length ≤ config.max_total_decoded)
    (hlen : len ≤ u64_max)
    (hinput : decoded.length + (chunk.payload ++ (crlf ++ rest)).length ≤ len) :
    decode_from config len decoded
        (chunk.line ++ (crlf ++ (chunk.payload ++ (crlf ++ rest)))) =
      decode_from config len (decoded ++ chunk.payload) rest := by
  have hpos : chunk.payload.length ≠ 0 := by
    rw [Ne, length_eq_zero_iff]
    exact chunk.nonempty
  have hle : chunk.payload.length ≤ (chunk.payload ++ (crlf ++ rest)).length := by
    rw [length_append]
    omega
  rw [decode_from_size chunk.is_line chunk.size hpos, if_neg (by omega), u64_add_of_le (by omega)]
  show (if decoded.length + chunk.payload.length > config.max_total_decoded then _ else _) = _
  rw [if_neg (by omega), u64_add_of_le (by omega)]
  show (if len - (chunk.payload ++ (crlf ++ rest)).length + chunk.payload.length > len
    then _ else _) = _
  rw [if_neg (by omega), drop_left, take_left, if_pos (prefix_append crlf rest)]
  rfl

theorem decode_from_chunks (chunks : List (Chunk parsed_size))
    (heach : ∀ chunk ∈ chunks, chunk.payload.length ≤ config.max_chunk_size)
    (htotal : decoded.length + (chunk_data chunks).length ≤ config.max_total_decoded)
    (hlen : len ≤ u64_max) (hinput : decoded.length + (chunk_bytes chunks ++ rest).length ≤ len) :
    decode_from config len decoded (chunk_bytes chunks ++ rest) =
      decode_from config len (decoded ++ chunk_data chunks) rest := by
  induction chunks generalizing decoded with
  | nil =>
    rw [chunk_data, flatMap_nil, append_nil]
    rfl
  | cons chunk chunks ih =>
    rw [chunk_data_cons, length_append] at htotal
    rw [chunk_bytes_cons] at hinput ⊢
    rw [length_append, length_append] at hinput
    rw [decode_from_chunk chunk (heach chunk mem_cons_self) (by omega) hlen (by omega)]
    rw [ih fun c hc => heach c (mem_cons_of_mem chunk hc)]
    · rw [chunk_data_cons, append_assoc]
    · rw [length_append]
      omega
    · simp only [length_append] at hinput ⊢
      omega

/-- How far a body is read without an error: to its end between two chunks, to a zero line, or to
a size that overflows. -/
theorem decode_from_cases (hlen : len ≤ u64_max) (hinput : decoded.length + rest.length ≤ len)
    (hdecoded : decoded.length ≤ config.max_total_decoded) :
    (∃ e, decode_from config len decoded rest = .err e) ∨
    ∃ chunks : List (Chunk parsed_size),
      (∀ chunk ∈ chunks, chunk.payload.length ≤ config.max_chunk_size) ∧
      decoded.length + (chunk_data chunks).length ≤ config.max_total_decoded ∧
      (rest = chunk_bytes chunks ∨
        ∃ line after n, IsLine line ∧ parsed_size line = some n ∧
          rest = chunk_bytes chunks ++ (line ++ (crlf ++ after)) ∧
          (n = 0 ∨ Overflow config (decoded.length + (chunk_data chunks).length)
            (len - after.length) n)) := by
  induction hn : rest.length using Nat.strongRecOn generalizing decoded rest with
  | _ k ih =>
    by_cases hnil : rest = []
    · exact Or.inr ⟨[], by simp, hdecoded, Or.inl hnil⟩
    cases hfind : find_crlf rest with
    | none =>
      left
      rw [decode_from, if_neg hnil, hfind]
      exact ⟨_, rfl⟩
    | some size_line_end =>
      obtain ⟨line, after, hline, rfl, rfl⟩ := find_crlf_eq_some hfind
      have hlength : (line ++ (crlf ++ after)).length = line.length + (2 + after.length) := by
        simp only [length_append]
        rfl
      rw [hlength] at hinput hn
      cases hsize : parsed_size line with
      | none => exact Or.inl ⟨_, decode_from_malformed hline hsize⟩
      | some n =>
        by_cases hzero : n = 0
        · exact Or.inr ⟨[], by simp, hdecoded,
            Or.inr ⟨line, after, n, hline, hsize, rfl, Or.inl hzero⟩⟩
        have hcases := @decode_from_size_cases config len decoded line after n hline hsize hzero
          (by omega)
        rcases hcases with herr | hover | ⟨payload, after', rfl, rfl, hchunk, htotal⟩
        · exact Or.inl herr
        · exact Or.inr ⟨[], by simp, hdecoded,
            Or.inr ⟨line, after, n, hline, hsize, rfl, Or.inr hover⟩⟩
        · have hne : payload ≠ [] := by
            rintro rfl
            exact hzero rfl
          let chunk : Chunk parsed_size := ⟨line, payload, hline, hsize, hne⟩
          have hstep := @decode_from_chunk config len decoded after' chunk hchunk htotal hlen
            (by show decoded.length + (payload ++ (crlf ++ after')).length ≤ len; omega)
          rw [length_append, length_append] at hinput hn
          have hrest := @ih after'.length (by omega) (decoded ++ payload) after'
            (by rw [length_append]; omega) (by rw [length_append]; exact htotal) rfl
          rcases hrest with ⟨e, he⟩ | ⟨chunks, heach, hall, hend⟩
          · left
            exact ⟨e, hstep.trans he⟩
          · right
            have hdata : (decoded ++ payload).length + (chunk_data chunks).length =
                decoded.length + (chunk_data (chunk :: chunks)).length := by
              rw [chunk_data_cons, length_append, length_append, Nat.add_assoc]
            rw [hdata] at hall hend
            refine ⟨chunk :: chunks, ?_, hall, ?_⟩
            · exact forall_mem_cons.mpr ⟨hchunk, heach⟩
            · rcases hend with rfl | ⟨line', after'', n', hline', hsize', rfl, hstop⟩
              · left
                simpa using (chunk_bytes_cons chunk chunks []).symm
              · right
                refine ⟨line', after'', n', hline', hsize', ?_, hstop⟩
                rw [chunk_bytes_cons]

end Reading

/-! ## When the decoder is exact -/

open Framing

section Exact

variable {config : ChunkedDecodeConfig} {input data : List UInt8}

/-- The input starts with a sequence of chunks that is complete and keeps the limits, and carries
this data. -/
def Complete (config : ChunkedDecodeConfig) (input data : List UInt8) : Prop :=
  ∃ f : Framing chunk_size_line, f.bytes = input ∧ Within config f.chunks ∧ data = f.data

/-- The decoder returns the data of a complete sequence, and an error if there is none. -/
def Exact (config : ChunkedDecodeConfig) (input : List UInt8) : Prop :=
  (∀ data, decode_chunked_body_bounded input config = .ok data ↔ Complete config input data) ∧
    ((∀ data, ¬ Complete config input data) →
      ∃ e, decode_chunked_body_bounded input config = .err e)

/-- An input that the code and the grammar read alike. -/
structure Ordinary (config : ChunkedDecodeConfig) (input : List UInt8) : Prop where
  /-- a complete sequence has no extensions -/
  no_extension : ∀ f : Framing chunk_size_line, f.bytes = input → Within config f.chunks →
    ∀ line ∈ f.lines, Plain line
  /-- what the code takes for a complete sequence has no sign and no white space in a size line -/
  no_other_size : ∀ f : Framing parsed_size, f.bytes = input → Within config f.chunks →
    ∀ line ∈ f.lines, Plain line
  /-- the input does not end between two chunks -/
  not_between : ∀ chunks : List (Chunk parsed_size), chunk_bytes chunks = input →
    ¬ Within config chunks
  /-- no size is so large that a sum overflows -/
  no_overflow : ∀ (chunks : List (Chunk parsed_size)) (line after : List UInt8) (n : ℕ),
    chunk_bytes chunks ++ (line ++ (crlf ++ after)) = input → Within config chunks →
      IsLine line → parsed_size line = some n →
        ¬ Overflow config (chunk_data chunks).length (input.length - after.length) n

theorem within_congr {size_of size_of' : List UInt8 → Option ℕ} {chunks : List (Chunk size_of)}
    {chunks' : List (Chunk size_of')}
    (h : chunks.map Chunk.payload = chunks'.map Chunk.payload) (hwithin : Within config chunks) :
    Within config chunks' := by
  have heach : ∀ payload ∈ chunks.map Chunk.payload, payload.length ≤ config.max_chunk_size :=
    forall_mem_map.mpr hwithin.each
  rw [h] at heach
  refine ⟨forall_mem_map.mp heach, ?_⟩
  rw [chunk_data_eq_flatten, ← h]
  exact hwithin.total

variable {chunks : List (Chunk parsed_size)}

theorem sizes_agree : ∀ line n m, chunk_size_line line = some n → parsed_size line = some m →
    n = m :=
  fun _ _ _ hgrammar hcode => (plain_of_both hgrammar hcode).2

variable {f : Framing chunk_size_line} {g : Framing parsed_size} {after line : List UInt8}

theorem plain_of_framings (h : f.bytes = g.bytes) :
    f.lines = g.lines ∧ ∀ line ∈ f.lines, Plain line := by
  obtain ⟨hlines, -⟩ := read_alike sizes_agree h
  refine ⟨hlines, ?_⟩
  intro line hline
  obtain ⟨n, hn⟩ := size_of_mem_lines hline
  rw [hlines] at hline
  obtain ⟨m, hm⟩ := size_of_mem_lines hline
  exact (plain_of_both hn hm).1

theorem complete_of_plain (hinput : g.bytes = input) (hwithin : Within config g.chunks)
    (hplain : ∀ line ∈ g.lines, Plain line) : Complete config input g.data := by
  have hread : ∀ line ∈ g.lines, ∀ n ≤ g.bytes.length, parsed_size line = some n →
      chunk_size_line line = some n := by
    intro line hline n _ hsize
    have hgrammar := chunk_size_line_of_plain (hplain line hline)
    rw [hgrammar, sizes_agree line _ n hgrammar hsize]
  obtain ⟨f, hbytes, -, hpayloads⟩ := exists_same hread
  refine ⟨f, hbytes.trans hinput, within_congr hpayloads.symm hwithin, ?_⟩
  rw [data, data, chunk_data_eq_flatten, chunk_data_eq_flatten, hpayloads]

theorem length_front_le (hinput : chunk_bytes chunks ++ (line ++ (crlf ++ after)) = input) :
    (chunk_data chunks).length + after.length ≤ input.length := by
  have hdata := chunk_data_length_le chunks
  have hlength := congrArg List.length hinput
  simp only [length_append] at hlength
  omega

section

variable (hlen : input.length ≤ u64_max)

include hlen

theorem decode_behind {rest : List UInt8} (hinput : chunk_bytes chunks ++ rest = input)
    (hwithin : Within config chunks) :
    decode_chunked_body_bounded input config =
      decode_from config input.length (chunk_data chunks) rest := by
  have hrun := @decode_from_chunks config input.length [] rest chunks hwithin.each
    (by rw [length_nil, Nat.zero_add]; exact hwithin.total) hlen
    (by rw [hinput, length_nil, Nat.zero_add])
  rw [hinput] at hrun
  exact hrun

theorem decode_of_row (hinput : chunk_bytes chunks = input) (hwithin : Within config chunks) :
    decode_chunked_body_bounded input config = .ok (chunk_data chunks) := by
  rw [← append_nil (chunk_bytes chunks)] at hinput
  rw [decode_behind hlen hinput hwithin, decode_from_nil]

theorem decode_of_framing {f : Framing parsed_size} (hinput : f.bytes = input)
    (hwithin : Within config f.chunks) : decode_chunked_body_bounded input config = .ok f.data := by
  rw [decode_behind hlen hinput hwithin]
  exact decode_from_last f.is_line f.size

theorem decode_of_overflow {line after : List UInt8} {n : ℕ}
    (hinput : chunk_bytes chunks ++ (line ++ (crlf ++ after)) = input)
    (hwithin : Within config chunks) (hline : IsLine line) (hsize : parsed_size line = some n)
    (hover : Overflow config (chunk_data chunks).length (input.length - after.length) n) :
    decode_chunked_body_bounded input config = .panic := by
  have hne : n ≠ 0 := by
    rintro rfl
    have hfront := length_front_le hinput
    unfold Overflow at hover
    omega
  rw [decode_behind hlen hinput hwithin]
  exact decode_from_overflow hline hsize hne hover

theorem decode_cases (config : ChunkedDecodeConfig) :
    (∃ e, decode_chunked_body_bounded input config = .err e) ∨
    (∃ chunks : List (Chunk parsed_size), chunk_bytes chunks = input ∧ Within config chunks) ∨
    (∃ f : Framing parsed_size, f.bytes = input ∧ Within config f.chunks) ∨
    ∃ (chunks : List (Chunk parsed_size)) (line after : List UInt8) (n : ℕ),
      chunk_bytes chunks ++ (line ++ (crlf ++ after)) = input ∧ Within config chunks ∧
        IsLine line ∧ parsed_size line = some n ∧
        Overflow config (chunk_data chunks).length (input.length - after.length) n := by
  have hcases := @decode_from_cases config input.length [] input hlen
    (by rw [length_nil, Nat.zero_add]) (Nat.zero_le _)
  rcases hcases with herr | ⟨chunks, heach, htotal, hend⟩
  · exact Or.inl herr
  · rw [length_nil, Nat.zero_add] at htotal hend
    right
    rcases hend with hrow | ⟨line, after, n, hline, hsize, hinput, hzero | hover⟩
    · exact Or.inl ⟨chunks, hrow.symm, heach, htotal⟩
    · rw [hzero] at hsize
      exact Or.inr (Or.inl ⟨⟨chunks, line, after, hline, hsize⟩, hinput.symm, heach, htotal⟩)
    · exact Or.inr (Or.inr ⟨chunks, line, after, n, hinput.symm, ⟨heach, htotal⟩, hline, hsize,
        hover⟩)

theorem decode_of_plain (hinput : f.bytes = input) (hwithin : Within config f.chunks)
    (hplain : ∀ line ∈ f.lines, Plain line) :
    decode_chunked_body_bounded input config = .ok f.data := by
  have hread : ∀ line ∈ f.lines, ∀ n ≤ f.bytes.length, chunk_size_line line = some n →
      parsed_size line = some n := by
    intro line hline n hn hsize
    exact parsed_size_eq_of_plain (hplain line hline) hsize (hn.trans (hinput ▸ hlen))
  obtain ⟨g, hbytes, -, hpayloads⟩ := exists_same hread
  have hdata : g.data = f.data := by
    rw [data, data, chunk_data_eq_flatten, chunk_data_eq_flatten, hpayloads]
  rw [decode_of_framing hlen (hbytes.trans hinput) (within_congr hpayloads.symm hwithin), hdata]

theorem exact_of_ordinary (h : Ordinary config input) : Exact config input := by
  have hcases : (∃ e, decode_chunked_body_bounded input config = .err e) ∨
      ∃ data, decode_chunked_body_bounded input config = .ok data ∧ Complete config input data := by
    rcases decode_cases hlen config with herr | ⟨chunks, hrow, hwithin⟩ |
      ⟨g, hg, hwithin⟩ | ⟨chunks, line, after, n, hinput, hwithin, hline, hsize, hover⟩
    · exact Or.inl herr
    · exact absurd hwithin (h.not_between chunks hrow)
    · exact Or.inr ⟨g.data, decode_of_framing hlen hg hwithin,
        complete_of_plain hg hwithin (h.no_other_size g hg hwithin)⟩
    · exact absurd hover (h.no_overflow chunks line after n hinput hwithin hline hsize)
  refine ⟨fun data => ⟨fun hok => ?_, ?_⟩, fun hnone => ?_⟩
  · obtain ⟨e, he⟩ | ⟨data', hok', hdata'⟩ := hcases
    · rw [he] at hok
      cases hok
    · rw [hok'] at hok
      cases hok
      exact hdata'
  · rintro ⟨f, hf, hwithin, rfl⟩
    exact decode_of_plain hlen hf hwithin (h.no_extension f hf hwithin)
  · exact hcases.resolve_right fun ⟨data, _, hdata⟩ => hnone data hdata

theorem ordinary_of_exact (h : Exact config input) : Ordinary config input := by
  -- a row of chunks is decoded, but it is not complete
  have hrow : ∀ chunks : List (Chunk parsed_size), chunk_bytes chunks = input →
      ¬ Within config chunks := by
    intro chunks hinput hwithin
    obtain ⟨f, hf, -⟩ := (h.1 _).mp (decode_of_row hlen hinput hwithin)
    exact bytes_ne_chunk_bytes sizes_agree (hf.trans hinput.symm)
  refine ⟨?_, ?_, hrow, ?_⟩
  · intro f hf hwithin
    have hok := (h.1 _).mpr ⟨f, hf, hwithin, rfl⟩
    rcases decode_cases hlen config with ⟨e, he⟩ | ⟨chunks, hinput, hwithin'⟩ |
      ⟨g, hg, -⟩ | ⟨chunks, line, after, n, hinput, hwithin', hline, hsize, hover⟩
    · rw [he] at hok
      cases hok
    · exact absurd hwithin' (hrow chunks hinput)
    · exact (plain_of_framings (hf.trans hg.symm)).2
    · rw [decode_of_overflow hlen hinput hwithin' hline hsize hover] at hok
      cases hok
  · intro g hg hwithin
    obtain ⟨f, hf, -⟩ := (h.1 _).mp (decode_of_framing hlen hg hwithin)
    obtain ⟨hlines, hplain⟩ := plain_of_framings (hf.trans hg.symm)
    rw [← hlines]
    exact hplain
  · intro chunks line after n hinput hwithin hline hsize hover
    have hpanic := decode_of_overflow hlen hinput hwithin hline hsize hover
    have hnone : ∀ data, ¬ Complete config input data := by
      intro data hdata
      rw [← h.1, hpanic] at hdata
      cases hdata
    obtain ⟨e, he⟩ := h.2 hnone
    rw [hpanic] at he
    cases he

end

/-- **When the decoder is exact.** -/
theorem decode_chunked_body_exact_iff (config : ChunkedDecodeConfig) (input : List UInt8)
    (hlen : input.length ≤ u64_max) : Exact config input ↔ Ordinary config input :=
  ⟨ordinary_of_exact hlen, exact_of_ordinary hlen⟩

theorem not_overflow_of_limit {n : ℕ} (hlimit : config.max_chunk_size + input.length ≤ u64_max)
    (hinput : chunk_bytes chunks ++ (line ++ (crlf ++ after)) = input) :
    ¬ Overflow config (chunk_data chunks).length (input.length - after.length) n := by
  have hfront := length_front_le hinput
  unfold Overflow
  omega

-- one chunk and the end
theorem one_chunk_is_exact :
    Ordinary .default [49, 13, 10, 97, 13, 10, 48, 13, 10, 13, 10] ∧
      Exact .default [49, 13, 10, 97, 13, 10, 48, 13, 10, 13, 10] := by
  have hplain : ∀ line ∈ ([[49], [48]] : List (List UInt8)), Plain line := by
    intro line hline
    simp only [mem_cons, not_mem_nil, or_false] at hline
    rcases hline with rfl | rfl <;> exact ⟨by decide, by simp [is_hex]⟩
  let f : Framing chunk_size_line := ⟨[⟨[49], [97], isLine_of_notMem (by decide), by decide,
    by decide⟩], [48], [13, 10], isLine_of_notMem (by decide), by decide⟩
  let g : Framing parsed_size := ⟨[⟨[49], [97], isLine_of_notMem (by decide), by decide +kernel,
    by decide⟩], [48], [13, 10], isLine_of_notMem (by decide), by decide +kernel⟩
  have hordinary : Ordinary .default [49, 13, 10, 97, 13, 10, 48, 13, 10, 13, 10] := by
    refine ⟨?_, ?_, ?_, ?_⟩
    · intro f' hf' _
      rw [bytes_injective (show f'.bytes = f.bytes from hf')]
      exact hplain
    · intro g' hg' _
      rw [bytes_injective (show g'.bytes = g.bytes from hg')]
      exact hplain
    · intro chunks hchunks _
      exact bytes_ne_chunk_bytes sizes_agree (show f.bytes = _ from hchunks.symm)
    · intro chunks line after n hinput _ _ _
      exact not_overflow_of_limit (by decide) hinput
  exact ⟨hordinary, (decode_chunked_body_exact_iff _ _ (by decide)).mpr hordinary⟩

/-- A body that ends behind its first chunk is returned, and one with an extension is refused. -/
theorem cut_body_is_returned :
    (decode_chunked_body_bounded [49, 13, 10, 97, 13, 10] .default = .ok [97] ∧
      ∀ data, ¬ Complete .default [49, 13, 10, 97, 13, 10] data) ∧
    Complete .default [49, 59, 120, 13, 10, 97, 13, 10, 48, 13, 10, 13, 10] [97] ∧
      decode_chunked_body_bounded [49, 59, 120, 13, 10, 97, 13, 10, 48, 13, 10, 13, 10] .default =
        .err (.MalformedChunkSize "1;x".toList) := by
  refine ⟨⟨by decide +kernel, ?_⟩, ?_, by decide +kernel⟩
  · rintro data ⟨f, hf, -⟩
    let chunk : Chunk parsed_size :=
      ⟨[49], [97], isLine_of_notMem (by decide), by decide +kernel, by decide⟩
    exact bytes_ne_chunk_bytes sizes_agree (show f.bytes = chunk_bytes [chunk] from hf)
  · refine ⟨⟨[⟨[49, 59, 120], [97], isLine_of_notMem (by decide), by decide, by decide⟩], [48],
      [13, 10], isLine_of_notMem (by decide), by decide⟩, rfl, ⟨?_, by decide⟩, rfl⟩
    intro chunk hchunk
    rw [mem_singleton.mp hchunk]
    decide

end Exact

end HybridCache.SignedRequest
