/-
The whole-buffer aws-chunked decoder, and the encoder of the tests (`aws_chunked_decoder.rs`).

The decoder goes through the body from one CRLF to the next. It accepts exactly the framings
(`Lib.Chunked`) whose tail is a trailer section that it can parse, with nothing after it. In the
model the part of the body that has not been read stands for the position.
-/
import HybridCache.Lib.Chunked
import HybridCache.Lib.Outcome
import HybridCache.Lib.Text
import HybridCache.Lib.Utf8

namespace HybridCache.AwsChunked

open Lib List

def max_trailer_section_bytes : ℕ := 8192

inductive AwsChunkedError where
  | InvalidChunkHeader (message : String)
  | InvalidChunkSize (message : String)
  | UnexpectedEof
  | LengthMismatch (expected actual : ℕ)
  | TrailerTooLarge (size max : ℕ)
deriving DecidableEq, Repr

abbrev Trailer := List Char × List Char

structure AwsChunkedDecodeResult where
  data : List UInt8
  trailers : List Trailer
deriving DecidableEq, Repr

def parse_chunk_size (header : List Char) : Except AwsChunkedError ℕ :=
  let size_str := trim (header.takeWhile fun c => c ≠ ';')
  if size_str = [] then .error (.InvalidChunkSize "Empty chunk size")
  else
    match parse_hex u64_max size_str with
    | .ok size => .ok size
    | .error e =>
      let text := String.ofList size_str
      let kind := e.to_string
      .error (.InvalidChunkSize s!"Invalid hex value '{text}': {kind}")

def line_str (line : List UInt8) : Except AwsChunkedError (List Char) :=
  match from_utf8 line with
  | .ok text => .ok text
  | .error e => .error (.InvalidChunkHeader e.to_string)

def header_size (line : List UInt8) : Except AwsChunkedError ℕ :=
  (line_str line).bind parse_chunk_size

def parse_trailer (line : List UInt8) : Except AwsChunkedError Trailer :=
  (line_str line).bind fun text =>
    match split_once ':' text with
    | some (key, value) => .ok (trim key, trim value)
    | none =>
      let line := String.ofList text
      .error (.InvalidChunkHeader s!"Trailer line missing colon separator: '{line}'")

/-- `parse_trailers`, of what is left of the body after `consumed` bytes of the section: the
trailers, and what is left after them. -/
def parse_trailers (consumed : ℕ) (rest : List UInt8) :
    Except AwsChunkedError (List Trailer × List UInt8) :=
  if crlf <+: rest then .ok ([], rest.drop 2)
  else
    match h : find_crlf rest with
    | none => .error .UnexpectedEof
    | some line_end =>
      let trailer_bytes_consumed := consumed + line_end + 2
      if trailer_bytes_consumed > max_trailer_section_bytes then
        .error (.TrailerTooLarge trailer_bytes_consumed max_trailer_section_bytes)
      else
        (parse_trailer (rest.take line_end)).bind fun trailer =>
          (parse_trailers trailer_bytes_consumed (rest.drop (line_end + 2))).map
            fun (trailers, left) => (trailer :: trailers, left)
termination_by rest.length
decreasing_by
  have hlt := find_crlf_lt h
  rw [length_drop]
  omega

/-- The loop of `decode_aws_chunked` over what is left of a body of `len` bytes. -/
def decode_chunks (len : ℕ) (rest result : List UInt8) :
    Except AwsChunkedError AwsChunkedDecodeResult :=
  match find_crlf rest with
  | none => .error .UnexpectedEof
  | some header_end =>
    (header_size (rest.take header_end)).bind fun chunk_size =>
      let unread := rest.drop (header_end + 2)
      if chunk_size = 0 then
        (parse_trailers 0 unread).bind fun (trailers, left) =>
          if left ≠ [] then .error (.LengthMismatch (len - left.length) len)
          else .ok ⟨result, trailers⟩
      -- a sum that overflows is past the end of the body as well
      else if chunk_size > unread.length then .error .UnexpectedEof
      else
        let after := unread.drop chunk_size
        if after.length < 2 then .error .UnexpectedEof
        else if after.take 2 ≠ crlf then
          .error (.InvalidChunkHeader "Missing CRLF after chunk data")
        else decode_chunks len (after.drop 2) (result ++ unread.take chunk_size)
termination_by rest.length
decreasing_by
  show (((rest.drop (header_end + 2)).drop chunk_size).drop 2).length < rest.length
  have hafter : ¬ ((rest.drop (header_end + 2)).drop chunk_size).length < 2 := by assumption
  simp only [length_drop] at hafter ⊢
  omega

def decode_aws_chunked (body : List UInt8) : Except AwsChunkedError AwsChunkedDecodeResult :=
  decode_chunks body.length body []

/-! ## What is accepted -/

def size_of (line : List UInt8) : Option ℕ :=
  (header_size line).toOption

theorem size_of_eq_some {line : List UInt8} {size : ℕ} :
    size_of line = some size ↔ header_size line = .ok size := by
  unfold size_of
  cases header_size line with
  | error e | ok n => simp [Except.toOption]

section Accepted

variable {len : ℕ} {line rest result : List UInt8}

theorem decode_chunks_last (h : IsLine line) (hsize : header_size line = .ok 0) :
    decode_chunks len (line ++ (crlf ++ rest)) result =
      (parse_trailers 0 rest).bind fun (trailers, left) =>
        if left ≠ [] then .error (.LengthMismatch (len - left.length) len)
        else .ok ⟨result, trailers⟩ := by
  obtain ⟨htake, hdrop⟩ := take_drop_line
  rw [decode_chunks, find_crlf_line h]
  dsimp only
  rw [htake, hdrop, hsize]
  rfl

theorem decode_chunks_chunk (h : IsLine line) {payload : List UInt8}
    (hsize : header_size line = .ok payload.length) (hne : payload ≠ []) :
    decode_chunks len (line ++ (crlf ++ (payload ++ (crlf ++ rest)))) result =
      decode_chunks len rest (result ++ payload) := by
  obtain ⟨htake, hdrop⟩ := take_drop_line
  rw [decode_chunks, find_crlf_line h]
  dsimp only
  rw [htake, hdrop, hsize]
  show (if payload.length = 0 then _ else _) = _
  rw [if_neg (by simpa using hne), if_neg (by simp), drop_left, take_left,
    if_neg (by simp [crlf]), if_neg (by simp [crlf])]
  rfl

/-- On a framed body the decoder collects the data of the frames, then parses the tail. -/
theorem decode_chunks_framing (f : Framing size_of) :
    decode_chunks len f.bytes result =
      (parse_trailers 0 f.tail).bind fun (trailers, left) =>
        if left ≠ [] then .error (.LengthMismatch (len - left.length) len)
        else .ok ⟨result ++ f.data, trailers⟩ := by
  induction f using Framing.induction_on generalizing result with
  | last f hnil =>
    rw [Framing.bytes_of_nil hnil, decode_chunks_last f.is_line (size_of_eq_some.mp f.size),
      Framing.data_of_nil hnil, append_nil]
  | cons chunk f ih =>
    rw [Framing.bytes_cons, decode_chunks_chunk chunk.is_line (size_of_eq_some.mp chunk.size)
      chunk.nonempty, ih, Framing.data_cons, append_assoc]
    rfl

variable {r : AwsChunkedDecodeResult}

/-- What the decoder accepts is framed. -/
theorem framing_of_decode_chunks (h : decode_chunks len rest result = .ok r) :
    ∃ f : Framing size_of, f.bytes = rest := by
  induction hn : rest.length using Nat.strongRecOn generalizing rest result with
  | _ n ih =>
    rw [decode_chunks] at h
    cases hfind : find_crlf rest with
    | none =>
      rw [hfind] at h
      cases h
    | some header_end =>
      obtain ⟨line, unread, hline, rfl, rfl⟩ := find_crlf_eq_some hfind
      obtain ⟨htake, hdrop⟩ := take_drop_line
      rw [hfind] at h
      dsimp only at h
      rw [htake, hdrop] at h
      obtain ⟨chunk_size, hsize, h⟩ := except_bind_eq_ok.mp h
      split at h
      case isTrue hzero =>
        rw [hzero] at hsize
        exact ⟨⟨[], line, unread, hline, size_of_eq_some.mpr hsize⟩, rfl⟩
      case isFalse hpos =>
        split at h
        case isTrue => cases h
        case isFalse hfits =>
          split at h
          case isTrue => cases h
          case isFalse hafter =>
            split at h
            case isTrue => cases h
            case isFalse hcrlf =>
              have hpayload : (unread.take chunk_size).length = chunk_size := by
                rw [length_take]
                omega
              have hsplit : unread =
                  unread.take chunk_size ++ (crlf ++ (unread.drop chunk_size).drop 2) := by
                rw [← not_not.mp hcrlf, take_append_drop 2, take_append_drop]
              obtain ⟨f, hf⟩ := ih _ (by
                rw [← hn]
                simp only [length_append, length_drop]
                omega) h rfl
              have hne : unread.take chunk_size ≠ [] := by
                intro hnil
                rw [hnil] at hpayload
                exact hpos hpayload.symm
              refine ⟨f.cons ⟨line, unread.take chunk_size, hline, ?_, hne⟩, ?_⟩
              · rw [hpayload]
                exact size_of_eq_some.mpr hsize
              · rw [Framing.bytes_cons, hf, ← hsplit]

/-- **What the whole-buffer decoder accepts**: the framings whose tail is a trailer section with
nothing after it. -/
theorem decode_aws_chunked_eq_ok {body : List UInt8} :
    decode_aws_chunked body = .ok r ↔ ∃ f : Framing size_of, f.bytes = body ∧
      parse_trailers 0 f.tail = .ok (r.trailers, []) ∧ r.data = f.data := by
  unfold decode_aws_chunked
  constructor
  · intro h
    obtain ⟨f, rfl⟩ := framing_of_decode_chunks h
    refine ⟨f, rfl, ?_⟩
    rw [decode_chunks_framing] at h
    obtain ⟨⟨trailers, left⟩, htrailers, h⟩ := except_bind_eq_ok.mp h
    dsimp only at h
    split at h
    case isTrue => cases h
    case isFalse hleft =>
      injection h with h
      rw [htrailers, ← h, not_not.mp hleft]
      exact ⟨rfl, rfl⟩
  · rintro ⟨f, rfl, htrailers, hdata⟩
    rw [decode_chunks_framing, htrailers]
    simp only [Except.bind, ne_eq, not_true_eq_false, if_false, nil_append, ← hdata]

end Accepted

/-! ## The trailer section -/

section Trailers

variable {consumed : ℕ} {line : List UInt8}

theorem not_crlf_first (h : IsLine line) (hne : line ≠ []) (rest : List UInt8) :
    ¬ crlf <+: line ++ (crlf ++ rest) := by
  rintro ⟨after, heq⟩
  have hempty := (line_unique isLine_nil h heq).1
  exact hne hempty.symm

theorem parse_trailers_end (rest : List UInt8) :
    parse_trailers consumed (crlf ++ rest) = .ok ([], rest) := by
  rw [parse_trailers, if_pos (prefix_append crlf rest)]
  rfl

theorem parse_trailers_line (h : IsLine line) (hne : line ≠ []) (rest : List UInt8) :
    parse_trailers consumed (line ++ (crlf ++ rest)) =
      if consumed + line.length + 2 > max_trailer_section_bytes then
        .error (.TrailerTooLarge (consumed + line.length + 2) max_trailer_section_bytes)
      else
        (parse_trailer line).bind fun trailer =>
          (parse_trailers (consumed + line.length + 2) rest).map
            fun (trailers, left) => (trailer :: trailers, left) := by
  obtain ⟨htake, hdrop⟩ := take_drop_line
  rw [parse_trailers, if_neg (not_crlf_first h hne rest)]
  split
  case h_1 hnone =>
    rw [find_crlf_line h] at hnone
    cases hnone
  case h_2 line_end hsome =>
    rw [find_crlf_line h] at hsome
    cases hsome
    rw [htake, hdrop]

end Trailers

/-! ## The encoder -/

def placeholder_sig : List Char :=
  ";chunk-signature=".toList ++ List.replicate 64 '0'

def encode_header (current_chunk_size : ℕ) : List UInt8 :=
  to_utf8 (Nat.toDigits 16 current_chunk_size ++ placeholder_sig)

def encode_chunks (chunk_size : ℕ) (data : List UInt8) : List UInt8 :=
  if data = [] ∨ chunk_size = 0 then []
  else
    let chunk_data := data.take chunk_size
    encode_header chunk_data.length ++ (crlf ++ (chunk_data ++ (crlf ++
      encode_chunks chunk_size (data.drop chunk_size))))
termination_by data.length
decreasing_by
  have hne : data ≠ [] := fun h => by simp_all
  have hlen := length_pos_iff.mpr hne
  rw [length_drop]
  omega

def encode_trailer (trailer : Trailer) : List UInt8 :=
  to_utf8 (trailer.1 ++ ':' :: trailer.2) ++ crlf

def encode_trailers (trailers : List Trailer) : List UInt8 :=
  trailers.flatMap encode_trailer

def encode_aws_chunked_with_trailers (data : List UInt8) (chunk_size : UInt64)
    (trailers : List Trailer) : Outcome Empty (List UInt8) :=
  if chunk_size = 0 then .panic
  else
    .ok (encode_chunks chunk_size.toNat data ++ (to_utf8 ('0' :: placeholder_sig) ++ (crlf ++
      (encode_trailers trailers ++ crlf))))

/-- A trailer that can be written on a line and read back: no colon in the name, no end of a line,
and no white space around the name and the value. -/
structure PlainTrailer (trailer : Trailer) : Prop where
  colon : ':' ∉ trailer.1
  one_line : ∀ c ∈ trailer.1 ++ trailer.2, c ≠ '\r' ∧ c ≠ '\n'
  name_head : ∀ c ∈ trailer.1.head?, is_whitespace c = false
  name_last : ∀ c ∈ trailer.1.getLast?, is_whitespace c = false
  value_head : ∀ c ∈ trailer.2.head?, is_whitespace c = false
  value_last : ∀ c ∈ trailer.2.getLast?, is_whitespace c = false

/-! ## The round trip -/

section RoundTrip

theorem isLine_to_utf8 {s : List Char} (h : '\r' ∉ s) : IsLine (to_utf8 s) := by
  apply isLine_of_notMem
  intro hmem
  exact h (mem_of_mem_to_utf8 hmem (by decide))

variable {n chunk_size : ℕ} {trailer : Trailer}

theorem digit_plain {c : Char} (h : c ∈ Nat.toDigits 16 n) :
    c ≠ ';' ∧ c ≠ '\r' ∧ is_whitespace c = false := by
  obtain ⟨digit, hlt, rfl⟩ := mem_toDigits (by decide) h
  clear h
  revert digit
  decide

theorem header_size_encode_header (h : n ≤ u64_max) : header_size (encode_header n) = .ok n := by
  have hbefore : (Nat.toDigits 16 n ++ placeholder_sig).takeWhile (fun c => c ≠ ';') =
      Nat.toDigits 16 n := by
    rw [takeWhile_append_of_pos]
    · exact append_nil _
    · intro c hc
      exact decide_eq_true (digit_plain hc).1
  have htrim : trim (Nat.toDigits 16 n) = Nat.toDigits 16 n :=
    trim_of_no_space fun _ hc => (digit_plain hc).2.2
  rw [header_size, line_str, encode_header, from_utf8_to_utf8]
  show parse_chunk_size _ = _
  unfold parse_chunk_size
  rw [hbefore, htrim, if_neg Nat.toDigits_ne_nil, parse_hex_toDigits h]

theorem isLine_encode_header : IsLine (encode_header n) := by
  apply isLine_to_utf8
  rw [mem_append, not_or]
  exact ⟨fun h => (digit_plain h).2.1 rfl, by decide⟩

theorem encode_chunks_of_ne_nil {data : List UInt8} (hpos : chunk_size ≠ 0) (hne : data ≠ []) :
    encode_chunks chunk_size data = encode_header (data.take chunk_size).length ++ (crlf ++
      (data.take chunk_size ++ (crlf ++ encode_chunks chunk_size (data.drop chunk_size)))) := by
  rw [encode_chunks, if_neg (not_or.mpr ⟨hne, hpos⟩)]

/-- What the encoder writes is framed, with the data and the tail that it was given. -/
theorem encode_chunks_framing (hpos : chunk_size ≠ 0) (hmax : chunk_size ≤ u64_max)
    (data tail : List UInt8) :
    ∃ f : Framing size_of, f.tail = tail ∧ f.data = data ∧
      f.bytes = encode_chunks chunk_size data ++
        (to_utf8 ('0' :: placeholder_sig) ++ (crlf ++ tail)) := by
  induction hn : data.length using Nat.strongRecOn generalizing data with
  | _ n ih =>
    by_cases hnil : data = []
    · refine ⟨⟨[], to_utf8 ('0' :: placeholder_sig), tail, isLine_to_utf8 (by decide), ?_⟩, rfl,
        hnil.symm, ?_⟩
      · exact size_of_eq_some.mpr (@header_size_encode_header 0 (Nat.zero_le _))
      · rw [encode_chunks, if_pos (Or.inl hnil)]
        rfl
    · have hlen := length_pos_iff.mpr hnil
      obtain ⟨f, htail, hdata, hbytes⟩ := ih (data.drop chunk_size).length
        (by rw [length_drop]; omega) _ rfl
      have htake : (data.take chunk_size).length ≤ u64_max := (length_take_le _ _).trans hmax
      have hne : data.take chunk_size ≠ [] := by
        rw [Ne, take_eq_nil_iff]
        tauto
      refine ⟨f.cons ⟨encode_header (data.take chunk_size).length, data.take chunk_size,
        isLine_encode_header, size_of_eq_some.mpr (header_size_encode_header htake), hne⟩,
        htail, ?_, ?_⟩
      · rw [Framing.data_cons, hdata]
        exact take_append_drop chunk_size data
      · rw [Framing.bytes_cons, hbytes, encode_chunks_of_ne_nil hpos hnil]
        simp only [append_assoc]

theorem parse_trailer_encode (h : PlainTrailer trailer) :
    parse_trailer (to_utf8 (trailer.1 ++ ':' :: trailer.2)) = .ok trailer := by
  rw [parse_trailer, line_str, from_utf8_to_utf8]
  simp only [Except.bind, split_once_append h.colon, trim_eq_self h.name_head h.name_last,
    trim_eq_self h.value_head h.value_last]

theorem trailer_line_plain (h : PlainTrailer trailer) : '\r' ∉ trailer.1 ++ ':' :: trailer.2 := by
  intro hmem
  rw [mem_append, mem_cons] at hmem
  rcases hmem with hmem | heq | hmem
  · exact (h.one_line _ (mem_append_left _ hmem)).1 rfl
  · exact absurd heq (by decide)
  · exact (h.one_line _ (mem_append_right _ hmem)).1 rfl

/-- The trailers that were encoded are read back while they fit the limit of the section. -/
theorem parse_trailers_encode {consumed : ℕ} {trailers : List Trailer}
    (hplain : ∀ trailer ∈ trailers, PlainTrailer trailer)
    (hfits : consumed + (encode_trailers trailers).length ≤ max_trailer_section_bytes) :
    parse_trailers consumed (encode_trailers trailers ++ crlf) = .ok (trailers, []) := by
  induction trailers generalizing consumed with
  | nil => exact parse_trailers_end []
  | cons trailer trailers ih =>
    have htrailer := hplain trailer mem_cons_self
    have hline := isLine_to_utf8 (trailer_line_plain htrailer)
    have hne : to_utf8 (trailer.1 ++ ':' :: trailer.2) ≠ [] := by
      rw [to_utf8_append, to_utf8_cons, encode_ascii (by decide)]
      simp
    have hsplit : encode_trailers (trailer :: trailers) =
        to_utf8 (trailer.1 ++ ':' :: trailer.2) ++ (crlf ++ encode_trailers trailers) := by
      rw [encode_trailers, flatMap_cons, encode_trailer, append_assoc]
      rfl
    have hlength := congrArg List.length hsplit
    simp only [length_append, crlf, length_cons, length_nil] at hlength
    rw [hsplit, append_assoc, append_assoc, parse_trailers_line hline hne,
      if_neg (by omega), parse_trailer_encode htrailer]
    rw [ih (fun t ht => hplain t (mem_cons_of_mem _ ht)) (by omega)]
    rfl

/-- **What is encoded is decoded.** -/
theorem decode_encode_aws_chunked (data : List UInt8) (chunk_size : UInt64)
    (trailers : List Trailer) (hpos : chunk_size ≠ 0)
    (hplain : ∀ trailer ∈ trailers, PlainTrailer trailer)
    (hfits : (encode_trailers trailers).length ≤ max_trailer_section_bytes) :
    ∃ body, encode_aws_chunked_with_trailers data chunk_size trailers = .ok body ∧
      decode_aws_chunked body = .ok ⟨data, trailers⟩ := by
  have hne : chunk_size.toNat ≠ 0 := by
    intro hzero
    exact hpos (UInt64.toNat_inj.mp hzero)
  have hmax : chunk_size.toNat ≤ u64_max := Nat.le_of_lt_succ chunk_size.toNat_lt
  obtain ⟨f, htail, hdata, hbytes⟩ :=
    encode_chunks_framing hne hmax data (encode_trailers trailers ++ crlf)
  refine ⟨f.bytes, ?_, ?_⟩
  · rw [encode_aws_chunked_with_trailers, if_neg hpos, hbytes]
  · rw [decode_aws_chunked_eq_ok]
    refine ⟨f, rfl, ?_, hdata.symm⟩
    rw [htail]
    exact parse_trailers_encode hplain (by rw [Nat.zero_add]; exact hfits)

-- a payload that looks like the end of the chunks, in two chunks
theorem decode_encode_crlf_payload :
    ∃ body,
      encode_aws_chunked_with_trailers [48, 13, 10, 13, 10] 3 [("x-sum".toList, "a b:c".toList)] =
        .ok body ∧
      decode_aws_chunked body = .ok ⟨[48, 13, 10, 13, 10], [("x-sum".toList, "a b:c".toList)]⟩ := by
  refine decode_encode_aws_chunked _ _ _ (by decide) ?_ (by decide +kernel)
  intro trailer htrailer
  rw [mem_singleton] at htrailer
  rw [htrailer]
  constructor <;> simp [is_whitespace]

end RoundTrip

end HybridCache.AwsChunked
