/-
The response to a signed request (`read_response`, `extract_final_response`,
`has_complete_response_from_pos`, `parse_http_response` and `parse_status_code` in
`signed_request_proxy.rs`): the functions as the code has them, the messages of HTTP/1.1 that they
are meant for, and what the functions make of the head of such a message.

The `http` crate is a parameter with what its documentation says of it: a code from 100 to 999 is
accepted, and so is a header that has a token for a name and visible characters for a value.
-/
import HybridCache.SignedRequest.ChunkedBody

namespace HybridCache.SignedRequest

open Lib List Option

/-! ## The functions -/

/-- `str::to_lowercase`. No letter beyond ASCII has a lowercase form in the names that are
compared here. -/
def to_lowercase (s : List Char) : List Char :=
  s.map Char.toLower

def is_tchar (b : UInt8) : Bool :=
  (48 ≤ b ∧ b ≤ 57) ∨ (65 ≤ b ∧ b ≤ 90) ∨ (97 ≤ b ∧ b ≤ 122) ∨
    b ∈ ([33, 35, 36, 37, 38, 39, 42, 43, 45, 46, 94, 95, 96, 124, 126] : List UInt8)

/-- The `http` crate: `StatusCode::from_u16`, and `HeaderName` and `HeaderValue` from texts, which
give the name in lowercase and the bytes of the value, or the text of an error. -/
structure HttpCrate where
  from_u16 : ℕ → Except String ℕ
  header : List Char → List Char → Except String (List Char × List UInt8)
  from_u16_ok : ∀ n, 100 ≤ n → n < 1000 → from_u16 n = .ok n
  header_ok : ∀ name value : List UInt8, name ≠ [] → name.length < 65536 →
    (∀ b ∈ name, is_tchar b = true) → (∀ b ∈ value, 32 ≤ b ∧ b < 127) →
      header (ascii name) (ascii value) = .ok (to_lowercase (ascii name), value)

structure Response where
  status : ℕ
  headers : List (List Char × List UInt8)
  body : List UInt8
deriving DecidableEq, Repr

def blank : List UInt8 := [13, 10, 13, 10]

def find_header_end : List UInt8 → Option ℕ
  | [] => none
  | b :: rest => if blank <+: b :: rest then some 0 else (find_header_end rest).map (· + 1)

def header_lines (bytes : List UInt8) (header_end : ℕ) : List (List Char) :=
  lines (from_utf8_lossy (bytes.take header_end))

section Functions

variable (crate : HttpCrate)

def parse_status_code (status_line : List Char) : Except String ℕ :=
  match split_whitespace status_line with
  | _ :: code_str :: _ =>
    match parse_decimal 65535 code_str with
    | .error e =>
      .error ("Invalid status code " ++ String.ofList code_str ++ ": " ++ e.to_string)
    | .ok code =>
      (crate.from_u16 code).mapError fun e =>
        "Invalid status code " ++ toString code ++ ": " ++ e
  | _ => .error ("Invalid status line: " ++ String.ofList status_line)

/-- What a line of the head says about completeness, if it says anything: with a content length, as
many bytes have arrived behind the head; with chunks, the bytes end like a last chunk. -/
def line_verdict (bytes : List UInt8) (current_body_length : ℕ) (line : List Char) : Option Bool :=
  let by_length :=
    if "content-length:".toList <+: to_lowercase line then
      ((line.splitOn ':')[1]?).bind fun length_str =>
        (parse_unsigned u64_max (trim length_str)).map fun content_length =>
          decide (content_length ≤ current_body_length)
    else none
  let by_chunks :=
    if "transfer-encoding:".toList <+: to_lowercase line ∧ "chunked".toList <:+: line then
      some (decide (([48] ++ blank : List UInt8) <:+ bytes ∨ ([48] ++ blank ++ crlf) <:+ bytes))
    else none
  by_length.or by_chunks

/-- `has_complete_response_from_pos`, of the bytes from that position on. -/
def has_complete_response (bytes : List UInt8) : Bool :=
  match find_header_end bytes with
  | none => false
  | some header_end =>
    ((header_lines bytes header_end).findSome?
      (line_verdict bytes (bytes.length - (header_end + 4)))).getD true

/-- The loop of `extract_final_response`, of the bytes from its position on. -/
def extract_final_response (bytes : List UInt8) : Except String (Option (List UInt8)) :=
  if bytes = [] then .ok none
  else
    match find_header_end bytes with
    | none => .ok none
    | some header_end =>
      match header_lines bytes header_end with
      | [] => .error "Invalid HTTP response: no status line"
      | status_line :: _ =>
        match parse_status_code crate status_line with
        | .error e => .error e
        | .ok status_code =>
          if 100 ≤ status_code ∧ status_code < 200 then
            extract_final_response (bytes.drop (header_end + 4))
          else if has_complete_response bytes then .ok (some bytes)
          else .ok none
termination_by bytes.length
decreasing_by
  have hne : bytes ≠ [] := by assumption
  have hpos := length_pos_iff.mpr hne
  rw [length_drop]
  omega

structure Read where
  bytes : List UInt8
  nonempty : bytes ≠ []
  length_le : bytes.length ≤ 8192

/-- What comes after the reads: the end of the stream, an error, or nothing. -/
inductive Ending where
  | closed
  | failed (e : String)
  | waiting

def read_limit : ℕ := 100 * 1024 * 1024

/-- The loop of `read_response`; it has no result as long as it waits for the next read. -/
def read_from (all_bytes : List UInt8) : List Read → Ending →
    Option (Except String (List UInt8))
  | [], .closed => some (.ok all_bytes)
  | [], .failed e => some (.error ("Failed to read response: " ++ e))
  | [], .waiting => none
  | buffer :: reads, ending =>
    let all_bytes := all_bytes ++ buffer.bytes
    match if 4 ≤ all_bytes.length then extract_final_response crate all_bytes else .ok none with
    | .error e => some (.error e)
    | .ok (some final_response) => some (.ok final_response)
    | .ok none =>
      if all_bytes.length > read_limit then some (.ok all_bytes)
      else read_from all_bytes reads ending

def read_response (reads : List Read) (ending : Ending) : Option (Except String (List UInt8)) :=
  read_from crate [] reads ending

def ChunkedDecodeError.to_string : ChunkedDecodeError → String
  | .ChunkTooLarge declared max =>
    "Chunk too large: declared " ++ toString declared ++ " bytes, max " ++ toString max ++ " bytes"
  | .BodyTooLarge accumulated max =>
    "Body too large: accumulated " ++ toString accumulated ++ " bytes, max " ++ toString max ++
      " bytes"
  | .TruncatedBeforeTerminator =>
    "Truncated before terminator: read cap reached before zero-size chunk"
  | .MalformedChunkSize s => "Malformed chunk size: '" ++ String.ofList s ++ "'"

def decode_chunked_body (chunked_data : List UInt8) : Outcome String (List UInt8) :=
  (decode_chunked_body_bounded chunked_data .default).map_err fun e =>
    "Chunked decode error: " ++ e.to_string

def header_of (line : List Char) : Option (List Char × List Char) :=
  (split_once ':' line).map fun (name, value) => (trim name, trim value)

def says_chunked (header : List Char × List Char) : Bool :=
  to_lowercase header.1 = "transfer-encoding".toList ∧ "chunked".toList <:+: header.2

def note_length (content_length : Option ℕ) (header : List Char × List Char) : Option ℕ :=
  if says_chunked header then content_length
  else if to_lowercase header.1 = "content-length".toList then parse_unsigned u64_max header.2
  else content_length

def body_of (headers : List (List Char × List Char)) (raw_body : List UInt8) :
    Outcome String (List UInt8) :=
  if raw_body = [] then .ok []
  else if headers.any says_chunked then decode_chunked_body raw_body
  else
    match headers.foldl note_length none with
    | some length => .ok (raw_body.take (min length raw_body.length))
    | none => .ok raw_body

def build_headers (headers : List (List Char × List Char)) (body : List UInt8) :
    Except String (List (List Char × List UInt8)) :=
  let kept := headers.filter fun header => says_chunked header = false
  let all :=
    if headers.any says_chunked then
      kept ++ [("content-length".toList, Nat.toDigits 10 body.length)]
    else kept
  (all.mapM fun header => crate.header header.1 header.2).mapError
    ("Failed to build response: " ++ ·)

def parse_http_response (bytes : List UInt8) : Outcome String Response :=
  match find_header_end bytes with
  | none => .err "Invalid HTTP response: no header end found"
  | some header_end =>
    match header_lines bytes header_end with
    | [] => .err "Invalid HTTP response: no status line"
    | status_line :: rest =>
      match parse_status_code crate status_line with
      | .error e => .err e
      | .ok status =>
        let headers := rest.filterMap header_of
        (body_of headers (bytes.drop (header_end + 4))).bind fun body =>
          match build_headers crate headers body with
          | .error e => .err e
          | .ok built => .ok ⟨status, built, body⟩

def receive (reads : List Read) (ending : Ending) : Option (Outcome String Response) :=
  (read_response crate reads ending).map fun
    | .error e => .err e
    | .ok bytes => parse_http_response crate bytes

end Functions

/-! ## Messages -/

/-- A byte of a value or of a reason: a tab, a blank, or anything else that is no control
character. -/
def is_text (b : UInt8) : Bool :=
  b = 9 ∨ (32 ≤ b ∧ b ≠ 127)

/-- A header field, with the blanks around its value. -/
structure Field where
  name : List UInt8
  before : List UInt8
  value : List UInt8
  after : List UInt8
  name_nonempty : name ≠ []
  name_token : ∀ b ∈ name, is_tchar b = true
  blanks : ∀ b ∈ before ++ after, b = 32 ∨ b = 9
  value_text : ∀ b ∈ value, is_text b = true
  value_trimmed : ∀ b, b ∈ value.head? ∨ b ∈ value.getLast? → b ≠ 32 ∧ b ≠ 9

def Field.line (field : Field) : List UInt8 :=
  field.name ++ 58 :: (field.before ++ (field.value ++ field.after))

def Field.lower_name (field : Field) : List Char :=
  to_lowercase (ascii field.name)

structure Head where
  code : ℕ
  reason : List UInt8
  fields : List Field
  code_ge : 100 ≤ code
  code_lt : code < 1000
  reason_text : ∀ b ∈ reason, is_text b = true

def joined : List (List UInt8) → List UInt8
  | [] => []
  | [line] => line
  | line :: line' :: rest => line ++ (crlf ++ joined (line' :: rest))

def Head.status_line (head : Head) : List UInt8 :=
  to_utf8 ("HTTP/1.1 ".toList ++ Nat.toDigits 10 head.code) ++ 32 :: head.reason

def Head.lines (head : Head) : List (List UInt8) :=
  head.status_line :: head.fields.map Field.line

def Head.bytes (head : Head) : List UInt8 :=
  joined head.lines ++ blank

/-! ## The end of a head -/

section HeaderEnd

variable {line p q : List UInt8} {ls : List (List UInt8)} {i : ℕ}

/-- Lines that are not empty and have no carriage return and no line feed in them. -/
def PlainLines (ls : List (List UInt8)) : Prop :=
  ∀ line ∈ ls, line ≠ [] ∧ 13 ∉ line ∧ 10 ∉ line

/-- Where there is no carriage return, there is no blank line. -/
theorem find_header_end_skip (h : 13 ∉ line) (rest : List UInt8) :
    find_header_end (line ++ rest) = (find_header_end rest).map (· + line.length) := by
  induction line with
  | nil => simp
  | cons b line ih =>
    rw [mem_cons, not_or] at h
    have hfront : ¬ blank <+: b :: (line ++ rest) := by
      intro hfront
      exact h.1 (cons_prefix_cons.mp hfront).1
    rw [cons_append, find_header_end, if_neg hfront, ih h.2, Option.map_map]
    rfl

theorem joined_cons_cons (line' : List UInt8) (rest : List (List UInt8)) :
    joined (line :: line' :: rest) = line ++ (crlf ++ joined (line' :: rest)) := rfl

theorem joined_eq_cons (hls : PlainLines (line :: ls)) :
    ∃ b rest, joined (line :: ls) = b :: rest ∧ b ≠ 13 := by
  obtain ⟨hne, hcr, -⟩ := hls line mem_cons_self
  obtain ⟨b, rest, rfl⟩ := exists_cons_of_ne_nil hne
  have hb : b ≠ 13 := fun heq => hcr (heq ▸ mem_cons_self)
  cases ls with
  | nil => exact ⟨b, rest, rfl, hb⟩
  | cons line' ls => exact ⟨b, rest ++ (crlf ++ joined (line' :: ls)), rfl, hb⟩

theorem find_header_end_crlf {b : UInt8} (hb : b ≠ 13) (rest : List UInt8) :
    find_header_end (crlf ++ b :: rest) = (find_header_end (b :: rest)).map (· + 2) := by
  have hreturn : ¬ blank <+: 13 :: 10 :: b :: rest := by
    simp [blank, cons_prefix_cons, hb.symm]
  have hfeed : ¬ blank <+: 10 :: b :: rest := by
    simp [blank, cons_prefix_cons]
  show find_header_end (13 :: 10 :: b :: rest) = _
  rw [find_header_end, if_neg hreturn, find_header_end, if_neg hfeed, Option.map_map]
  rfl

/-- The first blank line is the one behind the last line. -/
theorem find_header_end_joined (hls : PlainLines ls) (hne : ls ≠ []) (rest : List UInt8) :
    find_header_end (joined ls ++ (blank ++ rest)) = some (joined ls).length := by
  induction ls with
  | nil => exact absurd rfl hne
  | cons line ls ih =>
    have hline := hls line mem_cons_self
    cases ls with
    | nil =>
      have hblank : find_header_end (blank ++ rest) = some 0 := by
        show find_header_end (13 :: ([10, 13, 10] ++ rest)) = _
        rw [find_header_end, if_pos (show blank <+: 13 :: ([10, 13, 10] ++ rest) from ⟨rest, rfl⟩)]
      rw [joined, find_header_end_skip hline.2.1, hblank, map_some, Nat.zero_add]
    | cons line' ls =>
      have htail : PlainLines (line' :: ls) := fun l hl => hls l (mem_cons_of_mem line hl)
      have hrest := ih htail (by simp)
      obtain ⟨b, t, hjoined, hb⟩ := joined_eq_cons htail
      rw [hjoined, cons_append] at hrest
      rw [joined_cons_cons, append_assoc, append_assoc, hjoined, cons_append,
        find_header_end_skip hline.2.1, find_header_end_crlf hb, hrest, map_some,
        map_some, length_append, length_append]
      exact congrArg some (by simp [crlf]; omega)

theorem find_header_end_le (h : find_header_end p = some i) : i + 4 ≤ p.length := by
  induction p generalizing i with
  | nil => cases h
  | cons b p ih =>
    rw [find_header_end] at h
    split at h
    · rename_i hfront
      have hlength := hfront.length_le
      rw [← Option.some.inj h]
      exact hlength
    · obtain ⟨j, hj, rfl⟩ := map_eq_some_iff.mp h
      have hle := ih hj
      rw [length_cons]
      omega

/-- A blank line that was found stays the first one, whatever arrives after it. -/
theorem find_header_end_append (h : find_header_end p = some i) (q : List UInt8) :
    find_header_end (p ++ q) = some i := by
  induction p generalizing i with
  | nil => cases h
  | cons b p ih =>
    have hlength := find_header_end_le h
    have hfront : blank <+: b :: (p ++ q) ↔ blank <+: b :: p := by
      constructor
      · intro hfront
        exact prefix_of_prefix_length_le hfront (prefix_append (b :: p) q)
          (Nat.le_trans (Nat.le_add_left 4 i) hlength)
      · intro hfront
        exact hfront.trans (prefix_append (b :: p) q)
    rw [find_header_end] at h
    rw [cons_append, find_header_end]
    split at h
    · rename_i hblank
      rw [if_pos (hfront.mpr hblank), h]
    · rename_i hblank
      obtain ⟨j, hj, rfl⟩ := map_eq_some_iff.mp h
      rw [if_neg (mt hfront.mp hblank), ih hj, map_some]

end HeaderEnd

/-! ## The text of a head -/

section HeadText

variable {ls : List (List UInt8)} {line : List UInt8} {b : UInt8}

theorem from_utf8_lossy_ne_nil (h : line ≠ []) : from_utf8_lossy line ≠ [] := by
  obtain ⟨b, rest, rfl⟩ := exists_cons_of_ne_nil h
  simp [from_utf8_lossy, utf8_scan]

theorem feed_not_mem_lossy (h : 10 ∉ line) : '\n' ∉ from_utf8_lossy line :=
  fun hmem => h (mem_of_mem_from_utf8_lossy hmem (by decide))

/-- The text of joined lines has the texts of the lines as its lines. -/
theorem lines_lossy_joined (hls : PlainLines ls) (hne : ls ≠ []) :
    lines (from_utf8_lossy (joined ls)) = ls.map from_utf8_lossy := by
  induction ls with
  | nil => exact absurd rfl hne
  | cons line ls ih =>
    obtain ⟨hnonempty, -, hfeed⟩ := hls line mem_cons_self
    cases ls with
    | nil => exact lines_last (feed_not_mem_lossy hfeed) (from_utf8_lossy_ne_nil hnonempty)
    | cons line' ls =>
      have hrest := ih (fun l hl => hls l (mem_cons_of_mem line hl)) (by simp)
      have hcut : from_utf8_lossy (joined (line :: line' :: ls)) =
          from_utf8_lossy line ++ '\r' :: '\n' :: from_utf8_lossy (joined (line' :: ls)) := by
        show from_utf8_lossy (line ++ 13 :: 10 :: joined (line' :: ls)) = _
        rw [from_utf8_lossy_before line (by decide),
          ← nil_append (10 :: joined (line' :: ls)), from_utf8_lossy_before [] (by decide)]
        rfl
      rw [hcut, lines_crlf (feed_not_mem_lossy hfeed), hrest]
      rfl

theorem is_text_ne (h : is_text b = true) : b ≠ 13 ∧ b ≠ 10 := by
  constructor <;> rintro rfl <;> exact absurd h (by decide)

theorem tchar_facts (h : is_tchar b = true) :
    b.toNat < 128 ∧ b ≠ 13 ∧ b ≠ 10 ∧ Char.ofNat b.toNat ≠ ':' ∧
      (Char.ofNat b.toNat).toLower ≠ ':' ∧ is_whitespace (Char.ofNat b.toNat) = false := by
  revert h
  refine forall_byte b ?_
  decide +kernel

theorem Field.line_plain (field : Field) : field.line ≠ [] ∧ 13 ∉ field.line ∧ 10 ∉ field.line := by
  have hbyte : ∀ b ∈ field.line, b ≠ 13 ∧ b ≠ 10 := by
    intro b hb
    simp only [Field.line, mem_append, mem_cons] at hb
    rcases hb with hb | rfl | hb | hb | hb
    · obtain ⟨-, hcr, hlf, -⟩ := tchar_facts (field.name_token b hb)
      exact ⟨hcr, hlf⟩
    · decide
    · rcases field.blanks b (mem_append_left _ hb) with rfl | rfl <;> decide
    · exact is_text_ne (field.value_text b hb)
    · rcases field.blanks b (mem_append_right _ hb) with rfl | rfl <;> decide
  refine ⟨by simp [Field.line], ?_, ?_⟩
  · exact fun hmem => (hbyte 13 hmem).1 rfl
  · exact fun hmem => (hbyte 10 hmem).2 rfl

variable (head : Head)

theorem Head.status_line_plain :
    head.status_line ≠ [] ∧ 13 ∉ head.status_line ∧ 10 ∉ head.status_line := by
  have hbyte : ∀ b ∈ head.status_line, b ≠ 13 ∧ b ≠ 10 := by
    intro b hb
    rcases mem_append.mp hb with hb | hb
    · have hchar : ∀ c ∈ "HTTP/1.1 ".toList ++ Nat.toDigits 10 head.code, c ≠ '\r' ∧ c ≠ '\n' := by
        refine forall_mem_append.mpr ⟨by simp, fun c hc => ?_⟩
        have hdigit := Nat.isDigit_of_mem_toDigits (by omega) (by omega) hc
        constructor <;> rintro rfl <;> exact absurd hdigit (by decide)
      constructor
      · rintro rfl
        exact (hchar _ (mem_of_mem_to_utf8 hb (by decide))).1 rfl
      · rintro rfl
        exact (hchar _ (mem_of_mem_to_utf8 hb (by decide))).2 rfl
    · rcases mem_cons.mp hb with rfl | hb
      · decide
      · exact is_text_ne (head.reason_text b hb)
  refine ⟨by simp [Head.status_line], ?_, ?_⟩
  · exact fun hmem => (hbyte 13 hmem).1 rfl
  · exact fun hmem => (hbyte 10 hmem).2 rfl

theorem Head.plainLines : PlainLines head.lines := by
  refine forall_mem_cons.mpr ⟨head.status_line_plain, forall_mem_map.mpr ?_⟩
  exact fun field _ => field.line_plain

variable (b : List UInt8)

theorem Head.find_header_end_bytes :
    find_header_end (head.bytes ++ b) = some (joined head.lines).length := by
  rw [Head.bytes, append_assoc]
  exact find_header_end_joined head.plainLines (by simp [Head.lines]) b

theorem Head.header_lines_bytes :
    header_lines (head.bytes ++ b) (joined head.lines).length =
      from_utf8_lossy head.status_line ::
        head.fields.map fun field => from_utf8_lossy field.line := by
  rw [header_lines, Head.bytes, append_assoc, take_left,
    lines_lossy_joined head.plainLines (by simp [Head.lines]), Head.lines, map_cons,
    List.map_map]
  rfl

theorem Head.length_bytes : head.bytes.length = (joined head.lines).length + 4 := by
  rw [Head.bytes, length_append]
  rfl

/-- A head that is cut short has no end. -/
theorem Head.find_header_end_cut {p : List UInt8} (hp : p <+: head.bytes) (hne : p ≠ head.bytes) :
    find_header_end p = none := by
  obtain ⟨rest, hrest⟩ := hp
  rw [eq_none_iff_forall_ne_some]
  intro i hi
  have hwhole := head.find_header_end_bytes []
  rw [append_nil, ← hrest, find_header_end_append hi] at hwhole
  have hle := find_header_end_le hi
  have hlength := head.length_bytes
  have hnil : rest = [] := by
    rw [← length_eq_zero_iff]
    rw [← hrest, length_append, ← Option.some.inj hwhole] at hlength
    omega
  rw [hnil, append_nil] at hrest
  exact hne hrest

end HeadText

/-! ## The status of a head -/

section Status

variable (crate : HttpCrate)

variable (head : Head)

theorem Head.lossy_status_line :
    from_utf8_lossy head.status_line = "HTTP/1.1".toList ++
      ' ' :: (Nat.toDigits 10 head.code ++ ' ' :: from_utf8_lossy head.reason) := by
  rw [Head.status_line, from_utf8_lossy_append, ← nil_append (32 :: head.reason),
    from_utf8_lossy_before [] (by decide)]
  simp [from_utf8_lossy, utf8_scan]

/-- The status line of a head has its code. -/
theorem Head.parse_status_code_line :
    parse_status_code crate (from_utf8_lossy head.status_line) = .ok head.code := by
  have hdigit : ∀ c ∈ Nat.toDigits 10 head.code, is_whitespace c = false :=
    fun c hc => is_whitespace_of_isDigit (Nat.isDigit_of_mem_toDigits (by omega) (by omega) hc)
  have hversion : ∀ c ∈ "HTTP/1.1".toList, is_whitespace c = false := by
    simp [is_whitespace]
  have hlt := head.code_lt
  unfold parse_status_code
  rw [head.lossy_status_line, split_whitespace_append (by decide) hversion (by decide),
    split_whitespace_append Nat.toDigits_ne_nil hdigit (by decide)]
  dsimp only
  rw [parse_decimal_toDigits (by omega)]
  dsimp only
  rw [crate.from_u16_ok _ head.code_ge head.code_lt]
  rfl

/-- One round of the loop: an informational head is passed over, any other is the response if that
is complete. -/
theorem Head.extract_eq (rest : List UInt8) :
    extract_final_response crate (head.bytes ++ rest) =
      if 100 ≤ head.code ∧ head.code < 200 then extract_final_response crate rest
      else if has_complete_response (head.bytes ++ rest) then .ok (some (head.bytes ++ rest))
      else .ok none := by
  have hne : head.bytes ++ rest ≠ [] := by simp [Head.bytes, blank]
  rw [extract_final_response, if_neg hne, head.find_header_end_bytes]
  dsimp only
  rw [head.header_lines_bytes]
  dsimp only
  rw [head.parse_status_code_line]
  rw [← head.length_bytes, drop_left]

theorem Head.extract_info (hinfo : head.code < 200) (rest : List UInt8) :
    extract_final_response crate (head.bytes ++ rest) = extract_final_response crate rest := by
  rw [head.extract_eq, if_pos ⟨head.code_ge, hinfo⟩]

theorem Head.extract_final (hfinal : 200 ≤ head.code) (b : List UInt8) :
    extract_final_response crate (head.bytes ++ b) =
      .ok (if has_complete_response (head.bytes ++ b) then some (head.bytes ++ b) else none) := by
  rw [head.extract_eq, if_neg (by omega)]
  split <;> rfl

theorem Head.extract_cut {p : List UInt8} (hp : p <+: head.bytes) (hne : p ≠ head.bytes) :
    extract_final_response crate p = .ok none := by
  rw [extract_final_response, head.find_header_end_cut hp hne]
  split <;> rfl

/-- Only the lines of the head are asked whether the response is complete. -/
theorem Head.has_complete_bytes (b : List UInt8) :
    has_complete_response (head.bytes ++ b) =
      ((from_utf8_lossy head.status_line ::
        head.fields.map fun field => from_utf8_lossy field.line).findSome?
          (line_verdict (head.bytes ++ b) b.length)).getD true := by
  rw [has_complete_response, head.find_header_end_bytes]
  dsimp only
  rw [head.header_lines_bytes, length_append, head.length_bytes, Nat.add_sub_cancel_left]

end Status

/-! ## The fields of a head -/

section Fields

def Field.header (field : Field) : List Char × List Char :=
  (ascii field.name, trim (from_utf8_lossy field.value))

theorem from_utf8_lossy_append_ascii (s : List UInt8) {t : List UInt8}
    (ht : ∀ b ∈ t, b.toNat < 128) : from_utf8_lossy (s ++ t) = from_utf8_lossy s ++ ascii t := by
  cases t with
  | nil => simp [ascii]
  | cons b t =>
    have hrest : from_utf8_lossy t = ascii t := by
      conv_lhs => rw [← to_utf8_ascii fun c hc => ht c (mem_cons_of_mem b hc)]
      exact from_utf8_lossy_to_utf8
    rw [from_utf8_lossy_before s (ht b mem_cons_self), hrest]
    rfl

theorem from_utf8_lossy_ascii_append {s : List UInt8} (hs : ∀ b ∈ s, b.toNat < 128)
    (t : List UInt8) : from_utf8_lossy (s ++ t) = ascii s ++ from_utf8_lossy t := by
  conv_lhs => rw [← to_utf8_ascii hs]
  exact from_utf8_lossy_append _ t

variable (field : Field)

theorem Field.name_ascii : ∀ b ∈ field.name, b.toNat < 128 :=
  fun b hb => (tchar_facts (field.name_token b hb)).1

theorem Field.blank_ascii {b : UInt8} (hb : b ∈ field.before ∨ b ∈ field.after) :
    b.toNat < 128 := by
  rcases field.blanks b (mem_append.mpr hb) with rfl | rfl <;> decide

theorem Field.blank_whitespace {c : Char} (hc : c ∈ ascii field.before ∨ c ∈ ascii field.after) :
    is_whitespace c = true := by
  rw [← mem_append, ascii, ascii, ← map_append] at hc
  obtain ⟨b, hb, rfl⟩ := List.mem_map.mp hc
  rcases field.blanks b hb with rfl | rfl <;> decide

/-- Bytes that are not UTF-8 can only be in the value. -/
theorem Field.lossy_line :
    from_utf8_lossy field.line = ascii field.name ++ ':' ::
      (ascii field.before ++ (from_utf8_lossy field.value ++ ascii field.after)) := by
  have hcolon : from_utf8_lossy (58 :: (field.before ++ (field.value ++ field.after))) =
      ':' :: from_utf8_lossy (field.before ++ (field.value ++ field.after)) :=
    from_utf8_lossy_append [':'] _
  rw [Field.line, from_utf8_lossy_ascii_append field.name_ascii, hcolon,
    from_utf8_lossy_ascii_append fun b hb => field.blank_ascii (Or.inl hb),
    from_utf8_lossy_append_ascii _ fun b hb => field.blank_ascii (Or.inr hb)]

theorem Field.colon_not_mem : ':' ∉ ascii field.name := by
  intro hmem
  obtain ⟨b, hb, hchar⟩ := List.mem_map.mp hmem
  exact (tchar_facts (field.name_token b hb)).2.2.2.1 hchar

theorem Field.trim_around (s : List Char) :
    trim (ascii field.before ++ (s ++ ascii field.after)) = trim s :=
  trim_append (fun _ hc => field.blank_whitespace (Or.inl hc))
    (fun _ hc => field.blank_whitespace (Or.inr hc)) s

/-- The line of a field is read as the field, without the blanks around its value. -/
theorem Field.header_of_line : header_of (from_utf8_lossy field.line) = some field.header := by
  have hspace : ∀ c ∈ ascii field.name, is_whitespace c = false :=
    forall_mem_map.mpr fun b hb => (tchar_facts (field.name_token b hb)).2.2.2.2.2
  rw [header_of, field.lossy_line, split_once_append field.colon_not_mem, map_some]
  show some (trim _, trim _) = _
  rw [field.trim_around, trim_of_no_space hspace]
  rfl

end Fields

section Parsing

variable (crate : HttpCrate)

def Head.headers (head : Head) : List (List Char × List Char) :=
  head.fields.map Field.header

variable (head : Head)

/-- A head is parsed as its code and fields; what follows it is the body. -/
theorem Head.parse_bytes (b : List UInt8) :
    parse_http_response crate (head.bytes ++ b) =
      (body_of head.headers b).bind fun body =>
        match build_headers crate head.headers body with
        | .error e => .err e
        | .ok built => .ok ⟨head.code, built, body⟩ := by
  have hheaders : (head.fields.map fun field => from_utf8_lossy field.line).filterMap header_of =
      head.headers := by
    rw [filterMap_map]
    exact filterMap_eq_map_iff_forall_eq_some.mpr fun field _ => field.header_of_line
  rw [parse_http_response, head.find_header_end_bytes]
  dsimp only
  rw [head.header_lines_bytes]
  dsimp only
  rw [head.parse_status_code_line]
  rw [hheaders, ← head.length_bytes, drop_left]

theorem Head.parse_cut {p : List UInt8} (hp : p <+: head.bytes) (hne : p ≠ head.bytes) :
    parse_http_response crate p = .err "Invalid HTTP response: no header end found" := by
  rw [parse_http_response, head.find_header_end_cut hp hne]

end Parsing

/-! ## Which fields tell the length of the body -/

section Framing

variable (field : Field) (bytes : List UInt8) (current_body_length : ℕ)

theorem Field.colon_not_mem_lower : ':' ∉ field.lower_name := by
  intro hmem
  obtain ⟨c, hc, hlower⟩ := List.mem_map.mp hmem
  obtain ⟨b, hb, rfl⟩ := List.mem_map.mp hc
  exact (tchar_facts (field.name_token b hb)).2.2.2.2.1 hlower

/-- A name is compared without regard to capitals, and as a whole. -/
theorem Field.starts_with_iff {name : List Char} (hname : ':' ∉ name) :
    name ++ [':'] <+: to_lowercase (from_utf8_lossy field.line) ↔ field.lower_name = name := by
  have hlower : to_lowercase (from_utf8_lossy field.line) = field.lower_name ++ ':' ::
      to_lowercase (ascii field.before ++ (from_utf8_lossy field.value ++ ascii field.after)) := by
    rw [field.lossy_line]
    simp [to_lowercase, Field.lower_name]
  rw [hlower]
  constructor
  · rintro ⟨rest, hrest⟩
    rw [append_assoc] at hrest
    have hsplit := split_once_append hname rest
    rw [show name ++ ':' :: rest = name ++ ([':'] ++ rest) from rfl, hrest,
      split_once_append field.colon_not_mem_lower] at hsplit
    exact (Prod.mk.inj (Option.some.inj hsplit)).1
  · rintro rfl
    exact ⟨_, by rw [append_assoc]; rfl⟩

/-- Only two names say anything about the length of the body. -/
theorem Field.line_verdict_other (hlength : field.lower_name ≠ "content-length".toList)
    (hchunks : field.lower_name ≠ "transfer-encoding".toList) :
    line_verdict bytes current_body_length (from_utf8_lossy field.line) = none := by
  have hstart : ¬ "content-length:".toList <+: to_lowercase (from_utf8_lossy field.line) :=
    fun hstart => hlength ((field.starts_with_iff (by decide)).mp hstart)
  have hstart' : ¬ "transfer-encoding:".toList <+: to_lowercase (from_utf8_lossy field.line) :=
    fun hstart => hchunks ((field.starts_with_iff (by decide)).mp hstart)
  unfold line_verdict
  rw [if_neg hstart, if_neg fun hboth => hstart' hboth.1]
  rfl

theorem Head.line_verdict_status (head : Head) :
    line_verdict bytes current_body_length (from_utf8_lossy head.status_line) = none := by
  -- the line begins with neither name
  unfold line_verdict
  rw [head.lossy_status_line]
  rfl

theorem Field.blank_ne {c : Char} (hc : is_whitespace c = false) :
    c ∉ ascii field.before ∧ c ∉ ascii field.after := by
  rw [← not_or]
  intro hmem
  rw [field.blank_whitespace hmem] at hc
  cases hc

/-- A field of digits. -/
structure Field.Decimal (field : Field) : Prop where
  nonempty : field.value ≠ []
  digits : ∀ b ∈ field.value, 48 ≤ b ∧ b ≤ 57

/-- The number that the digits of a field are. -/
def Field.number (field : Field) : ℕ :=
  Nat.ofDigitChars 10 (ascii field.value) 0

variable {b : UInt8}

theorem digit_facts (h : 48 ≤ b ∧ b ≤ 57) :
    b.toNat < 128 ∧ (Char.ofNat b.toNat).isDigit = true := by
  revert h
  refine forall_byte b ?_
  decide +kernel

variable {field} in
theorem Field.Decimal.isDigit (h : field.Decimal) : ∀ c ∈ ascii field.value, c.isDigit = true :=
  forall_mem_map.mpr fun b hb => (digit_facts (h.digits b hb)).2

variable {field} in
theorem Field.Decimal.lossy_value (h : field.Decimal) :
    from_utf8_lossy field.value = ascii field.value := by
  have hascii := from_utf8_lossy_append_ascii [] fun b hb => (digit_facts (h.digits b hb)).1
  exact hascii

variable {field} in
theorem Field.Decimal.parse (h : field.Decimal) (hmax : field.number ≤ u64_max) :
    parse_unsigned u64_max (trim (from_utf8_lossy field.value)) = some field.number := by
  have hspace : ∀ c ∈ ascii field.value, is_whitespace c = false :=
    fun c hc => is_whitespace_of_isDigit (h.isDigit c hc)
  have hne : ascii field.value ≠ [] := by
    rw [ascii, Ne, map_eq_nil_iff]
    exact h.nonempty
  rw [h.lossy_value, trim_of_no_space hspace]
  exact parse_unsigned_eq_some_iff.mpr ⟨⟨_, hne, h.isDigit, .inl rfl, rfl⟩, hmax⟩

variable {field} in
theorem Field.Decimal.line_verdict (h : field.Decimal)
    (hname : field.lower_name = "content-length".toList) (hmax : field.number ≤ u64_max) :
    line_verdict bytes current_body_length (from_utf8_lossy field.line) =
      some (decide (field.number ≤ current_body_length)) := by
  have hstart : "content-length:".toList <+: to_lowercase (from_utf8_lossy field.line) :=
    (field.starts_with_iff (by decide)).mpr hname
  have hcolon : ':' ∉ ascii field.before ++ (ascii field.value ++ ascii field.after) := by
    obtain ⟨hbefore, hafter⟩ := field.blank_ne (show is_whitespace ':' = false by decide)
    have hvalue : ':' ∉ ascii field.value := fun hmem => absurd (h.isDigit _ hmem) (by decide)
    simp only [mem_append, not_or]
    exact ⟨hbefore, hvalue, hafter⟩
  unfold SignedRequest.line_verdict
  rw [if_pos hstart]
  have hsplit : ((from_utf8_lossy field.line).splitOn ':')[1]? =
      some (ascii field.before ++ (ascii field.value ++ ascii field.after)) := by
    rw [field.lossy_line, h.lossy_value,
      splitOn_append_cons_self_of_not_mem field.colon_not_mem,
      splitOn_eq_singleton hcolon]
    rfl
  rw [hsplit, bind_some, field.trim_around, ← h.lossy_value, h.parse hmax]
  rfl

theorem visible_facts (h : 32 < b ∧ b < 127) :
    b.toNat < 128 ∧ is_whitespace (Char.ofNat b.toNat) = false := by
  revert h
  refine forall_byte b ?_
  decide +kernel

/-- A visible value has no blanks at its ends. -/
theorem Field.trim_value (h : ∀ b ∈ field.value, 32 ≤ b ∧ b < 127) :
    trim (from_utf8_lossy field.value) = ascii field.value := by
  have hascii : ∀ b ∈ field.value, b.toNat < 128 := by
    intro b hb
    have hlt := UInt8.lt_iff_toNat_lt.mp (h b hb).2
    exact Nat.lt_trans hlt (by decide)
  have hends : ∀ b, b ∈ field.value.head? ∨ b ∈ field.value.getLast? →
      is_whitespace (Char.ofNat b.toNat) = false := by
    intro b hend
    have hmem : b ∈ field.value := by
      rcases hend with hhead | hlast
      · exact mem_of_mem_head? hhead
      · exact mem_of_getLast? hlast
    obtain ⟨hle, hlt⟩ := h b hmem
    have hne := (field.value_trimmed b hend).1
    exact (visible_facts ⟨UInt8.lt_of_le_of_ne hle hne.symm, hlt⟩).2
  have hlossy : from_utf8_lossy field.value = ascii field.value :=
    from_utf8_lossy_append_ascii [] hascii
  rw [hlossy]
  apply trim_eq_self
  · intro c hc
    rw [ascii, List.head?_map] at hc
    obtain ⟨b, hb, rfl⟩ := map_eq_some_iff.mp hc
    exact hends b (Or.inl hb)
  · intro c hc
    rw [ascii, List.getLast?_map] at hc
    obtain ⟨b, hb, rfl⟩ := map_eq_some_iff.mp hc
    exact hends b (Or.inr hb)

/-- The transfer coding of a chunked body. -/
structure Field.Coding (field : Field) : Prop where
  name : field.lower_name = "transfer-encoding".toList
  coding : to_lowercase (ascii field.value) = "chunked".toList

/-- The coding is spelled without capitals. -/
def Field.Lowercase (field : Field) : Prop :=
  ascii field.value = "chunked".toList

instance (field : Field) : Decidable field.Lowercase :=
  inferInstanceAs (Decidable (_ = _))

theorem coding_facts (h : (Char.ofNat b.toNat).toLower ∈ "chunked".toList) : 32 < b ∧ b < 127 := by
  revert h
  refine forall_byte b ?_
  decide +kernel

variable {field}

section

variable (h : field.Coding)

include h

theorem Field.Coding.value_visible : ∀ b ∈ field.value, 32 < b ∧ b < 127 := by
  intro b hb
  apply coding_facts
  rw [← h.coding]
  exact List.mem_map_of_mem (List.mem_map_of_mem hb)

theorem Field.Coding.lossy_value : from_utf8_lossy field.value = ascii field.value :=
  from_utf8_lossy_append_ascii [] fun b hb => (visible_facts (h.value_visible b hb)).1

theorem Field.Coding.contains_iff : "chunked".toList <:+: ascii field.value ↔ field.Lowercase := by
  have hlength : "chunked".toList.length = (ascii field.value).length := by
    rw [← h.coding, to_lowercase, length_map]
  constructor
  · intro hpart
    exact (hpart.eq_of_length hlength).symm
  · intro hvalue
    rw [hvalue]

/-- The coding is looked for in the whole line, but stands nowhere else in it. -/
theorem Field.Coding.line_contains_iff :
    "chunked".toList <:+: from_utf8_lossy field.line ↔ field.Lowercase := by
  rw [← h.contains_iff, field.lossy_line, h.lossy_value]
  constructor
  · intro hpart
    rcases part_of_append_cons (by decide) hpart with hname | hrest
    · -- the name of the field has no `k`
      have hk : 'k' ∈ ascii field.name := hname.subset (by decide)
      have hlower : 'k' ∈ field.lower_name := List.mem_map_of_mem (f := Char.toLower) hk
      rw [h.name] at hlower
      exact absurd hlower (by decide)
    · have hblank : ∀ c ∈ "chunked".toList, c ∉ ascii field.before ∧ c ∉ ascii field.after := by
        intro c hc
        apply field.blank_ne
        have hall : ("chunked".toList.all fun c => is_whitespace c = false) = true := by decide
        exact of_decide_eq_true (List.all_eq_true.mp hall c hc)
      have hvalue := part_of_append_left (by decide) (fun c hc hmem => (hblank c hmem).1 hc) hrest
      exact part_of_append_right (by decide) (fun c hc hmem => (hblank c hmem).2 hc) hvalue
  · intro hpart
    exact hpart.trans ⟨ascii field.name ++ ':' :: ascii field.before, ascii field.after, by simp⟩

/-- A coding that is spelled with capitals is not recognised. -/
theorem Field.Coding.line_verdict :
    line_verdict bytes current_body_length (from_utf8_lossy field.line) =
      if field.Lowercase then
        some (decide (([48] ++ blank : List UInt8) <:+ bytes ∨ ([48] ++ blank ++ crlf) <:+ bytes))
      else none := by
  have hlength : ¬ "content-length:".toList <+: to_lowercase (from_utf8_lossy field.line) := by
    intro hstart
    have hname := (@Field.starts_with_iff field "content-length".toList (by decide)).mp hstart
    rw [h.name] at hname
    exact absurd hname (by decide)
  have hstart : "transfer-encoding:".toList <+: to_lowercase (from_utf8_lossy field.line) :=
    (field.starts_with_iff (by decide)).mpr h.name
  unfold SignedRequest.line_verdict
  rw [if_neg hlength]
  by_cases hlower : field.Lowercase
  · rw [if_pos ⟨hstart, h.line_contains_iff.mpr hlower⟩, if_pos hlower]
    rfl
  · rw [if_neg fun hboth => hlower (h.line_contains_iff.mp hboth.2), if_neg hlower]
    rfl

end

end Framing

end HybridCache.SignedRequest
