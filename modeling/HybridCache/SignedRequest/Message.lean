/-
What is parsed out of a response.

A response is a head and a body with a length, in chunks, or up to the end of the stream. Here is
what `parse_http_response` gives for the head and any beginning of the body.
-/
import HybridCache.SignedRequest.Response

namespace HybridCache.SignedRequest

open Lib List

/-! ## Responses -/

/-- Whether a field tells the length of the body. -/
def Field.framing (field : Field) : Bool :=
  field.lower_name = "content-length".toList ∨ field.lower_name = "transfer-encoding".toList

def trailer_section (trailers : List Field) : List UInt8 :=
  trailers.flatMap (fun field => field.line ++ crlf) ++ crlf

inductive Body where
  | sized (data : List UInt8)
  | chunked (framing : Framing chunk_size_line) (trailers : List Field)
  | until_close (data : List UInt8)

def Body.bytes : Body → List UInt8
  | .sized data => data
  | .chunked framing _ => framing.bytes
  | .until_close data => data

def Body.data : Body → List UInt8
  | .sized data => data
  | .chunked framing _ => framing.data
  | .until_close data => data

/-- A content length. The length of a body in memory is a `usize`. -/
structure Field.Measures (field : Field) (data : List UInt8) : Prop where
  name : field.lower_name = "content-length".toList
  decimal : field.Decimal
  size : field.number = data.length
  fits : data.length ≤ u64_max

open SignedRequest.Field

/-- The body that is announced by fields: by a length, by the transfer coding, or by neither. -/
def Body.Announced (fields : List Field) : Body → Prop
  | .sized data => ∃ field, fields.filter Field.framing = [field] ∧ field.Measures data
  | .chunked framing trailers =>
    (∃ field, fields.filter Field.framing = [field] ∧ field.Coding) ∧
      framing.tail = trailer_section trailers
  | .until_close _ => fields.filter Field.framing = []

/-- A head, and a body that it announces. -/
structure Message where
  head : Head
  body : Body
  announced : body.Announced head.fields

/-- The transfer coding, if there is one, is spelled without capitals. -/
def Message.Lowercase (message : Message) : Prop :=
  ∀ field ∈ message.head.fields.filter framing, field.Lowercase

instance (message : Message) : Decidable message.Lowercase :=
  inferInstanceAs (Decidable (∀ field ∈ _, _))

def Field.entry (field : Field) : List Char × List UInt8 :=
  (field.lower_name, field.value)

def length_entry (data : List UInt8) : List Char × List UInt8 :=
  ("content-length".toList, to_utf8 (Nat.toDigits 10 data.length))

/-- The fields that the answer has: the transfer coding of a chunked body is undone, and its field
goes. -/
def Message.kept (message : Message) : List Field :=
  match message.body with
  | .chunked .. => message.head.fields.filter fun field => field.framing = false
  | _ => message.head.fields

/-- The answer that a response stands for. A chunked body gets a length instead of the coding. -/
def Message.response (message : Message) : Response where
  status := message.head.code
  headers :=
    match message.body with
    | .chunked .. => message.kept.map entry ++ [length_entry message.body.data]
    | _ => message.kept.map entry
  body := message.body.data

/-! ## What the code takes from the fields -/

section Scans

variable {α β : Type} {l : List α} {p : α → Bool}

theorem findSome?_eq_filter {f : α → Option β} (h : ∀ x ∈ l, p x = false → f x = none) :
    l.findSome? f = (l.filter p).findSome? f := by
  rw [← head?_filterMap, ← head?_filterMap, filterMap_filter]
  congr 1
  refine filterMap_congr fun x hx => ?_
  split_ifs with hp
  · rfl
  · exact h x hx (Bool.eq_false_iff.mpr hp)

theorem foldl_eq_filter {f : β → α → β} (h : ∀ x ∈ l, p x = false → ∀ b, f b x = b) (b : β) :
    l.foldl f b = (l.filter p).foldl f b := by
  rw [foldl_filter]
  refine foldl_ext _ _ b fun b x hx => ?_
  split_ifs with hp
  · rfl
  · exact h x hx (Bool.eq_false_iff.mpr hp) b

end Scans

section Fields

variable {field : Field} {fields : List Field}

theorem Field.not_framing (h : field.framing = false) :
    field.lower_name ≠ "content-length".toList ∧ field.lower_name ≠ "transfer-encoding".toList := by
  have hneither := of_decide_eq_false h
  rwa [not_or] at hneither

theorem Field.says_chunked_of_name (h : field.lower_name ≠ "transfer-encoding".toList) :
    says_chunked field.header = false := by
  apply decide_eq_false
  rintro ⟨hname, -⟩
  exact h hname

theorem Field.Coding.says_chunked_iff (h : field.Coding) :
    says_chunked field.header = true ↔ field.Lowercase := by
  have htrim := field.trim_value fun b hb =>
    ⟨UInt8.le_of_lt (h.value_visible b hb).1, (h.value_visible b hb).2⟩
  rw [says_chunked, decide_eq_true_eq, ← h.contains_iff, header, htrim]
  exact and_iff_right h.name

theorem any_says_chunked (fields : List Field) :
    (fields.map header).any says_chunked =
      (fields.filter framing).any fun field => says_chunked field.header := by
  rw [List.any_map, List.any_filter]
  congr 1
  funext field
  cases hframing : field.framing with
  | true => rfl
  | false => exact says_chunked_of_name (not_framing hframing).2

theorem foldl_note_length (fields : List Field) :
    (fields.map header).foldl note_length none =
      (fields.filter framing).foldl (fun n field => note_length n field.header) none := by
  rw [foldl_map]
  apply foldl_eq_filter
  intro field _ hframing n
  obtain ⟨hlength, hchunks⟩ := not_framing hframing
  unfold note_length
  rw [says_chunked_of_name hchunks, if_neg Bool.false_ne_true, if_neg]
  exact hlength

end Fields

/-! ## When a response looks complete -/

/-- The bytes end like a last chunk without trailers. -/
def ends_like_last_chunk (bytes : List UInt8) : Prop :=
  ([48] ++ blank : List UInt8) <:+ bytes ∨ ([48] ++ blank ++ crlf) <:+ bytes

instance (bytes : List UInt8) : Decidable (ends_like_last_chunk bytes) :=
  inferInstanceAs (Decidable (_ ∨ _))

/-- A response with so much of its body looks complete. -/
def Message.looks_complete (message : Message) (b : List UInt8) : Bool :=
  match message.body with
  | .sized data => data.length ≤ b.length
  | .chunked _ _ => message.Lowercase → ends_like_last_chunk (message.head.bytes ++ b)
  | .until_close _ => true

theorem Message.lowercase_iff {message : Message} {field : Field}
    (honly : message.head.fields.filter framing = [field]) :
    message.Lowercase ↔ field.Lowercase := by
  unfold Message.Lowercase
  rw [honly]
  simp

open Message

/-- What the code asks is whether the response looks complete. -/
theorem Message.has_complete_bytes (message : Message) (b : List UInt8) :
    has_complete_response (message.head.bytes ++ b) = message.looks_complete b := by
  have hverdict : (message.head.fields.map fun field => from_utf8_lossy field.line).findSome?
      (line_verdict (message.head.bytes ++ b) b.length) =
        (message.head.fields.filter framing).findSome? fun field =>
          line_verdict (message.head.bytes ++ b) b.length (from_utf8_lossy field.line) := by
    rw [List.findSome?_map]
    apply findSome?_eq_filter
    intro field _ hframing
    obtain ⟨hlength, hchunks⟩ := not_framing hframing
    exact field.line_verdict_other _ _ hlength hchunks
  have hannounced := message.announced
  rw [message.head.has_complete_bytes, List.findSome?_cons, message.head.line_verdict_status]
  rw [hverdict]
  unfold looks_complete
  cases hbody : message.body with
  | sized data =>
    rw [hbody] at hannounced
    obtain ⟨field, honly, hmeasures⟩ := hannounced
    rw [honly, List.findSome?_singleton, hmeasures.decimal.line_verdict _ _ hmeasures.name
      (by rw [hmeasures.size]; exact hmeasures.fits), hmeasures.size]
    rfl
  | chunked framing trailers =>
    rw [hbody] at hannounced
    obtain ⟨⟨field, honly, hcoding⟩, -⟩ := hannounced
    rw [honly, List.findSome?_singleton, hcoding.line_verdict]
    simp only [lowercase_iff honly]
    by_cases hlower : field.Lowercase
    · simp [hlower, ends_like_last_chunk]
    · simp [hlower]
  | until_close data =>
    rw [hbody] at hannounced
    rw [show message.head.fields.filter Field.framing = [] from hannounced]
    rfl

/-! ## Chunked bodies that are not all there -/

open ChunkedDecodeConfig

section Chunks

variable {f : Framing chunk_size_line} {b data : List UInt8}

/-- The code reads this from the beginning of a chunked body: the payloads of some chunks, which
are all there is so far, or of all of them, if the line of the last chunk is there too. -/
def ReadsAs (f : Framing chunk_size_line) (b data : List UInt8) : Prop :=
  ∃ chunks, chunks <+: f.chunks ∧ (∀ chunk ∈ chunks, Plain chunk.line) ∧
    Within .default chunks ∧ data = chunk_data chunks ∧
      (b = chunk_bytes chunks ∨
        chunks = f.chunks ∧ Plain f.last ∧ chunk_bytes f.chunks ++ (f.last ++ crlf) <+: b)

theorem chunk_bytes_congr {size_of size_of' : List UInt8 → Option ℕ} {chunks : List (Chunk size_of)}
    {chunks' : List (Chunk size_of')}
    (hlines : chunks.map Chunk.line = chunks'.map Chunk.line)
    (hpayloads : chunks.map Chunk.payload = chunks'.map Chunk.payload) :
    chunk_bytes chunks = chunk_bytes chunks' := by
  rw [chunk_bytes_eq_flatten, hlines, hpayloads, ← chunk_bytes_eq_flatten]

theorem exists_parsed_chunks {chunks : List (Chunk chunk_size_line)}
    (hplain : ∀ chunk ∈ chunks, Plain chunk.line) (hlen : (chunk_bytes chunks).length ≤ u64_max) :
    ∃ parsed : List (Chunk parsed_size), chunk_bytes parsed = chunk_bytes chunks ∧
      parsed.map Chunk.payload = chunks.map Chunk.payload := by
  induction chunks with
  | nil => exact ⟨[], rfl, rfl⟩
  | cons chunk chunks ih =>
    have hlength : (chunk.bytes ++ chunk_bytes chunks).length ≤ u64_max := hlen
    simp only [Chunk.bytes, length_append] at hlength
    obtain ⟨parsed, hbytes, hpayloads⟩ :=
      ih (fun c hc => hplain c (mem_cons_of_mem chunk hc)) (by omega)
    have hsize := parsed_size_eq_of_plain (hplain chunk mem_cons_self) chunk.size (by omega)
    refine ⟨⟨chunk.line, chunk.payload, chunk.is_line, hsize, chunk.nonempty⟩ :: parsed, ?_, ?_⟩
    · show chunk.bytes ++ chunk_bytes parsed = chunk.bytes ++ chunk_bytes chunks
      rw [hbytes]
    · rw [map_cons, map_cons, hpayloads]

/-- What is read from the beginning of a body, the decoder returns. -/
theorem decode_of_readsAs (hlen : b.length ≤ u64_max) (h : ReadsAs f b data) :
    decode_chunked_body_bounded b .default = .ok data := by
  obtain ⟨chunks, -, hplain, hwithin, rfl, hend⟩ := h
  have hle : (chunk_bytes chunks).length ≤ u64_max := by
    rcases hend with rfl | ⟨rfl, -, hfront⟩
    · exact hlen
    · have hlength := hfront.length_le
      rw [length_append] at hlength
      omega
  obtain ⟨parsed, hbytes, hpayloads⟩ := exists_parsed_chunks hplain hle
  have hdata : chunk_data parsed = chunk_data chunks := by
    rw [chunk_data_eq_flatten, chunk_data_eq_flatten, hpayloads]
  have hwithin' := within_congr hpayloads.symm hwithin
  rcases hend with rfl | ⟨rfl, hlast, rest, rfl⟩
  · rw [decode_of_row hlen hbytes hwithin', hdata]
  · have hsize := parsed_size_eq_of_plain hlast f.size (Nat.zero_le _)
    let g : Framing parsed_size := ⟨parsed, f.last, rest, f.is_line, hsize⟩
    have hg : g.bytes = chunk_bytes f.chunks ++ (f.last ++ crlf) ++ rest := by
      show chunk_bytes parsed ++ (f.last ++ (crlf ++ rest)) = _
      rw [hbytes, append_assoc, append_assoc]
    rw [decode_of_framing hlen hg hwithin']
    exact congrArg Outcome.ok hdata

/-- The decoder fails or reads chunks of the body: sizes that both readers know are the same. -/
theorem readsAs_of_decode (hb : b <+: f.bytes)
    (hlen : default.max_chunk_size + b.length ≤ u64_max) :
    (∃ e, decode_chunked_body_bounded b .default = .err e) ∨ ∃ data, ReadsAs f b data := by
  obtain ⟨rest, hrest⟩ := hb
  have hplain : ∀ {front : List (Chunk chunk_size_line)} {chunks : List (Chunk parsed_size)},
      front.map Chunk.line = chunks.map Chunk.line → ∀ chunk ∈ front, Plain chunk.line := by
    intro front chunks hlines chunk hchunk
    have hmem : chunk.line ∈ chunks.map Chunk.line := hlines ▸ List.mem_map_of_mem hchunk
    obtain ⟨chunk', -, hline⟩ := List.mem_map.mp hmem
    exact (plain_of_both chunk.size (hline ▸ chunk'.size)).1
  rcases decode_cases (show b.length ≤ u64_max by omega) .default with herr |
    ⟨chunks, hrow, hwithin⟩ | ⟨g, hg, hwithin⟩ |
    ⟨chunks, line, after, n, hinput, -, -, -, hover⟩
  · exact Or.inl herr
  · right
    have hbytes : f.bytes = chunk_bytes chunks ++ rest := by rw [hrow, hrest]
    obtain ⟨front, f', hchunks, -, -, -, hlines, hpayloads⟩ := Framing.row_alike sizes_agree hbytes
    refine ⟨_, front, ⟨f'.chunks, hchunks.symm⟩, hplain hlines,
      within_congr hpayloads.symm hwithin, rfl, Or.inl ?_⟩
    rw [chunk_bytes_congr hlines hpayloads, hrow]
  · right
    have hbytes : f.bytes = chunk_bytes g.chunks ++ (g.last ++ (crlf ++ (g.tail ++ rest))) := by
      rw [← hrest, ← hg, Framing.bytes]
      simp only [append_assoc]
    obtain ⟨front, f', hchunks, hlast, -, hbytes', hlines, hpayloads⟩ :=
      Framing.row_alike sizes_agree hbytes
    obtain ⟨hnil, hlast', -⟩ := Framing.last_alike sizes_agree g.is_line g.size hbytes'
    rw [hnil, append_nil] at hchunks
    have hline : f.last = g.last := hlast.trans hlast'
    refine ⟨_, front, ⟨[], by rw [append_nil, hchunks]⟩, hplain hlines,
      within_congr hpayloads.symm hwithin, rfl, Or.inr ⟨hchunks.symm, ?_, ?_⟩⟩
    · exact (plain_of_both f.size (hline ▸ g.size)).1
    · refine ⟨g.tail, ?_⟩
      rw [← hg, Framing.bytes, hchunks, chunk_bytes_congr hlines hpayloads, hline]
      simp only [append_assoc]
  · exact absurd hover (not_overflow_of_limit hlen hinput)

/-- **The beginning of a chunked body** is read as some of its chunks, or refused. -/
theorem decode_beginning (hb : b <+: f.bytes)
    (hlen : default.max_chunk_size + b.length ≤ u64_max) :
    (∀ data, decode_chunked_body b = .ok data ↔ ReadsAs f b data) ∧
      ((∃ e, decode_chunked_body b = .err e) ↔ ∀ data, ¬ ReadsAs f b data) := by
  have hok : ∀ data, ReadsAs f b data → decode_chunked_body b = .ok data := by
    intro data hdata
    rw [decode_chunked_body, decode_of_readsAs (by omega) hdata]
    rfl
  rcases readsAs_of_decode hb hlen with ⟨e, he⟩ | ⟨data, hdata⟩
  · have herr : decode_chunked_body b = .err ("Chunked decode error: " ++ e.to_string) := by
      rw [decode_chunked_body, he]
      rfl
    have hnone : ∀ data, ¬ ReadsAs f b data := by
      intro data hdata
      rw [hok data hdata] at herr
      cases herr
    refine ⟨fun data => ⟨fun h => ?_, fun h => absurd h (hnone data)⟩, fun _ => hnone,
      fun _ => ⟨_, herr⟩⟩
    rw [herr] at h
    cases h
  · refine ⟨fun data' => ⟨fun h => ?_, hok data'⟩, ?_, fun h => absurd hdata (h data)⟩
    · rw [hok data hdata] at h
      cases h
      exact hdata
    · rintro ⟨e, he⟩
      rw [hok data hdata] at he
      cases he

end Chunks

/-! ## What is made of a response -/

section Parsed

variable (crate : HttpCrate)

def Message.taken (message : Message) (b : List UInt8) : Outcome String (List UInt8) :=
  match message.body with
  | .sized data => .ok (b.take data.length)
  | .chunked _ _ => if message.Lowercase then decode_chunked_body b else .ok b
  | .until_close _ => .ok b

variable {headers : List (List Char × List Char)} {b : List UInt8}

theorem body_of_not_chunked (h : headers.any says_chunked = false) (b : List UInt8) :
    body_of headers b =
      .ok (match headers.foldl note_length none with
        | some length => b.take length
        | none => b) := by
  unfold body_of
  rw [h, if_neg Bool.false_ne_true]
  split_ifs with hb
  · rw [hb]
    split <;> simp
  · cases headers.foldl note_length none with
    | none => rfl
    | some length => exact congrArg Outcome.ok take_eq_take_min.symm

theorem body_of_chunked (h : headers.any says_chunked = true) (b : List UInt8) :
    body_of headers b = decode_chunked_body b := by
  unfold body_of
  by_cases hb : b = []
  · have hnil : decode_chunked_body [] = .ok [] := by
      rw [decode_chunked_body, decode_chunked_body_bounded, decode_from_nil]
      rfl
    rw [if_pos hb, hb, hnil]
  · rw [if_neg hb, if_pos h]

variable (message : Message)

/-- The body is taken as the one framing field says. -/
theorem Message.body_of_headers : body_of message.head.headers b = message.taken b := by
  have hany := any_says_chunked message.head.fields
  have hfold := foldl_note_length message.head.fields
  have hannounced := message.announced
  unfold taken Head.headers
  cases hbody : message.body with
  | sized data =>
    rw [hbody] at hannounced
    obtain ⟨field, honly, hmeasures⟩ := hannounced
    have hchunks : says_chunked field.header = false :=
      says_chunked_of_name (by rw [hmeasures.name]; decide)
    have hnote : note_length none field.header = some data.length := by
      unfold note_length
      rw [hchunks, if_neg Bool.false_ne_true,
        if_pos (show to_lowercase field.header.1 = _ from hmeasures.name), ← hmeasures.size]
      exact hmeasures.decimal.parse (by rw [hmeasures.size]; exact hmeasures.fits)
    rw [honly, any_cons, hchunks] at hany
    rw [honly, foldl_cons, hnote] at hfold
    rw [body_of_not_chunked hany, hfold]
    rfl
  | chunked framing trailers =>
    rw [hbody] at hannounced
    obtain ⟨⟨field, honly, hcoding⟩, -⟩ := hannounced
    rw [honly, any_cons, any_nil, Bool.or_false] at hany
    rw [honly, foldl_cons, foldl_nil] at hfold
    simp only [lowercase_iff honly]
    by_cases hlower : field.Lowercase
    · rw [hcoding.says_chunked_iff.mpr hlower] at hany
      rw [body_of_chunked hany, if_pos hlower]
    · have hcoded := Bool.eq_false_iff.mpr (mt hcoding.says_chunked_iff.mp hlower)
      have hnote : note_length none field.header = none := by
        unfold note_length
        rw [hcoded, if_neg Bool.false_ne_true, if_neg]
        rw [show to_lowercase field.header.1 = _ from hcoding.name]
        decide
      rw [hcoded] at hany
      rw [hnote] at hfold
      rw [body_of_not_chunked hany, hfold, if_neg hlower]
  | until_close data =>
    rw [hbody] at hannounced
    rw [show message.head.fields.filter Field.framing = [] from hannounced] at hany hfold
    rw [body_of_not_chunked hany, hfold]
    rfl

def Field.built (field : Field) : Except String (List Char × List UInt8) :=
  crate.header field.header.1 field.header.2

/-- The fields that the code keeps. -/
def Message.sent (message : Message) : List Field :=
  match message.body with
  | .chunked _ _ => if message.Lowercase then message.kept else message.head.fields
  | _ => message.head.fields

/-- The header that the code adds. -/
def Message.added (message : Message) (body : List UInt8) : List (List Char × List UInt8) :=
  match message.body with
  | .chunked _ _ => if message.Lowercase then [length_entry body] else []
  | _ => []

theorem header_length (n : ℕ) :
    crate.header "content-length".toList (Nat.toDigits 10 n) =
      .ok ("content-length".toList, to_utf8 (Nat.toDigits 10 n)) := by
  have hdigit : ∀ c ∈ Nat.toDigits 10 n, 48 ≤ c.toNat ∧ c.toNat ≤ 57 :=
    fun c hc => isDigit_bounds (Nat.isDigit_of_mem_toDigits (by omega) (by omega) hc)
  have hvisible : ∀ b ∈ to_utf8 (Nat.toDigits 10 n), 32 ≤ b ∧ b < 127 := by
    intro b hb
    obtain ⟨c, hc, hbc⟩ := mem_flatMap.mp hb
    obtain ⟨hlow, hhigh⟩ := hdigit c hc
    rw [encode_ascii (by omega), mem_singleton] at hbc
    rw [hbc, UInt8.le_iff_toNat_le, UInt8.lt_iff_toNat_lt, toNat_ofNat_byte (by omega)]
    exact ⟨show 32 ≤ c.toNat by omega, show c.toNat < 127 by omega⟩
  have htoken : ∀ b ∈ to_utf8 "content-length".toList, is_tchar b = true :=
    List.all_eq_true.mp (by decide +kernel)
  have hname : ∀ c ∈ "content-length".toList, c.toNat < 128 := by simp
  have hheader := crate.header_ok _ _ (by decide) (by decide) htoken hvisible
  rwa [ascii_to_utf8 hname, ascii_to_utf8 fun c hc => by have := hdigit c hc; omega] at hheader

/-- The code undoes the coding: there is one, and it is spelled without capitals. -/
def Message.Recoded (message : Message) : Prop :=
  (∃ framing trailers, message.body = .chunked framing trailers) ∧ message.Lowercase

/-- A field is recognised exactly if it is the coding and the code undoes it. -/
theorem Message.says_chunked_iff {field : Field} (hfield : field ∈ message.head.fields) :
    says_chunked field.header = true ↔ message.Recoded ∧ field.framing = true := by
  have hannounced := message.announced
  by_cases hframing : field.framing = true
  · have hmem : field ∈ message.head.fields.filter framing := mem_filter.mpr ⟨hfield, hframing⟩
    cases hbody : message.body with
    | sized data =>
      rw [hbody] at hannounced
      obtain ⟨field', honly, hmeasures⟩ := hannounced
      rw [honly, mem_singleton] at hmem
      have hcoded : says_chunked field.header = false :=
        says_chunked_of_name (by rw [hmem, hmeasures.name]; decide)
      simp [hcoded, Message.Recoded, hbody]
    | chunked framing trailers =>
      rw [hbody] at hannounced
      obtain ⟨⟨field', honly, hcoding⟩, -⟩ := hannounced
      have hlower := lowercase_iff honly
      rw [honly, mem_singleton] at hmem
      rw [hmem, hcoding.says_chunked_iff, ← hlower, ← hmem]
      simp [Message.Recoded, hbody, hframing]
    | until_close data =>
      rw [hbody] at hannounced
      rw [show message.head.fields.filter Field.framing = [] from hannounced] at hmem
      cases hmem
  · have hcoded := Field.says_chunked_of_name
      (not_framing (Bool.eq_false_iff.mpr hframing)).2
    simp [hcoded, hframing]

theorem Message.sent_of_recoded {message : Message} (h : message.Recoded) :
    message.sent = message.kept ∧ (∀ body, message.added body = [length_entry body]) ∧
      message.kept = message.head.fields.filter fun field => field.framing = false := by
  obtain ⟨⟨framing, trailers, hbody⟩, hlower⟩ := h
  unfold sent added kept
  simp [hbody, hlower]

theorem Message.sent_of_not_recoded {message : Message} (h : ¬ message.Recoded) :
    message.sent = message.head.fields ∧ ∀ body, message.added body = [] := by
  unfold sent added
  cases hbody : message.body with
  | chunked framing trailers =>
    have hlower : ¬ message.Lowercase := fun hlower => h ⟨⟨framing, trailers, hbody⟩, hlower⟩
    simp [hlower]
  | sized data | until_close data => simp

theorem mapM_header (fields : List Field) :
    ((fields.map header).mapM fun header => crate.header header.1 header.2) =
      fields.mapM (built crate) := by
  induction fields with
  | nil => rfl
  | cons field fields ih =>
    rw [map_cons, mapM_cons, mapM_cons, ih]
    rfl

theorem Message.any_says_chunked_iff :
    message.head.headers.any says_chunked = true ↔ message.Recoded := by
  unfold Head.headers
  rw [List.any_map, List.any_eq_true]
  constructor
  · rintro ⟨field, hfield, hcoded⟩
    exact ((message.says_chunked_iff hfield).mp hcoded).1
  · intro hrecoded
    obtain ⟨framing, trailers, hbody⟩ := hrecoded.1
    have hannounced := message.announced
    rw [hbody] at hannounced
    obtain ⟨⟨field, honly, -⟩, -⟩ := hannounced
    obtain ⟨hfield, hframing⟩ := mem_filter.mp (honly ▸ mem_singleton_self field)
    exact ⟨field, hfield, (message.says_chunked_iff hfield).mpr ⟨hrecoded, hframing⟩⟩

/-- The fields that are kept are given to the crate one by one. -/
theorem Message.build_headers_eq (body : List UInt8) :
    build_headers crate message.head.headers body =
      ((message.sent.mapM (built crate)).map (· ++ message.added body)).mapError
        ("Failed to build response: " ++ ·) := by
  have hkept : (message.head.headers.filter fun header => says_chunked header = false) =
      message.sent.map header := by
    unfold Head.headers
    rw [List.filter_map]
    congr 1
    by_cases hrecoded : message.Recoded
    · obtain ⟨hsent, -, hkept⟩ := sent_of_recoded hrecoded
      rw [hsent, hkept]
      apply filter_congr
      intro field hfield
      have hiff := message.says_chunked_iff hfield
      cases hframing : field.framing <;> simp_all
    · rw [(sent_of_not_recoded hrecoded).1, filter_eq_self]
      intro field hfield
      have hiff := message.says_chunked_iff hfield
      simp_all
  unfold build_headers
  simp only [hkept]
  by_cases hrecoded : message.Recoded
  · rw [if_pos (message.any_says_chunked_iff.mpr hrecoded), mapM_append, mapM_header,
      (sent_of_recoded hrecoded).2.1]
    cases message.sent.mapM (built crate) with
    | error e => rfl
    | ok built =>
      rw [show ([("content-length".toList, Nat.toDigits 10 body.length)].mapM fun header =>
        crate.header header.1 header.2) = .ok [length_entry body] by
          rw [mapM_cons, header_length]; rfl]
      rfl
  · have hnone := mt message.any_says_chunked_iff.mp hrecoded
    rw [if_neg hnone, mapM_header, (sent_of_not_recoded hrecoded).2]
    simp only [append_nil]
    cases message.sent.mapM (built crate) <;> rfl

/-- A response is parsed from its head and so much of its body. -/
theorem Message.parse_bytes (b : List UInt8) :
    parse_http_response crate (message.head.bytes ++ b) =
      (message.taken b).bind fun body =>
        match message.sent.mapM (built crate) with
        | .error e => .err ("Failed to build response: " ++ e)
        | .ok built => .ok ⟨message.head.code, built ++ message.added body, body⟩ := by
  rw [message.head.parse_bytes, message.body_of_headers]
  congr 1
  funext body
  rw [message.build_headers_eq]
  cases message.sent.mapM (built crate) <;> rfl

/-- A field is given back as it is, -/
def Field.Kept (field : Field) : Prop :=
  field.built crate = .ok field.entry

/-- or the crate does not take it. -/
def Field.Refused (field : Field) : Prop :=
  ∃ e, field.built crate = .error e

/-- With so much of the body, the code has all that it carries. -/
def Message.Covers (message : Message) (b : List UInt8) : Prop :=
  match message.body with
  | .sized data => b = data
  | .chunked framing _ => message.Lowercase ∧ ReadsAs framing b framing.data
  | .until_close data => b = data

/-- So much of the body is refused. -/
def Message.Undecodable (message : Message) (b : List UInt8) : Prop :=
  match message.body with
  | .chunked framing _ => message.Lowercase ∧ ∀ data, ¬ ReadsAs framing b data
  | _ => False

end Parsed

section Verdicts

variable {crate : HttpCrate} {message : Message} {b : List UInt8}

theorem Field.kept_of_visible {field : Field} (hlength : field.name.length < 65536)
    (h : ∀ b ∈ field.value, 32 ≤ b ∧ b < 127) : field.Kept crate := by
  unfold Field.Kept built header
  rw [field.trim_value h]
  exact crate.header_ok field.name field.value field.name_nonempty hlength field.name_token h

theorem Message.response_eq
    (hlower : ∀ framing trailers, message.body = .chunked framing trailers → message.Lowercase) :
    message.sent = message.kept ∧
      message.response = ⟨message.head.code,
        message.kept.map entry ++ message.added message.body.data, message.body.data⟩ := by
  unfold sent response added
  cases hbody : message.body with
  | sized data | until_close data => simp [kept, hbody]
  | chunked framing trailers => simp [hlower framing trailers hbody]

/-- A coding with capitals is not undone, so the answer still has its field. -/
theorem Message.parse_ne_of_capitals {framing : Framing chunk_size_line} {trailers : List Field}
    (hbody : message.body = .chunked framing trailers) (hlower : ¬ message.Lowercase) :
    parse_http_response crate (message.head.bytes ++ b) ≠ .ok message.response := by
  have hannounced := message.announced
  rw [hbody] at hannounced
  obtain ⟨⟨field, honly, hcoding⟩, -⟩ := hannounced
  have hfield : field ∈ message.head.fields := (mem_filter.mp (honly ▸ mem_singleton_self field)).1
  have hrecoded : ¬ message.Recoded := fun hrecoded => hlower hrecoded.2
  obtain ⟨hsent, hadded⟩ := sent_of_not_recoded hrecoded
  have htaken : message.taken b = .ok b := by
    unfold taken
    rw [hbody]
    exact if_neg hlower
  have hresponse : message.response.headers =
      message.kept.map entry ++ [length_entry message.body.data] := by
    unfold response
    rw [hbody]
  have hkept : ∀ field' ∈ message.kept, field'.lower_name ≠ "transfer-encoding".toList := by
    intro field' hfield'
    unfold kept at hfield'
    rw [hbody] at hfield'
    exact (not_framing (of_decide_eq_true (mem_filter.mp hfield').2)).2
  rw [message.parse_bytes, htaken, hsent]
  cases hmap : message.head.fields.mapM (built crate) with
  | error e =>
    intro hparse
    cases hparse
  | ok built =>
    intro hparse
    have hheaders : built ++ message.added b = message.response.headers :=
      congrArg Response.headers (Outcome.ok.inj hparse)
    rw [hadded, append_nil, hresponse] at hheaders
    obtain ⟨entry, hentry, hbuilt⟩ := mem_of_mapM hmap hfield
    have hlength : field.name.length = 17 := by
      simpa [lower_name, to_lowercase, ascii] using congrArg List.length hcoding.name
    have hkeep : field.Kept crate := kept_of_visible (by omega) fun b hb =>
      ⟨UInt8.le_of_lt (hcoding.value_visible b hb).1, (hcoding.value_visible b hb).2⟩
    rw [Field.Kept, hbuilt] at hkeep
    rw [Except.ok.inj hkeep, hheaders] at hentry
    rcases mem_append.mp hentry with hentry | hentry
    · obtain ⟨field', hfield', heq⟩ := List.mem_map.mp hentry
      exact hkept field' hfield' ((congrArg Prod.fst heq).trans hcoding.name)
    · have heq := congrArg Prod.fst (mem_singleton.mp hentry)
      exact absurd (hcoding.name.symm.trans heq)
        (show "transfer-encoding".toList ≠ "content-length".toList by decide)

variable (hb : b <+: message.body.bytes) (hlen : default.max_chunk_size + b.length ≤ u64_max)

include hb hlen

theorem Message.taken_eq_data_iff
    (hlower : ∀ framing trailers, message.body = .chunked framing trailers → message.Lowercase) :
    message.taken b = .ok message.body.data ↔ message.Covers b := by
  unfold taken Message.Covers
  cases hbody : message.body with
  | sized data =>
    rw [hbody] at hb
    have htake : b.take data.length = b := take_of_length_le hb.length_le
    simp [htake, Body.data]
  | chunked framing trailers =>
    rw [hbody] at hb
    have hspelled := hlower framing trailers hbody
    simp only [hspelled, if_true, true_and]
    exact (decode_beginning hb hlen).1 _
  | until_close data => simp [Body.data]

theorem Message.taken_err_iff : (∃ e, message.taken b = .err e) ↔ message.Undecodable b := by
  unfold taken Message.Undecodable
  cases hbody : message.body with
  | sized data | until_close data => simp
  | chunked framing trailers =>
    rw [hbody] at hb
    by_cases hlower : message.Lowercase
    · simp only [hlower, if_true, true_and]
      exact (decode_beginning hb hlen).2
    · simp [hlower]

theorem Message.taken_ne_panic : message.taken b ≠ .panic := by
  unfold taken
  cases hbody : message.body with
  | sized data => simp
  | chunked framing trailers =>
    rw [hbody] at hb
    by_cases hlower : message.Lowercase
    · simp only [hlower, if_true]
      rcases readsAs_of_decode hb hlen with ⟨e, he⟩ | ⟨data, hdata⟩
      · simp [decode_chunked_body, he, Outcome.map_err]
      · simp [((decode_beginning hb hlen).1 data).mpr hdata]
    · simp [hlower]
  | until_close data => simp

/-- When the right answer comes of so much of the body, -/
theorem Message.parse_ok_iff :
    parse_http_response crate (message.head.bytes ++ b) = .ok message.response ↔
      message.Covers b ∧ ∀ field ∈ message.kept, field.Kept crate := by
  by_cases hlower : ∀ framing trailers, message.body = .chunked framing trailers → message.Lowercase
  · obtain ⟨hsent, hresponse⟩ := response_eq hlower
    rw [message.parse_bytes, ← taken_eq_data_iff hb hlen hlower, hsent, hresponse]
    unfold Field.Kept
    rw [← mapM_eq_ok_map_iff]
    cases htaken : message.taken b with
    | panic => exact absurd htaken (taken_ne_panic hb hlen)
    | err e => simp [Outcome.bind]
    | ok body =>
      cases hmap : message.kept.mapM (built crate) with
      | error e => simp [Outcome.bind]
      | ok built =>
        simp only [Outcome.bind]
        constructor
        · intro hparse
          obtain ⟨-, hheaders, hbody⟩ := Response.mk.inj (Outcome.ok.inj hparse)
          rw [hbody] at hheaders ⊢
          exact ⟨rfl, congrArg Except.ok (append_cancel_right hheaders)⟩
        · rintro ⟨hbody, hbuilt⟩
          rw [Outcome.ok.inj hbody, Except.ok.inj hbuilt]
  · push Not at hlower
    obtain ⟨framing, trailers, hbody, hcapitals⟩ := hlower
    constructor
    · intro hparse
      exact absurd hparse (parse_ne_of_capitals hbody hcapitals)
    · rintro ⟨hcovers, -⟩
      unfold Message.Covers at hcovers
      rw [hbody] at hcovers
      exact absurd hcovers.1 hcapitals

/-- and when an error does. -/
theorem Message.parse_err_iff :
    (∃ e, parse_http_response crate (message.head.bytes ++ b) = .err e) ↔
      message.Undecodable b ∨ ∃ field ∈ message.sent, field.Refused crate := by
  rw [message.parse_bytes, ← taken_err_iff hb hlen]
  have hbuilt := @mapM_eq_error_iff _ _ _ (built crate) message.sent
  cases htaken : message.taken b with
  | panic => exact absurd htaken (taken_ne_panic hb hlen)
  | err e => simp [Outcome.bind]
  | ok body =>
    cases hmap : message.sent.mapM (built crate) with
    | error e =>
      rw [hmap] at hbuilt
      have hrefused := hbuilt.mp ⟨e, rfl⟩
      exact ⟨fun _ => Or.inr hrefused, fun _ => ⟨_, rfl⟩⟩
    | ok built =>
      rw [hmap] at hbuilt
      constructor
      · rintro ⟨e, he⟩
        cases he
      · rintro (⟨e, he⟩ | hrefused)
        · cases he
        · obtain ⟨e, he⟩ := hbuilt.mpr hrefused
          cases he

end Verdicts

end HybridCache.SignedRequest
