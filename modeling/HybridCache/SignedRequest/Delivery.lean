/-
What comes back for a response that arrives in pieces.

The reader stops at the first read after which the bytes look complete, or are more than 100 MB, or
after which the stream ends; what it has by then is parsed. Looking complete is not being complete:
a body without a length looks complete with its head, and a chunked one as soon as the bytes end
like a last chunk. The result is what it should be exactly if the reader stops where the body is
there (`Sound`).
-/
import HybridCache.SignedRequest.Message

namespace HybridCache.SignedRequest

open Lib List

/-! ## Responses on the wire -/

structure Info where
  head : Head
  code_lt : head.code < 200
  no_framing : head.fields.filter Field.framing = []

def Info.message (info : Info) : Message where
  head := info.head
  body := .until_close []
  announced := info.no_framing

structure Exchange where
  infos : List Info
  final : Message
  code_ge : 200 ≤ final.head.code

def preamble (infos : List Info) : List UInt8 :=
  infos.flatMap fun info => info.head.bytes

def Exchange.wire (x : Exchange) : List UInt8 :=
  preamble x.infos ++ (x.final.head.bytes ++ x.final.body.bytes)

def Exchange.head_end (x : Exchange) : ℕ :=
  (preamble x.infos).length + x.final.head.bytes.length

/-- So many bytes look complete. -/
def Exchange.done (x : Exchange) (p : List UInt8) : Bool :=
  x.head_end ≤ p.length ∧ x.final.looks_complete (p.drop x.head_end)

open Exchange

section Wire

variable {crate : HttpCrate} {p : List UInt8}

theorem beginning_cases {a b : List UInt8} (hp : p <+: a ++ b) :
    (p <+: a ∧ p ≠ a) ∨ ∃ rest, p = a ++ rest ∧ rest <+: b := by
  rcases prefix_or_prefix_of_prefix hp (prefix_append a b) with hshort | ⟨rest, rfl⟩
  · by_cases heq : p = a
    · exact Or.inr ⟨[], by rw [heq, append_nil], nil_prefix⟩
    · exact Or.inl ⟨hshort, heq⟩
  · exact Or.inr ⟨rest, rfl, (prefix_append_right_inj a).mp hp⟩

theorem length_lt_of_beginning {a : List UInt8} (hp : p <+: a) (hne : p ≠ a) :
    p.length < a.length :=
  lt_of_le_of_ne hp.length_le fun heq => hne (hp.eq_of_length heq)

theorem extract_beginning (infos : List Info) {final : Message} (hcode : 200 ≤ final.head.code)
    (hp : p <+: preamble infos ++ (final.head.bytes ++ final.body.bytes)) :
    extract_final_response crate p =
      .ok (if (preamble infos).length + final.head.bytes.length ≤ p.length ∧
          final.looks_complete (p.drop ((preamble infos).length + final.head.bytes.length)) = true
        then some (p.drop (preamble infos).length) else none) := by
  induction infos generalizing p with
  | nil =>
    rw [preamble, flatMap_nil, nil_append] at hp
    rcases beginning_cases hp with ⟨hshort, hne⟩ | ⟨b, rfl, -⟩
    · have hlt := length_lt_of_beginning hshort hne
      rw [final.head.extract_cut crate hshort hne, if_neg]
      rintro ⟨hle, -⟩
      omega
    · rw [final.head.extract_final crate hcode, final.has_complete_bytes]
      simp [preamble]
  | cons info infos ih =>
    have hcons : preamble (info :: infos) = info.head.bytes ++ preamble infos := rfl
    rw [hcons, append_assoc] at hp
    rw [hcons, length_append]
    rcases beginning_cases hp with ⟨hshort, hne⟩ | ⟨rest, rfl, hrest⟩
    · have hlt := length_lt_of_beginning hshort hne
      rw [info.head.extract_cut crate hshort hne, if_neg]
      rintro ⟨hle, -⟩
      omega
    · rw [info.head.extract_info crate info.code_lt, ih hrest, length_append, Nat.add_assoc,
        drop_length_add_append, drop_length_add_append]
      simp only [Nat.add_le_add_iff_left]

theorem Exchange.extract_eq (x : Exchange) (hp : p <+: x.wire) :
    extract_final_response crate p =
      .ok (if x.done p then some (p.drop (preamble x.infos).length) else none) := by
  rw [extract_beginning x.infos x.code_ge hp]
  unfold done head_end
  simp only [Bool.decide_and, Bool.decide_eq_true, Bool.and_eq_true, decide_eq_true_eq]

end Wire

/-! ## Where the reader stops -/

/-- All that has been read. -/
def received (reads : List Read) : List UInt8 :=
  reads.flatMap Read.bytes

/-- The bytes after the first read with which they look complete or are too many. -/
def Exchange.stop (x : Exchange) (all_bytes : List UInt8) : List Read → Option (List UInt8)
  | [] => none
  | buffer :: reads =>
    if x.done (all_bytes ++ buffer.bytes) ∨ read_limit < (all_bytes ++ buffer.bytes).length then
      some (all_bytes ++ buffer.bytes)
    else x.stop (all_bytes ++ buffer.bytes) reads

/-- What is parsed of the bytes that were read. -/
def Exchange.parsed (x : Exchange) (p : List UInt8) : List UInt8 :=
  if x.done p then p.drop (preamble x.infos).length else p

/-- What an ending makes of the bytes that were read. -/
def Ending.outcome (all_bytes : List UInt8) : Ending → Option (Except String (List UInt8))
  | .closed => some (.ok all_bytes)
  | .failed e => some (.error ("Failed to read response: " ++ e))
  | .waiting => none

section Reading

variable {crate : HttpCrate} {x : Exchange} {p q : List UInt8} {reads : List Read}

theorem received_cons (buffer : Read) (reads : List Read) :
    received (buffer :: reads) = buffer.bytes ++ received reads := rfl

theorem Head.four_le_length (head : Head) : 4 ≤ head.bytes.length := by
  rw [head.length_bytes]
  omega

theorem Exchange.not_done_of_lt (h : p.length < 4) : x.done p = false := by
  have hhead := x.final.head.four_le_length
  apply decide_eq_false
  rintro ⟨hle, -⟩
  unfold head_end at hle
  omega

/-- The reader, told by where the exchange lets it stop: it parses there, or ends with the
stream. -/
theorem read_from_eq (ending : Ending) (hp : p ++ received reads <+: x.wire) :
    read_from crate p reads ending =
      match x.stop p reads with
      | some q => some (.ok (x.parsed q))
      | none => ending.outcome (p ++ received reads) := by
  induction reads generalizing p with
  | nil =>
    rw [received, flatMap_nil, append_nil]
    cases ending <;> rfl
  | cons buffer reads ih =>
    rw [received_cons, ← append_assoc] at hp ⊢
    have hfront : p ++ buffer.bytes <+: x.wire := (prefix_append _ _).trans hp
    have hextract : (if 4 ≤ (p ++ buffer.bytes).length then
        extract_final_response crate (p ++ buffer.bytes) else .ok none) =
          .ok (if x.done (p ++ buffer.bytes) then some (x.parsed (p ++ buffer.bytes))
            else none) := by
      by_cases hfour : 4 ≤ (p ++ buffer.bytes).length
      · rw [if_pos hfour, x.extract_eq hfront]
        unfold parsed
        split <;> rfl
      · rw [if_neg hfour, not_done_of_lt (by omega)]
        rfl
    rw [read_from]
    simp only [hextract, stop]
    by_cases hdone : x.done (p ++ buffer.bytes) = true
    · simp [hdone]
    · by_cases hlimit : read_limit < (p ++ buffer.bytes).length
      · have hparsed : x.parsed (p ++ buffer.bytes) = p ++ buffer.bytes := if_neg hdone
        simp only [hdone, hlimit, if_true, or_true, hparsed]
        rfl
      · simp only [hdone, hlimit, if_false, Bool.false_eq_true, or_self]
        exact ih hp

theorem Exchange.stop_spec (hp : p.length ≤ read_limit) (hdone : x.done p = false) :
    (∀ q ∈ x.stop p reads, q <+: p ++ received reads ∧ q.length ≤ read_limit + 8192) ∧
      (x.stop p reads = none →
        (p ++ received reads).length ≤ read_limit ∧ x.done (p ++ received reads) = false) := by
  induction reads generalizing p with
  | nil => simp [stop, received, hp, hdone]
  | cons buffer reads ih =>
    have hbuffer := buffer.length_le
    rw [received_cons, ← append_assoc, stop]
    split
    · refine ⟨?_, nofun⟩
      rintro _ ⟨⟩
      refine ⟨prefix_append _ _, ?_⟩
      rw [length_append]
      omega
    · rename_i hneither
      rw [not_or, not_lt, Bool.not_eq_true] at hneither
      exact ih hneither.2 hneither.1

end Reading

/-! ## The answer -/

/-- The responses arrive from their beginning on, in some way. -/
structure Delivery (x : Exchange) where
  reads : List Read
  ending : Ending
  begins : received reads <+: x.wire

/-- The responses are not all there. A body that ends with the stream is never cut, but only
shorter. -/
def Exchange.CutShort (x : Exchange) (p : List UInt8) : Prop :=
  p ≠ x.wire ∧ ((∃ data, x.final.body = .until_close data) → p.length < x.head_end)

/-- The responses are all there. What ends with the stream is there when the stream has ended. -/
def Delivery.Complete {x : Exchange} (d : Delivery x) : Prop :=
  received d.reads = x.wire ∧ ((∃ data, x.final.body = .until_close data) → d.ending = .closed)

/-- What should come back: the response, if it is all there, and an error, if the stream ends
before. -/
structure Answered (crate : HttpCrate) {x : Exchange} (d : Delivery x) : Prop where
  whole : d.Complete →
    receive crate d.reads d.ending = some (.ok x.final.response)
  cut : x.CutShort (received d.reads) → d.ending = .closed →
    ∃ e, receive crate d.reads d.ending = some (.err e)

/-- The reader ends with these bytes: it stops with them, or the stream ends. -/
def Delivery.Ends {x : Exchange} (d : Delivery x) (p : List UInt8) : Prop :=
  x.stop [] d.reads = some p ∨
    x.stop [] d.reads = none ∧ d.ending = .closed ∧ p = received d.reads

/-- With these bytes the reader has the body, and nothing before the response that it takes for
it. -/
structure Exchange.Whole (crate : HttpCrate) (x : Exchange) (p : List UInt8) : Prop where
  first : x.done p = true ∨ x.infos = []
  head : x.head_end ≤ p.length
  covers : x.final.Covers (p.drop x.head_end)
  kept : ∀ field ∈ x.final.kept, field.Kept crate

/-- The final response is refused with these bytes. -/
def Exchange.FinalRefused (crate : HttpCrate) (x : Exchange) (p : List UInt8) : Prop :=
  p.length < x.head_end ∨ x.final.Undecodable (p.drop x.head_end) ∨
    ∃ field ∈ x.final.sent, field.Refused crate

/-- What is parsed of these bytes is refused. -/
def Exchange.Refused (crate : HttpCrate) (x : Exchange) (p : List UInt8) : Prop :=
  match x.done p, x.infos with
  | false, info :: _ =>
    p.length < info.head.bytes.length ∨ ∃ field ∈ info.head.fields, field.Refused crate
  | _, _ => x.FinalRefused crate p

/-- The reader ends with a body that is there, or, if the responses are cut, with something that
is refused. -/
structure Sound (crate : HttpCrate) {x : Exchange} (d : Delivery x) : Prop where
  whole : d.Complete → ∃ p, d.Ends p ∧ x.Whole crate p
  cut : x.CutShort (received d.reads) → d.ending = .closed → ∃ p, d.Ends p ∧ x.Refused crate p

section Answers

variable {crate : HttpCrate} {x : Exchange} {p : List UInt8}

theorem Exchange.split (hp : p <+: x.wire) (hle : x.head_end ≤ p.length) :
    p = preamble x.infos ++ (x.final.head.bytes ++ p.drop x.head_end) ∧
      p.drop x.head_end <+: x.final.body.bytes := by
  have hwire : x.wire = (preamble x.infos ++ x.final.head.bytes) ++ x.final.body.bytes := by
    rw [wire, append_assoc]
  have hend : x.head_end = (preamble x.infos ++ x.final.head.bytes).length := by
    rw [length_append]
    rfl
  rw [hwire] at hp
  rcases beginning_cases hp with ⟨hshort, hne⟩ | ⟨b, rfl, hb⟩
  · have hlt := length_lt_of_beginning hshort hne
    omega
  · rw [hend, drop_left, append_assoc]
    exact ⟨rfl, hb⟩

theorem Exchange.head_end_le_of_done (hdone : x.done p = true) : x.head_end ≤ p.length :=
  (of_decide_eq_true hdone).1

/-- Once the final head is in, the informational responses are skipped and the rest is parsed. -/
theorem Exchange.parsed_final (hp : p <+: x.wire) (hle : x.head_end ≤ p.length)
    (hfirst : x.done p = true ∨ x.infos = []) :
    x.parsed p = x.final.head.bytes ++ p.drop x.head_end := by
  have hsplit := (x.split hp hle).1
  unfold parsed
  by_cases hdone : x.done p = true
  · rw [if_pos hdone]
    conv_lhs => rw [hsplit]
    rw [drop_left]
  · have hnil : x.infos = [] := hfirst.resolve_left hdone
    rw [if_neg hdone]
    conv_lhs => rw [hsplit]
    rw [hnil]
    rfl

theorem Exchange.parsed_of_not_done (hdone : x.done p = false) : x.parsed p = p := by
  unfold parsed
  rw [hdone, if_neg Bool.false_ne_true]

theorem parse_short {head : Head} {rest : List UInt8} (hp : p <+: head.bytes ++ rest)
    (hlt : p.length < head.bytes.length) : ∃ e, parse_http_response crate p = .err e := by
  rcases beginning_cases hp with ⟨hshort, hne⟩ | ⟨b, rfl, -⟩
  · exact ⟨_, head.parse_cut crate hshort hne⟩
  · rw [length_append] at hlt
    omega

theorem Info.parse_bytes (info : Info) (b : List UInt8) :
    (∀ r, parse_http_response crate (info.head.bytes ++ b) = .ok r → r.status < 200) ∧
      ((∃ e, parse_http_response crate (info.head.bytes ++ b) = .err e) ↔
        ∃ field ∈ info.head.fields, field.Refused crate) := by
  have hparse := info.message.parse_bytes crate b
  have herror := @mapM_eq_error_iff _ _ _ (Field.built crate) info.head.fields
  rw [show info.message.taken b = .ok b from rfl,
    show info.message.sent = info.head.fields from rfl] at hparse
  rw [show info.head.bytes = info.message.head.bytes from rfl, hparse]
  unfold Field.Refused
  rw [← herror]
  cases info.head.fields.mapM (Field.built crate) with
  | error e =>
    refine ⟨?_, fun _ => ⟨e, rfl⟩, fun _ => ⟨_, rfl⟩⟩
    intro r hr
    cases hr
  | ok built =>
    refine ⟨?_, ?_, ?_⟩
    · intro r hr
      rw [← Outcome.ok.inj hr]
      exact info.code_lt
    all_goals
      rintro ⟨e, he⟩
      cases he

theorem Exchange.parsed_info {info : Info} {infos : List Info} (hp : p <+: x.wire)
    (hdone : x.done p = false) (hinfos : x.infos = info :: infos) :
    (∀ r, parse_http_response crate (x.parsed p) = .ok r → r.status < 200) ∧
      ((∃ e, parse_http_response crate (x.parsed p) = .err e) ↔
        p.length < info.head.bytes.length ∨ ∃ field ∈ info.head.fields, field.Refused crate) := by
  have hwire : x.wire = info.head.bytes ++
      (preamble infos ++ (x.final.head.bytes ++ x.final.body.bytes)) := by
    rw [wire, hinfos, preamble, flatMap_cons, append_assoc]
    rfl
  rw [hwire] at hp
  rw [parsed_of_not_done hdone]
  rcases beginning_cases hp with ⟨hshort, hne⟩ | ⟨b, rfl, -⟩
  · have hlt := length_lt_of_beginning hshort hne
    have herr := info.head.parse_cut crate hshort hne
    refine ⟨?_, fun _ => Or.inl hlt, fun _ => ⟨_, herr⟩⟩
    intro r hr
    rw [herr] at hr
    cases hr
  · obtain ⟨hstatus, herr⟩ := @Info.parse_bytes crate info b
    refine ⟨hstatus, herr.trans ⟨Or.inr, ?_⟩⟩
    rintro (hlt | hrefused)
    · rw [length_append] at hlt
      omega
    · exact hrefused

theorem Exchange.parsed_short (hp : p <+: x.wire) (hfirst : x.done p = true ∨ x.infos = [])
    (hlt : p.length < x.head_end) : ∃ e, parse_http_response crate (x.parsed p) = .err e := by
  have hdone : x.done p = false := by
    rw [Bool.eq_false_iff]
    intro hdone
    have hle := head_end_le_of_done hdone
    omega
  have hnil : x.infos = [] := hfirst.resolve_left (by rw [hdone]; exact Bool.false_ne_true)
  rw [wire, hnil] at hp
  rw [head_end, hnil] at hlt
  rw [parsed_of_not_done hdone]
  exact parse_short hp (by simpa [preamble] using hlt)

section

variable (hp : p <+: x.wire)
  (hlen : ChunkedDecodeConfig.default.max_chunk_size + p.length ≤ u64_max)

include hp hlen

/-- The final response comes out of exactly the bytes that hold all of it. -/
theorem Exchange.parsed_ok_iff :
    parse_http_response crate (x.parsed p) = .ok x.final.response ↔ x.Whole crate p := by
  by_cases hfirst : x.done p = true ∨ x.infos = []
  · by_cases hle : x.head_end ≤ p.length
    · obtain ⟨-, hb⟩ := x.split hp hle
      have hdrop : (p.drop x.head_end).length ≤ p.length := by
        rw [length_drop]
        omega
      rw [parsed_final hp hle hfirst, Message.parse_ok_iff hb (by omega)]
      exact ⟨fun ⟨hcovers, hkept⟩ => ⟨hfirst, hle, hcovers, hkept⟩,
        fun hwhole => ⟨hwhole.covers, hwhole.kept⟩⟩
    · obtain ⟨e, he⟩ := @Exchange.parsed_short crate x p hp hfirst (by omega)
      rw [he]
      constructor
      · intro hok
        cases hok
      · intro hwhole
        exact absurd hwhole.head hle
  · rw [not_or, Bool.not_eq_true] at hfirst
    obtain ⟨info, infos, hinfos⟩ := exists_cons_of_ne_nil hfirst.2
    obtain ⟨hstatus, -⟩ := @Exchange.parsed_info crate x p info infos hp hfirst.1 hinfos
    constructor
    · intro hok
      -- the status of the answer is that of an informational response
      have hlt := hstatus _ hok
      exact absurd x.code_ge (by rw [not_le]; exact hlt)
    · intro hwhole
      rcases hwhole.first with hdone | hnil
      · rw [hfirst.1] at hdone
        cases hdone
      · exact absurd hnil hfirst.2

theorem Exchange.final_err_iff (hfirst : x.done p = true ∨ x.infos = []) :
    (∃ e, parse_http_response crate (x.parsed p) = .err e) ↔ x.FinalRefused crate p := by
  by_cases hle : x.head_end ≤ p.length
  · obtain ⟨-, hb⟩ := x.split hp hle
    have hdrop : (p.drop x.head_end).length ≤ p.length := by
      rw [length_drop]
      omega
    rw [parsed_final hp hle hfirst, Message.parse_err_iff hb (by omega)]
    exact (or_iff_right (by omega)).symm
  · exact ⟨fun _ => Or.inl (by omega), fun _ => parsed_short hp hfirst (by omega)⟩

theorem Exchange.parsed_err_iff :
    (∃ e, parse_http_response crate (x.parsed p) = .err e) ↔ x.Refused crate p := by
  unfold Exchange.Refused
  cases hdone : x.done p with
  | true => exact final_err_iff hp hlen (Or.inl hdone)
  | false =>
    cases hinfos : x.infos with
    | nil => exact final_err_iff hp hlen (Or.inr hinfos)
    | cons info infos => exact (parsed_info hp hdone hinfos).2

end

end Answers

section Deliveries

variable {crate : HttpCrate} {x : Exchange} {d : Delivery x} {p : List UInt8}

theorem Exchange.stop_nil_spec (reads : List Read) :
    (∀ q ∈ x.stop [] reads, q <+: received reads ∧ q.length ≤ read_limit + 8192) ∧
      (x.stop [] reads = none →
        (received reads).length ≤ read_limit ∧ x.done (received reads) = false) :=
  @stop_spec x [] reads (Nat.zero_le _) (not_done_of_lt (by simp))

theorem Delivery.Ends.beginning (h : d.Ends p) : p <+: x.wire ∧ p.length ≤ read_limit + 8192 := by
  rcases h with hstop | ⟨hstop, -, rfl⟩
  · exact ((x.stop_nil_spec d.reads).1 p hstop).imp_left (·.trans d.begins)
  · exact ⟨d.begins, Nat.le_add_right_of_le ((x.stop_nil_spec d.reads).2 hstop).1⟩

/-- A delivery that ends answers what the bytes read until then are parsed to. -/
theorem Delivery.Ends.receive_eq (h : d.Ends p) :
    receive crate d.reads d.ending = some (parse_http_response crate (x.parsed p)) := by
  have hread := @read_from_eq crate x [] d.reads d.ending d.begins
  unfold receive read_response
  rw [hread]
  rcases h with hstop | ⟨hstop, hclosed, rfl⟩
  · rw [hstop]
    rfl
  · rw [hstop, hclosed, parsed_of_not_done ((x.stop_nil_spec d.reads).2 hstop).2]
    rfl

theorem Delivery.ends_of_receive {r : Response}
    (h : receive crate d.reads d.ending = some (.ok r)) : ∃ p, d.Ends p := by
  have hread := @read_from_eq crate x [] d.reads d.ending d.begins
  unfold receive read_response at h
  rw [hread] at h
  cases hstop : x.stop [] d.reads with
  | some p => exact ⟨p, Or.inl hstop⟩
  | none =>
    rw [hstop] at h
    cases hending : d.ending with
    | closed => exact ⟨_, Or.inr ⟨hstop, hending, rfl⟩⟩
    | failed e | waiting =>
      rw [hending] at h
      cases h

theorem Delivery.ends_of_closed (h : d.ending = .closed) : ∃ p, d.Ends p := by
  cases hstop : x.stop [] d.reads with
  | some p => exact ⟨p, Or.inl hstop⟩
  | none => exact ⟨_, Or.inr ⟨hstop, h, rfl⟩⟩

theorem limit_fits (h : p.length ≤ read_limit + 8192) :
    ChunkedDecodeConfig.default.max_chunk_size + p.length ≤ u64_max := by
  simp only [read_limit] at h
  simp only [ChunkedDecodeConfig.default, u64_max]
  omega

/-- **When the answer is right.** -/
theorem answered_iff_sound (crate : HttpCrate) (x : Exchange) (d : Delivery x) :
    Answered crate d ↔ Sound crate d := by
  constructor
  · intro h
    refine ⟨fun hall => ?_, fun hcut hclosed => ?_⟩
    · have hok := h.whole hall
      obtain ⟨p, hp⟩ := Delivery.ends_of_receive hok
      obtain ⟨hbegins, hlen⟩ := hp.beginning
      rw [hp.receive_eq] at hok
      exact ⟨p, hp, (parsed_ok_iff hbegins (limit_fits hlen)).mp (Option.some.inj hok)⟩
    · obtain ⟨e, he⟩ := h.cut hcut hclosed
      obtain ⟨p, hp⟩ := Delivery.ends_of_closed hclosed
      obtain ⟨hbegins, hlen⟩ := hp.beginning
      rw [hp.receive_eq] at he
      exact ⟨p, hp, (parsed_err_iff hbegins (limit_fits hlen)).mp
        ⟨e, Option.some.inj he⟩⟩
  · intro h
    refine ⟨fun hall => ?_, fun hcut hclosed => ?_⟩
    · obtain ⟨p, hp, hwhole⟩ := h.whole hall
      obtain ⟨hbegins, hlen⟩ := hp.beginning
      rw [hp.receive_eq, (parsed_ok_iff hbegins (limit_fits hlen)).mpr hwhole]
    · obtain ⟨p, hp, hrefused⟩ := h.cut hcut hclosed
      obtain ⟨hbegins, hlen⟩ := hp.beginning
      obtain ⟨e, he⟩ := (@Exchange.parsed_err_iff crate x p hbegins (limit_fits hlen)).mpr hrefused
      exact ⟨e, by rw [hp.receive_eq, he]⟩

end Deliveries

/-! ## Answers that are wrong -/

section Wrong

def token_crate : HttpCrate where
  from_u16 n := if 100 ≤ n ∧ n < 1000 then .ok n else .error "invalid status code"
  header name value :=
    if to_utf8 name = [] ∨ (to_utf8 name).all is_tchar = false then
      .error "invalid HTTP header name"
    else if (to_utf8 value).all is_text then .ok (to_lowercase name, to_utf8 value)
    else .error "failed to parse header value"
  from_u16_ok := by
    intro n hge hlt
    rw [if_pos ⟨hge, hlt⟩]
  header_ok := by
    intro name value hne _ hname hvalue
    have hascii : ∀ b ∈ value, b.toNat < 128 := by
      intro b hb
      have hlt := UInt8.lt_iff_toNat_lt.mp (hvalue b hb).2
      exact hlt.trans (by decide)
    have htext : value.all is_text = true := by
      rw [List.all_eq_true]
      intro b hb
      obtain ⟨hge, hlt⟩ := hvalue b hb
      exact decide_eq_true (Or.inr ⟨hge, UInt8.ne_of_lt hlt⟩)
    rw [to_utf8_ascii fun b hb => (tchar_facts (hname b hb)).1, to_utf8_ascii hascii, if_neg,
      if_pos htext]
    rintro (hnil | hall)
    · exact hne hnil
    · rw [List.all_eq_true.mpr hname] at hall
      cases hall

def bytes_of (s : String) : List UInt8 :=
  to_utf8 s.toList

/-- A field with a blank before its value, and none in it. -/
def field_of (name value : String) (hne : bytes_of name ≠ [])
    (hname : (bytes_of name).all is_tchar = true)
    (hvalue : (bytes_of value).all (fun b => is_text b ∧ b ≠ 32 ∧ b ≠ 9) = true) : Field where
  name := bytes_of name
  before := [32]
  value := bytes_of value
  after := []
  name_nonempty := hne
  name_token := List.all_eq_true.mp hname
  blanks := by simp
  value_text := fun b hb => (of_decide_eq_true (List.all_eq_true.mp hvalue b hb)).1
  value_trimmed := by
    intro b hends
    have hb : b ∈ bytes_of value := by
      rcases hends with hhead | hlast
      · exact mem_of_mem_head? hhead
      · exact mem_of_getLast? hlast
    exact (of_decide_eq_true (List.all_eq_true.mp hvalue b hb)).2

def head_of (code : ℕ) (reason : String) (fields : List Field) (hge : 100 ≤ code)
    (hlt : code < 1000) (hreason : (bytes_of reason).all is_text = true) : Head where
  code := code
  reason := bytes_of reason
  fields := fields
  code_ge := hge
  code_lt := hlt
  reason_text := List.all_eq_true.mp hreason

def length_field : Field :=
  field_of "Content-Length" "2" (by decide +kernel) (by decide +kernel) (by decide +kernel)

theorem length_field_measures : length_field.Measures (bytes_of "ab") where
  name := by decide +kernel
  decimal := by
    refine ⟨by decide +kernel, ?_⟩
    intro b hb
    rw [mem_singleton.mp (show b ∈ [50] from hb)]
    decide
  size := by decide +kernel
  fits := by decide +kernel

def coding_field : Field :=
  field_of "Transfer-Encoding" "chunked" (by decide +kernel) (by decide +kernel)
    (by decide +kernel)

theorem coding_field_coding : coding_field.Coding := ⟨by decide +kernel, by decide +kernel⟩

def go_on : Info :=
  ⟨head_of 100 "Continue" [] (by decide) (by decide) (by decide +kernel), by decide, rfl⟩

def two_bytes (infos : List Info) : Exchange where
  infos := infos
  final :=
    { head := head_of 200 "OK" [length_field] (by decide) (by decide) (by decide +kernel)
      body := .sized (bytes_of "ab")
      announced := ⟨length_field, filter_cons_of_pos (by decide +kernel),
        length_field_measures⟩ }
  code_ge := by decide

/-- Two chunks. The first has a payload that ends in a zero and a line end. -/
def two_chunks : Exchange where
  infos := []
  final :=
    { head := head_of 200 "OK" [coding_field] (by decide) (by decide) (by decide +kernel)
      body := .chunked
        { chunks :=
            [⟨[52], bytes_of "x0\r\n", isLine_of_notMem (by decide), by decide +kernel,
                by decide +kernel⟩,
              ⟨[49], bytes_of "y", isLine_of_notMem (by decide), by decide +kernel,
                by decide +kernel⟩]
          last := [48]
          tail := crlf
          is_line := isLine_of_notMem (by decide)
          size := by decide +kernel } []
      announced := ⟨⟨coding_field, filter_cons_of_pos (by decide +kernel),
        coding_field_coding⟩, rfl⟩ }
  code_ge := by decide

def closing : Exchange where
  infos := []
  final :=
    { head := head_of 200 "OK" [] (by decide) (by decide) (by decide +kernel)
      body := .until_close (bytes_of "ab")
      announced := rfl }
  code_ge := by decide

def cut_at (x : Exchange) (n : ℕ) (hn : 0 < n ∧ n < x.wire.length) (hle : x.wire.length ≤ 8192) :
    Delivery x where
  reads :=
    [⟨x.wire.take n, ne_nil_of_length_pos (by rw [length_take]; omega),
      by rw [length_take]; omega⟩]
  ending := .closed
  begins := by simp [received, take_prefix]

def in_two (x : Exchange) (n : ℕ) (hn : 0 < n ∧ n < x.wire.length) (hle : x.wire.length ≤ 8192) :
    Delivery x where
  reads :=
    (cut_at x n hn hle).reads ++
      [⟨x.wire.drop n, ne_nil_of_length_pos (by rw [length_drop]; omega),
        by rw [length_drop]; omega⟩]
  ending := .closed
  begins := by simp [received, cut_at]

theorem in_two_complete (x : Exchange) (n : ℕ) (hn : 0 < n ∧ n < x.wire.length)
    (hle : x.wire.length ≤ 8192) : (in_two x n hn hle).Complete :=
  ⟨by simp [in_two, cut_at, received], fun _ => rfl⟩

def half_body : Delivery (two_bytes []) :=
  cut_at _ 39 (by decide +kernel) (by decide +kernel)

def no_final : Delivery (two_bytes [go_on]) :=
  cut_at _ 25 (by decide +kernel) (by decide +kernel)

def chunk_by_chunk : Delivery two_chunks :=
  in_two _ 56 (by decide +kernel) (by decide +kernel)

def head_then_body : Delivery closing :=
  in_two _ 19 (by decide +kernel) (by decide +kernel)

theorem not_answered_of_cut {crate : HttpCrate} {x : Exchange} {d : Delivery x} {r : Response}
    (hcut : x.CutShort (received d.reads)) (hclosed : d.ending = .closed)
    (hok : receive crate d.reads d.ending = some (.ok r)) : ¬ Answered crate d := by
  intro h
  obtain ⟨e, he⟩ := h.cut hcut hclosed
  rw [hok] at he
  cases he

/-- A client that is not answered takes this for the response. -/
def TakenFor {x : Exchange} (d : Delivery x) (r : Response) : Prop :=
  receive token_crate d.reads d.ending = some (.ok r) ∧ ¬ Answered token_crate d

/-- A body that is cut short is returned, and so is an informational response; of chunks that look
complete the rest is lost, and of a body without a length all that comes after the first read. -/
theorem wrong_answers :
    TakenFor half_body ⟨200, [length_field.entry], bytes_of "a"⟩ ∧
    TakenFor no_final ⟨100, [], []⟩ ∧
    TakenFor chunk_by_chunk ⟨200, [length_entry (bytes_of "x0\r\n")], bytes_of "x0\r\n"⟩ ∧
    TakenFor head_then_body ⟨200, [], []⟩ := by
  have hhalf : receive token_crate half_body.reads half_body.ending =
      some (.ok ⟨200, [length_field.entry], bytes_of "a"⟩) := by
    decide +kernel
  have hinfo : receive token_crate no_final.reads no_final.ending = some (.ok ⟨100, [], []⟩) := by
    decide +kernel
  refine ⟨⟨hhalf, ?_⟩, ⟨hinfo, ?_⟩, ⟨by decide +kernel, ?_⟩, ⟨by decide +kernel, ?_⟩⟩
  · exact not_answered_of_cut ⟨by decide +kernel, fun ⟨_, hbody⟩ => nomatch hbody⟩ rfl hhalf
  · exact not_answered_of_cut ⟨by decide +kernel, fun ⟨_, hbody⟩ => nomatch hbody⟩ rfl hinfo
  all_goals
    intro h
    exact absurd (h.whole (in_two_complete ..)) (by decide +kernel)

end Wrong

end HybridCache.SignedRequest
