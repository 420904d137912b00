/-
The streaming aws-chunked decoder (`IncrementalAwsChunkedDecoder`).

Cutting a slice in two changes nothing (`push_append`), so a row of slices is decoded as the body
that they make up. What is accepted is what the whole-buffer decoder accepts (`Decoder`), but for
the bounds on the header line and the trailer section that are kept between slices.

The counters have no bound in the model; a body is far shorter than `u64::MAX`.
-/
import HybridCache.AwsChunked.Decoder

namespace HybridCache.AwsChunked

open Lib List

inductive DecoderState where
  | Header
  | Data (remaining : ℕ)
  | DataCrlf (seen_cr : Bool)
  | Trailers
  | Done
deriving DecidableEq, Repr

structure IncrementalAwsChunkedDecoder where
  state : DecoderState
  line_buf : List UInt8
  decoded_len : ℕ
  trailers : List Trailer
  total_raw : ℕ
deriving DecidableEq, Repr

structure AwsChunkedTrailers where
  trailers : List Trailer
  decoded_len : ℕ
deriving DecidableEq, Repr

namespace IncrementalAwsChunkedDecoder

def new : IncrementalAwsChunkedDecoder := ⟨.Header, [], 0, [], 0⟩

def keep (d : IncrementalAwsChunkedDecoder) (text : List UInt8) : IncrementalAwsChunkedDecoder :=
  { d with line_buf := d.line_buf ++ text, total_raw := d.total_raw + text.length }

/-- The loop of `feed_line` and `feed_trailers`: bytes go into the buffer until it ends what is
read. The answer says whether it did, and what is left of the input. -/
def feed_until (ends : List UInt8 → Prop) [DecidablePred ends] (too_large : ℕ → AwsChunkedError)
    (d : IncrementalAwsChunkedDecoder) :
    List UInt8 → Except AwsChunkedError (Bool × IncrementalAwsChunkedDecoder × List UInt8)
  | [] => .ok (false, d, [])
  | b :: input =>
    let d := d.keep [b]
    if ends d.line_buf then .ok (true, d, input)
    else if d.line_buf.length > max_trailer_section_bytes then
      .error (too_large d.line_buf.length)
    else feed_until ends too_large d input

def feed_line (d : IncrementalAwsChunkedDecoder) (input : List UInt8) :
    Except AwsChunkedError (Bool × IncrementalAwsChunkedDecoder × List UInt8) :=
  (feed_until (crlf <:+ ·)
    (fun _ => .InvalidChunkHeader "Chunk header line exceeds maximum size") d input).map
    fun (complete, d, left) =>
      if complete then (true, { d with line_buf := d.line_buf.take (d.line_buf.length - 2) }, left)
      else (false, d, left)

def ends_section (lb : List UInt8) : Prop :=
  lb = crlf ∨ crlf ++ crlf <:+ lb

instance : DecidablePred ends_section := fun lb =>
  inferInstanceAs (Decidable (lb = crlf ∨ crlf ++ crlf <:+ lb))

def feed_trailers (d : IncrementalAwsChunkedDecoder) (input : List UInt8) :
    Except AwsChunkedError (Bool × IncrementalAwsChunkedDecoder × List UInt8) :=
  feed_until ends_section (fun size => .TrailerTooLarge size max_trailer_section_bytes) d input

variable {d d' : IncrementalAwsChunkedDecoder} {input left : List UInt8}

theorem feed_until_ok {ends : List UInt8 → Prop} [DecidablePred ends]
    {too_large : ℕ → AwsChunkedError} {complete : Bool}
    (h : feed_until ends too_large d input = .ok (complete, d', left)) :
    (complete → left.length < input.length) ∧ d'.state = d.state := by
  induction input generalizing d with
  | nil =>
    cases h
    exact ⟨Bool.noConfusion, rfl⟩
  | cons b input ih =>
    rw [feed_until] at h
    split at h
    · cases h
      exact ⟨fun _ => Nat.lt_succ_self _, rfl⟩
    · split_ifs at h
      obtain ⟨hlength, hstate⟩ := ih h
      exact ⟨fun hc => (hlength hc).trans (Nat.lt_succ_self _), hstate⟩

theorem feed_line_ok {complete : Bool} (h : d.feed_line input = .ok (complete, d', left)) :
    (complete → left.length < input.length) ∧ d'.state = d.state := by
  obtain ⟨⟨complete, d₁, left₁⟩, hfeed, h⟩ := except_map_eq_ok.mp h
  cases complete with
  | false | true =>
    cases h
    have hok := feed_until_ok hfeed
    exact hok

def begin_chunk (d : IncrementalAwsChunkedDecoder) (chunk_size : ℕ) :
    IncrementalAwsChunkedDecoder :=
  { d with line_buf := [], state := if chunk_size = 0 then .Trailers else .Data chunk_size }

def take_data (d : IncrementalAwsChunkedDecoder) (remaining take : ℕ) :
    IncrementalAwsChunkedDecoder :=
  { d with
    total_raw := d.total_raw + take
    decoded_len := d.decoded_len + take
    state := if remaining - take = 0 then .DataCrlf false else .Data (remaining - take) }

def take_crlf (d : IncrementalAwsChunkedDecoder) (seen_cr : Bool) : IncrementalAwsChunkedDecoder :=
  { d with
    total_raw := d.total_raw + 1
    state := if seen_cr then .Header else .DataCrlf true }

/-- What the loop of `push` has left to do. In the state `Data` with nothing remaining a round
reads no byte. -/
def work (d : IncrementalAwsChunkedDecoder) (input : List UInt8) : ℕ :=
  2 * input.length + match d.state with | .Data _ => 1 | _ => 0

theorem work_lt (h : left.length < input.length) : d'.work left < d.work input := by
  have hle : d'.work left ≤ 2 * left.length + 1 := by
    unfold work
    split <;> omega
  have hge : 2 * input.length ≤ d.work input := by
    unfold work
    omega
  omega

theorem work_take_data_lt {d : IncrementalAwsChunkedDecoder} {b : UInt8} {input : List UInt8}
    {remaining : ℕ} (hstate : d.state = .Data remaining) :
    (d.take_data remaining (min remaining (b :: input).length)).work
      ((b :: input).drop (min remaining (b :: input).length)) < d.work (b :: input) := by
  by_cases hzero : remaining = 0
  · -- no byte is read, but the state is not `Data` any more
    subst hzero
    simp only [work, take_data, hstate, Nat.zero_min, drop_zero, Nat.sub_zero, if_true]
    omega
  · apply work_lt
    rw [length_drop]
    simp only [length_cons]
    omega

/-- `push`: the decoder after a slice, and the bytes of the object in it. -/
def push (d : IncrementalAwsChunkedDecoder) (input : List UInt8) :
    Except AwsChunkedError (IncrementalAwsChunkedDecoder × List UInt8) :=
  match input with
  | [] => .ok (d, [])
  | b :: rest =>
    match _hstate : d.state with
    | .Header =>
      match _hfeed : d.feed_line (b :: rest) with
      | .error e => .error e
      | .ok (false, d', _) => .ok (d', [])
      | .ok (true, d', left) =>
        (header_size d'.line_buf).bind fun chunk_size => push (d'.begin_chunk chunk_size) left
    | .Data remaining =>
      let take := min remaining (b :: rest).length
      (push (d.take_data remaining take) ((b :: rest).drop take)).map fun (d', out) =>
        (d', (b :: rest).take take ++ out)
    | .DataCrlf seen_cr =>
      if b ≠ (if seen_cr then 10 else 13) then
        .error (.InvalidChunkHeader "Missing CRLF after chunk data")
      else push (d.take_crlf seen_cr) rest
    | .Trailers =>
      match _hfeed : d.feed_trailers (b :: rest) with
      | .error e => .error e
      | .ok (false, d', _) => .ok (d', [])
      | .ok (true, d', left) =>
        (parse_trailers 0 d'.line_buf).bind fun (trailers, _) =>
          push { d' with trailers := trailers, line_buf := [], state := .Done } left
    | .Done =>
      .error (.LengthMismatch d.total_raw (d.total_raw + (b :: rest).length))
termination_by d.work input
decreasing_by
  · exact work_lt ((feed_line_ok (by assumption)).1 rfl)
  · exact work_take_data_lt (by assumption)
  · exact work_lt (Nat.lt_succ_self _)
  · exact work_lt ((feed_until_ok (by assumption)).1 rfl)

def finish (d : IncrementalAwsChunkedDecoder) : Except AwsChunkedError AwsChunkedTrailers :=
  match d.state with
  | .Done => .ok ⟨d.trailers, d.decoded_len⟩
  | _ => .error .UnexpectedEof

/-- The slices of a body one after the other, up to the first error. -/
def push_all (d : IncrementalAwsChunkedDecoder) :
    List (List UInt8) → Except AwsChunkedError (IncrementalAwsChunkedDecoder × List UInt8)
  | [] => .ok (d, [])
  | slice :: slices =>
    (d.push slice).bind fun (d', out) =>
      (push_all d' slices).map fun (d'', more) => (d'', out ++ more)

end IncrementalAwsChunkedDecoder

open IncrementalAwsChunkedDecoder

/-- A body in slices through a new decoder: the object, and what `finish` returns. -/
def decode_slices (slices : List (List UInt8)) :
    Except AwsChunkedError (List UInt8 × AwsChunkedTrailers) :=
  (new.push_all slices).bind fun (d, object) =>
    d.finish.map fun trailers => (object, trailers)

/-! ## The split does not matter -/

/-- An error without the number of bytes that were found behind the end of a body: `push` counts
those of the slice only. -/
def AwsChunkedError.without_actual : AwsChunkedError → AwsChunkedError
  | .LengthMismatch expected _ => .LengthMismatch expected 0
  | e => e

section Same

variable {α β : Type} {x y z : Except AwsChunkedError α}

def Same (x y : Except AwsChunkedError α) : Prop :=
  x.mapError AwsChunkedError.without_actual = y.mapError AwsChunkedError.without_actual

theorem Same.refl : Same x x := rfl

theorem Same.symm (h : Same x y) : Same y x := Eq.symm h

theorem Same.trans (h : Same x y) (h' : Same y z) : Same x z := Eq.trans h h'

theorem Same.bind (h : Same x y) {f g : α → Except AwsChunkedError β}
    (hfg : ∀ a, Same (f a) (g a)) : Same (x.bind f) (y.bind g) := by
  cases x with
  | error e =>
    cases y with
    | error e' =>
      have he : e.without_actual = e'.without_actual := by
        injection h
      show Except.error e.without_actual = Except.error e'.without_actual
      rw [he]
    | ok a => cases h
  | ok a =>
    cases y with
    | error e => cases h
    | ok b =>
      injection h with h
      rw [h]
      exact hfg b

theorem Same.map (h : Same x y) (f : α → β) : Same (x.map f) (y.map f) := h.bind fun _ => Same.refl

theorem Same.eq_ok (h : Same x y) {a : α} : x = .ok a ↔ y = .ok a := by
  cases x with
  | error e =>
    cases y with
    | error e' => simp
    | ok b => cases h
  | ok b =>
    cases y with
    | error e => cases h
    | ok c =>
      injection h with h
      rw [h]

end Same

namespace IncrementalAwsChunkedDecoder

variable {d : IncrementalAwsChunkedDecoder}

/-! ### The rounds of `push` -/

@[simp] theorem push_nil : d.push [] = .ok (d, []) := by
  rw [push]

theorem push_of_header (h : d.state = .Header) (input : List UInt8) :
    d.push input = (d.feed_line input).bind fun (complete, d', left) =>
      if complete then
        (header_size d'.line_buf).bind fun chunk_size => (d'.begin_chunk chunk_size).push left
      else .ok (d', []) := by
  cases input with
  | nil => rw [push_nil]; rfl
  | cons b rest =>
    rw [push]
    split <;> rename_i hstate <;> rw [h] at hstate <;> try cases hstate
    cases d.feed_line (b :: rest) with
    | error e => rfl
    | ok answer =>
      obtain ⟨complete, d', left⟩ := answer
      cases complete with
      | false | true => rfl

theorem push_of_trailers (h : d.state = .Trailers) (input : List UInt8) :
    d.push input = (d.feed_trailers input).bind fun (complete, d', left) =>
      if complete then
        (parse_trailers 0 d'.line_buf).bind fun (trailers, _) =>
          push { d' with trailers := trailers, line_buf := [], state := .Done } left
      else .ok (d', []) := by
  cases input with
  | nil => rw [push_nil]; rfl
  | cons b rest =>
    rw [push]
    split <;> rename_i hstate <;> rw [h] at hstate <;> try cases hstate
    cases d.feed_trailers (b :: rest) with
    | error e => rfl
    | ok answer =>
      obtain ⟨complete, d', left⟩ := answer
      cases complete with
      | false | true => rfl

variable {seen_cr : Bool}

theorem push_of_crlf (h : d.state = .DataCrlf seen_cr) (b : UInt8) (rest : List UInt8) :
    d.push (b :: rest) = if b ≠ (if seen_cr then 10 else 13) then
        .error (.InvalidChunkHeader "Missing CRLF after chunk data")
      else (d.take_crlf seen_cr).push rest := by
  rw [push]
  split <;> rename_i hstate <;> rw [h] at hstate <;> cases hstate
  rfl

variable {answer : IncrementalAwsChunkedDecoder × List UInt8} {b : UInt8} {remaining : ℕ}
  {input input' : List UInt8}

theorem push_crlf_eq_ok (h : d.state = .DataCrlf seen_cr) {rest : List UInt8}
    (hpush : d.push (b :: rest) = .ok answer) :
    b = (if seen_cr then 10 else 13) ∧ (d.take_crlf seen_cr).push rest = .ok answer := by
  rw [push_of_crlf h] at hpush
  by_cases hb : b = (if seen_cr then 10 else 13)
  · rw [if_neg (not_not.mpr hb)] at hpush
    exact ⟨hb, hpush⟩
  · rw [if_pos hb] at hpush
    cases hpush

theorem push_of_done (h : d.state = .Done) (b : UInt8) (rest : List UInt8) :
    d.push (b :: rest) =
      .error (.LengthMismatch d.total_raw (d.total_raw + (b :: rest).length)) := by
  rw [push]
  split <;> rename_i hstate <;> rw [h] at hstate <;> cases hstate

theorem push_of_data (h : d.state = .Data remaining) (b : UInt8) (rest : List UInt8) :
    d.push (b :: rest) =
      ((d.take_data remaining (min remaining (b :: rest).length)).push
        ((b :: rest).drop (min remaining (b :: rest).length))).map fun (d', out) =>
          (d', (b :: rest).take (min remaining (b :: rest).length) ++ out) := by
  rw [push]
  split <;> rename_i hstate <;> rw [h] at hstate <;> cases hstate
  rfl

/-! ### One byte at a time -/

/-- What comes out of a slice in front of what comes out of the slices after it. -/
def then_push (answer : IncrementalAwsChunkedDecoder × List UInt8) (input : List UInt8) :
    Except AwsChunkedError (IncrementalAwsChunkedDecoder × List UInt8) :=
  (answer.1.push input).map fun (d', out) => (d', answer.2 ++ out)

theorem then_push_nil_out : then_push (d, []) input = d.push input := by
  unfold then_push
  cases d.push input with
  | error e | ok answer => rfl

/-- What the first byte does does not depend on what follows it: it completes what is read, is one
too many, or is kept. -/
theorem feed_until_cons (ends : List UInt8 → Prop) [DecidablePred ends]
    (too_large : ℕ → AwsChunkedError) :
    (∀ input, feed_until ends too_large d (b :: input) = .ok (true, d.keep [b], input)) ∨
      (∃ e, ∀ input, feed_until ends too_large d (b :: input) = .error e) ∨
      ∀ input, feed_until ends too_large d (b :: input) =
        feed_until ends too_large (d.keep [b]) input := by
  by_cases hends : ends (d.keep [b]).line_buf
  · exact Or.inl fun input => if_pos hends
  · by_cases hlong : (d.keep [b]).line_buf.length > max_trailer_section_bytes
    · exact Or.inr (Or.inl ⟨_, fun input => (if_neg hends).trans (if_pos hlong)⟩)
    · exact Or.inr (Or.inr fun input => (if_neg hends).trans (if_neg hlong))

theorem push_cons_header (h : d.state = .Header) (b : UInt8) (input : List UInt8) :
    d.push (b :: input) = (d.push [b]).bind (then_push · input) := by
  rw [push_of_header h, push_of_header h]
  unfold feed_line
  rcases feed_until_cons (crlf <:+ ·)
      (fun _ => .InvalidChunkHeader "Chunk header line exceeds maximum size") with
    hdone | ⟨e, herror⟩ | hkept
  · -- the line is complete with this byte
    rw [hdone, hdone]
    simp only [Except.map, Except.bind, if_true, push_nil]
    cases header_size _ with
    | error e => rfl
    | ok chunk_size => exact then_push_nil_out.symm
  · rw [herror, herror]
    rfl
  · have hkeep : (d.keep [b]).state = .Header := h
    rw [hkept, hkept]
    show _ = then_push (d.keep [b], []) input
    rw [then_push_nil_out, push_of_header hkeep]
    rfl

theorem push_cons_trailers (h : d.state = .Trailers) (b : UInt8) (input : List UInt8) :
    d.push (b :: input) = (d.push [b]).bind (then_push · input) := by
  rw [push_of_trailers h, push_of_trailers h]
  unfold feed_trailers
  rcases feed_until_cons ends_section
      (fun size => .TrailerTooLarge size max_trailer_section_bytes) with
    hdone | ⟨e, herror⟩ | hkept
  · rw [hdone, hdone]
    simp only [Except.bind, if_true, push_nil]
    cases parse_trailers 0 _ with
    | error e => rfl
    | ok parsed => exact then_push_nil_out.symm
  · rw [herror, herror]
    rfl
  · have hkeep : (d.keep [b]).state = .Trailers := h
    rw [hkept, hkept]
    show _ = then_push (d.keep [b], []) input
    rw [then_push_nil_out, push_of_trailers hkeep]
    rfl

theorem push_cons_crlf (h : d.state = .DataCrlf seen_cr) (b : UInt8) (input : List UInt8) :
    d.push (b :: input) = (d.push [b]).bind (then_push · input) := by
  rw [push_of_crlf h, push_of_crlf h]
  by_cases hb : b ≠ (if seen_cr then 10 else 13)
  · rw [if_pos hb, if_pos hb]
    rfl
  · rw [if_neg hb, if_neg hb, push_nil]
    exact then_push_nil_out.symm

theorem take_data_take_data (n m : ℕ) :
    (d.take_data remaining n).take_data (remaining - n) m = d.take_data remaining (n + m) := by
  unfold take_data
  simp only [Nat.add_assoc, Nat.sub_sub]

theorem push_cons_data (h : d.state = .Data remaining) (b : UInt8) (input : List UInt8) :
    d.push (b :: input) = (d.push [b]).bind (then_push · input) := by
  rw [push_of_data h, push_of_data h]
  by_cases hzero : remaining = 0
  · subst hzero
    have hstate : (d.take_data 0 0).state = .DataCrlf false := rfl
    simp only [Nat.zero_min, drop_zero, take_zero]
    rw [push_cons_crlf hstate]
    cases (d.take_data 0 0).push [b] with
    | error e => rfl
    | ok answer =>
      show (then_push answer input).map _ = then_push (answer.1, [] ++ answer.2) input
      rw [nil_append]
      cases then_push answer input with
      | error e | ok answer => rfl
  · have hone : min remaining [b].length = 1 := by
      simp only [length_singleton]
      omega
    rw [hone]
    simp only [drop_one, tail_cons, push_nil]
    show _ = then_push (d.take_data remaining 1, [b]) input
    unfold then_push
    cases input with
    | nil =>
      rw [hone, push_nil]
      simp only [drop_one, tail_cons, push_nil]
      rfl
    | cons c rest =>
      by_cases hlast : remaining = 1
      · have hmin : min remaining (b :: c :: rest).length = 1 := by
          simp only [length_cons]
          omega
        rw [hmin]
        rfl
      · -- the rest of the chunk is taken by the second slice
        have hstate : (d.take_data remaining 1).state = .Data (remaining - 1) := by
          unfold take_data
          rw [if_neg (by omega)]
        have hmin : min remaining (b :: c :: rest).length =
            1 + min (remaining - 1) (c :: rest).length := by
          simp only [length_cons]
          omega
        rw [push_of_data hstate, take_data_take_data, hmin, Nat.add_comm 1, drop_succ_cons,
          take_succ_cons, Nat.add_comm _ 1]
        cases push _ _ with
        | error e | ok answer => rfl

theorem push_cons : Same (d.push (b :: input)) ((d.push [b]).bind (then_push · input)) := by
  cases hstate : d.state with
  | Header =>
    rw [push_cons_header hstate]
    exact Same.refl
  | Data remaining =>
    rw [push_cons_data hstate]
    exact Same.refl
  | DataCrlf seen_cr =>
    rw [push_cons_crlf hstate]
    exact Same.refl
  | Trailers =>
    rw [push_cons_trailers hstate]
    exact Same.refl
  | Done =>
    -- the errors differ in the number of bytes behind the end
    rw [push_of_done hstate, push_of_done hstate]
    rfl

theorem bind_then_push :
    (then_push answer input).bind (then_push · input') =
      ((answer.1.push input).bind (then_push · input')).map
        fun (d', out) => (d', answer.2 ++ out) := by
  unfold then_push
  cases answer.1.push input with
  | error e => rfl
  | ok answer' =>
    show (answer'.1.push input').map _ = ((answer'.1.push input').map _).map _
    cases answer'.1.push input' with
    | error e => rfl
    | ok answer'' =>
      show Except.ok (answer''.1, answer.2 ++ answer'.2 ++ answer''.2) = _
      rw [append_assoc]
      rfl

/-- **A slice may be cut anywhere.** -/
theorem push_append (d : IncrementalAwsChunkedDecoder) (input input' : List UInt8) :
    Same (d.push (input ++ input')) ((d.push input).bind (then_push · input')) := by
  induction input generalizing d with
  | nil =>
    rw [push_nil]
    show Same _ (then_push (d, []) input')
    rw [then_push_nil_out]
    exact Same.refl
  | cons b input ih =>
    have hassoc : ((d.push [b]).bind (then_push · input)).bind (then_push · input') =
        (d.push [b]).bind fun answer => (then_push answer input).bind (then_push · input') := by
      cases d.push [b] with
      | error e | ok answer => rfl
    refine push_cons.trans (Same.trans ?_
      (push_cons.symm.bind fun _ => Same.refl))
    rw [hassoc]
    refine Same.refl.bind fun answer => ?_
    rw [bind_then_push]
    exact (ih answer.1).map _

theorem push_all_same (d : IncrementalAwsChunkedDecoder) (slices : List (List UInt8)) :
    Same (d.push_all slices) (d.push slices.flatten) := by
  induction slices generalizing d with
  | nil =>
    rw [flatten_nil, push_nil]
    exact Same.refl
  | cons slice slices ih =>
    refine Same.trans ?_ (push_append d slice slices.flatten).symm
    exact Same.refl.bind fun answer => (ih answer.1).map _

end IncrementalAwsChunkedDecoder

theorem decode_slices_same (slices : List (List UInt8)) :
    Same (decode_slices slices)
      ((new.push slices.flatten).bind fun (d, object) =>
        d.finish.map fun trailers => (object, trailers)) :=
  (push_all_same _ slices).bind fun _ => Same.refl

/-! ## What the buffer collects -/

open Framing

namespace IncrementalAwsChunkedDecoder

section Feed

variable {ends : List UInt8 → Prop} [DecidablePred ends] {too_large : ℕ → AwsChunkedError}
  {d d' : IncrementalAwsChunkedDecoder} {input left : List UInt8} {b : UInt8} {text : List UInt8}

theorem keep_keep : (d.keep [b]).keep text = d.keep (b :: text) := by
  unfold keep
  simp only [append_assoc, singleton_append, length_cons, length_nil]
  congr 1
  omega

theorem keep_line_buf : (d.keep [b]).line_buf ++ text = d.line_buf ++ b :: text := by
  rw [keep, append_assoc]
  rfl

/-- What stands behind a buffer up to where it ends for the first time. -/
structure First (ends : List UInt8 → Prop) (start text : List UInt8) : Prop where
  nonempty : text ≠ []
  ends_here : ends (start ++ text)
  not_before : ∀ before, before <+: text → before ≠ [] → before ≠ text → ¬ ends (start ++ before)

theorem first_of_feed_until (hbuf : d.line_buf.length ≤ max_trailer_section_bytes)
    (h : feed_until ends too_large d input = .ok (true, d', left)) :
    ∃ text, input = text ++ left ∧ d' = d.keep text ∧ First ends d.line_buf text ∧
      (d.line_buf ++ text).length ≤ max_trailer_section_bytes + 1 := by
  induction input generalizing d with
  | nil => cases h
  | cons b input ih =>
    rw [feed_until] at h
    by_cases hends : ends (d.keep [b]).line_buf
    · rw [if_pos hends] at h
      cases h
      refine ⟨[b], rfl, rfl, ⟨by simp, hends, ?_⟩, ?_⟩
      · intro before hbefore hne hne'
        rcases prefix_cons_iff.mp hbefore with hnil | ⟨rest, rfl, hrest⟩
        · exact absurd hnil hne
        · rw [prefix_nil.mp hrest] at hne'
          exact absurd rfl hne'
      · rw [length_append, length_singleton]
        omega
    · rw [if_neg hends] at h
      split_ifs at h with hlong
      obtain ⟨text, rfl, rfl, hfirst, hlength⟩ := ih (Nat.le_of_not_lt hlong) h
      refine ⟨b :: text, rfl, keep_keep, ⟨by simp, ?_, ?_⟩, ?_⟩
      · rw [← keep_line_buf]
        exact hfirst.ends_here
      · intro before hbefore hne hne'
        rcases prefix_cons_iff.mp hbefore with hnil | ⟨rest, rfl, hrest⟩
        · exact absurd hnil hne
        · rw [← keep_line_buf]
          by_cases hrnil : rest = []
          · rw [hrnil, append_nil]
            exact hends
          · refine hfirst.not_before rest hrest hrnil fun heq => hne' ?_
            rw [heq]
      · rw [← keep_line_buf]
        exact hlength

theorem feed_until_first (hfirst : First ends d.line_buf text)
    (hlength : (d.line_buf ++ text).length ≤ max_trailer_section_bytes + 1) :
    feed_until ends too_large d (text ++ left) = .ok (true, d.keep text, left) := by
  induction text generalizing d with
  | nil => exact absurd rfl hfirst.nonempty
  | cons b text ih =>
    rw [cons_append, feed_until]
    by_cases hnil : text = []
    · subst hnil
      rw [if_pos (show ends (d.keep [b]).line_buf from hfirst.ends_here)]
      rfl
    · have hpos := length_pos_iff.mpr hnil
      have hends : ¬ ends (d.keep [b]).line_buf := by
        refine hfirst.not_before [b] ⟨text, rfl⟩ (by simp) fun heq => hnil ?_
        injection heq with _ heq
        exact heq.symm
      have hshort : ¬ (d.keep [b]).line_buf.length > max_trailer_section_bytes := by
        rw [keep, length_append, length_singleton]
        rw [length_append, length_cons] at hlength
        omega
      rw [if_neg hends, if_neg hshort, ih, keep_keep]
      · refine ⟨hnil, by rw [keep_line_buf]; exact hfirst.ends_here, ?_⟩
        intro before hbefore hne hne'
        rw [keep_line_buf]
        refine hfirst.not_before (b :: before) (cons_prefix_cons.mpr ⟨rfl, hbefore⟩) (by simp)
          fun heq => hne' ?_
        injection heq
      · rw [keep_line_buf]
        exact hlength

end Feed

/-! ## Header lines -/

section Line

variable {d d' : IncrementalAwsChunkedDecoder} {input left : List UInt8}

theorem feed_line_of_line (hbuf : d.line_buf = []) {line : List UInt8} (hline : IsLine line)
    (hshort : line.length < max_trailer_section_bytes) :
    ∃ d' : IncrementalAwsChunkedDecoder, d'.line_buf = line ∧ d'.decoded_len = d.decoded_len ∧
      d.feed_line (line ++ (crlf ++ left)) = .ok (true, d', left) := by
  have hfirst : First (crlf <:+ ·) d.line_buf (line ++ crlf) := by
    rw [hbuf]
    exact ⟨by simp [crlf], suffix_append line crlf,
      fun before hbefore _ hne => hline.not_crlf_suffix hbefore hne⟩
  have hlength : (d.line_buf ++ (line ++ crlf)).length ≤ max_trailer_section_bytes + 1 := by
    rw [hbuf]
    simp only [crlf, length_append, length_cons, length_nil]
    omega
  refine ⟨{ d.keep (line ++ crlf) with line_buf := line }, rfl, rfl, ?_⟩
  have hcut : (d.keep (line ++ crlf)).line_buf.take
      ((d.keep (line ++ crlf)).line_buf.length - 2) = line := by
    rw [keep, hbuf, nil_append, length_append]
    exact take_left
  rw [feed_line, ← append_assoc, feed_until_first hfirst hlength]
  simp only [Except.map, if_true, hcut]

theorem line_of_feed_line (hbuf : d.line_buf = [])
    (h : d.feed_line input = .ok (true, d', left)) :
    ∃ line, IsLine line ∧ line.length < max_trailer_section_bytes ∧
      input = line ++ (crlf ++ left) ∧ d'.line_buf = line := by
  obtain ⟨⟨complete, d₁, left₁⟩, hfeed, h⟩ := except_map_eq_ok.mp h
  cases complete with
  | false => cases h
  | true =>
    cases h
    obtain ⟨text, rfl, rfl, hfirst, hlength⟩ :=
      first_of_feed_until (by rw [hbuf]; exact Nat.zero_le _) hfeed
    rw [hbuf] at hfirst hlength
    obtain ⟨line, rfl⟩ := hfirst.ends_here
    refine ⟨line, isLine_of_first ?_, ?_, by rw [append_assoc], ?_⟩
    · intro before hbefore hne hsuffix
      refine hfirst.not_before before hbefore ?_ hne hsuffix
      rintro rfl
      exact absurd hsuffix.length_le (by decide)
    · simp only [length_append, crlf, length_cons, length_nil] at hlength
      omega
    · rw [keep, hbuf, nil_append, length_append]
      exact take_left

end Line

/-! ## Chunks -/

section Chunks

variable {d d' : IncrementalAwsChunkedDecoder} {input rest out : List UInt8}

structure AtHeader (d : IncrementalAwsChunkedDecoder) : Prop where
  state : d.state = .Header
  line_buf : d.line_buf = []

theorem push_payload {payload : List UInt8} (hstate : d.state = .Data payload.length)
    (hbuf : d.line_buf = []) (hne : payload ≠ []) :
    ∃ d' : IncrementalAwsChunkedDecoder, d'.AtHeader ∧
      d'.decoded_len = d.decoded_len + payload.length ∧
      d.push (payload ++ (crlf ++ rest)) =
        (d'.push rest).map fun (d'', out) => (d'', payload ++ out) := by
  obtain ⟨b, payload', rfl⟩ := exists_cons_of_ne_nil hne
  have hmin : min (b :: payload').length (b :: (payload' ++ (crlf ++ rest))).length =
      (b :: payload').length := by
    simp only [length_cons, length_append]
    omega
  let d₁ := d.take_data (b :: payload').length (b :: payload').length
  have hcr : d₁.state = .DataCrlf false := by
    show (if _ - _ = 0 then _ else _) = _
    rw [if_pos (Nat.sub_self _)]
  have hlf : (d₁.take_crlf false).state = .DataCrlf true := rfl
  refine ⟨(d₁.take_crlf false).take_crlf true, ⟨rfl, hbuf⟩, rfl, ?_⟩
  rw [cons_append, push_of_data hstate, hmin, ← cons_append, drop_left, take_left]
  show (d₁.push (13 :: 10 :: rest)).map _ = _
  rw [push_of_crlf hcr, if_neg (by simp), push_of_crlf hlf, if_neg (by simp)]

theorem payload_of_push {remaining : ℕ} (hstate : d.state = .Data remaining)
    (hbuf : d.line_buf = []) (h : d.push input = .ok (d', out)) (hdone : d'.state = .Done) :
    ∃ payload rest out' , ∃ d₁ : IncrementalAwsChunkedDecoder,
      input = payload ++ (crlf ++ rest) ∧ payload.length = remaining ∧ d₁.AtHeader ∧
        d₁.push rest = .ok (d', out') := by
  cases input with
  | nil =>
    rw [push_nil] at h
    cases h
    rw [hstate] at hdone
    cases hdone
  | cons b input =>
    rw [push_of_data hstate] at h
    obtain ⟨⟨d₁, out₁⟩, hpush, hout⟩ := except_map_eq_ok.mp h
    obtain ⟨rfl, -⟩ := Prod.mk.inj hout
    by_cases hle : (b :: input).length ≤ remaining
    · -- the slice ends in the chunk
      rw [Nat.min_eq_right hle, drop_length, push_nil] at hpush
      cases hpush
      unfold take_data at hdone
      split at hdone <;> cases hdone
    · have hlt : remaining < (b :: input).length := Nat.lt_of_not_le hle
      rw [Nat.min_eq_left hlt.le] at hpush
      have hcr : (d.take_data remaining remaining).state = .DataCrlf false := by
        unfold take_data
        rw [if_pos (Nat.sub_self _)]
      cases hdrop : (b :: input).drop remaining with
      | nil =>
        rw [drop_eq_nil_iff] at hdrop
        omega
      | cons c after =>
        rw [hdrop] at hpush
        obtain ⟨hc, hafter⟩ := push_crlf_eq_ok hcr hpush
        cases after with
        | nil =>
          rw [push_nil] at hafter
          cases hafter
          cases hdone
        | cons c' rest =>
          obtain ⟨hc', hrest⟩ := push_crlf_eq_ok rfl hafter
          refine ⟨(b :: input).take remaining, rest, _,
            ((d.take_data remaining remaining).take_crlf false).take_crlf true, ?_, ?_,
            ⟨rfl, hbuf⟩, hrest⟩
          · have hsplit := take_append_drop remaining (b :: input)
            rw [hdrop, hc, hc'] at hsplit
            exact hsplit.symm
          · rw [length_take]
            omega

theorem push_framing (f : Framing size_of) (hd : d.AtHeader)
    (hlines : ∀ line ∈ f.lines, line.length < max_trailer_section_bytes) :
    ∃ d' : IncrementalAwsChunkedDecoder, d'.state = .Trailers ∧ d'.line_buf = [] ∧
      d'.decoded_len = d.decoded_len + f.data.length ∧
      d.push f.bytes = (d'.push f.tail).map fun (d'', out) => (d'', f.data ++ out) := by
  induction f using induction_on generalizing d with
  | last f hnil =>
    have hshort : f.last.length < max_trailer_section_bytes := by
      apply hlines
      simp [Framing.lines]
    obtain ⟨d₁, hline, hlen, hfeed⟩ := feed_line_of_line hd.line_buf f.is_line hshort
    refine ⟨d₁.begin_chunk 0, rfl, rfl, ?_, ?_⟩
    · rw [data_of_nil hnil]
      exact hlen
    · rw [bytes_of_nil hnil, push_of_header hd.state, hfeed, data_of_nil hnil]
      show (header_size d₁.line_buf).bind _ = _
      rw [hline, size_of_eq_some.mp f.size]
      exact then_push_nil_out.symm
  | cons chunk f ih =>
    rw [lines_cons] at hlines
    obtain ⟨hshort, hlines'⟩ := forall_mem_cons.mp hlines
    have hpos : chunk.payload.length ≠ 0 := by
      rw [Ne, length_eq_zero_iff]
      exact chunk.nonempty
    obtain ⟨d₁, hline, hlen, hfeed⟩ := feed_line_of_line hd.line_buf chunk.is_line hshort
    have hdata : (d₁.begin_chunk chunk.payload.length).state = .Data chunk.payload.length := by
      unfold begin_chunk
      rw [if_neg hpos]
    obtain ⟨d₂, hd₂, hlen₂, hpush₂⟩ := push_payload hdata rfl chunk.nonempty
    obtain ⟨d', hstate, hbuf, hlen', hpush'⟩ := ih hd₂ hlines'
    refine ⟨d', hstate, hbuf, ?_, ?_⟩
    · have hlen₁ : (d₁.begin_chunk chunk.payload.length).decoded_len = d.decoded_len := hlen
      rw [data_cons, length_append]
      omega
    · rw [bytes_cons, push_of_header hd.state, hfeed]
      show (header_size d₁.line_buf).bind _ = _
      rw [hline, size_of_eq_some.mp chunk.size]
      show (d₁.begin_chunk chunk.payload.length).push _ = _
      rw [hpush₂, hpush', data_cons]
      show _ = (d'.push f.tail).map _
      cases d'.push f.tail with
      | error e => rfl
      | ok answer =>
        show Except.ok (answer.1, chunk.payload ++ (f.data ++ answer.2)) = _
        rw [← append_assoc]
        rfl

theorem framing_of_push (hd : d.AtHeader) (h : d.push input = .ok (d', out))
    (hdone : d'.state = .Done) :
    ∃ f : Framing size_of, f.bytes = input ∧
      ∀ line ∈ f.lines, line.length < max_trailer_section_bytes := by
  induction hn : input.length using Nat.strongRecOn generalizing d input out with
  | _ n ih =>
    rw [push_of_header hd.state] at h
    obtain ⟨⟨complete, d₁, left⟩, hfeed, hnext⟩ := except_bind_eq_ok.mp h
    cases complete with
    | false =>
      cases hnext
      rw [(feed_line_ok hfeed).2, hd.state] at hdone
      cases hdone
    | true =>
      obtain ⟨line, hline, hshort, rfl, hbuf⟩ := line_of_feed_line hd.line_buf hfeed
      obtain ⟨chunk_size, hsize, hchunk⟩ := except_bind_eq_ok.mp hnext
      rw [hbuf] at hsize
      by_cases hzero : chunk_size = 0
      · rw [hzero] at hsize
        exact ⟨⟨[], line, left, hline, size_of_eq_some.mpr hsize⟩, rfl,
          forall_mem_singleton.mpr hshort⟩
      · have hdata : (d₁.begin_chunk chunk_size).state = .Data chunk_size := by
          unfold begin_chunk
          rw [if_neg hzero]
        obtain ⟨payload, rest, out', d₂, rfl, rfl, hd₂, hpush⟩ :=
          payload_of_push hdata rfl hchunk hdone
        obtain ⟨f, rfl, hlines⟩ := ih rest.length (by
          rw [← hn]
          simp only [length_append]
          omega) hd₂ hpush rfl
        have hne : payload ≠ [] := by
          intro hnil
          rw [hnil] at hzero
          exact hzero rfl
        refine ⟨f.cons ⟨line, payload, hline, size_of_eq_some.mpr hsize, hne⟩, bytes_cons, ?_⟩
        rw [lines_cons]
        exact forall_mem_cons.mpr ⟨hshort, hlines⟩

end Chunks

/-! ## Trailers -/

section Section

variable {d d' : IncrementalAwsChunkedDecoder} {out : List UInt8}

def section_bytes (lines : List (List UInt8)) : List UInt8 :=
  lines.flatMap (· ++ crlf) ++ crlf

variable {trailers : List Trailer} {lines : List (List UInt8)} {tail : List UInt8}

theorem section_of_parse_trailers {consumed : ℕ} {rest left : List UInt8}
    (h : parse_trailers consumed rest = .ok (trailers, left)) :
    ∃ lines, (∀ line ∈ lines, IsLine line ∧ line ≠ []) ∧ rest = section_bytes lines ++ left := by
  induction hn : rest.length using Nat.strongRecOn generalizing consumed rest trailers with
  | _ n ih =>
    by_cases hfront : crlf <+: rest
    · obtain ⟨left', rfl⟩ := hfront
      rw [parse_trailers_end] at h
      cases h
      exact ⟨[], by simp, rfl⟩
    · cases hfind : find_crlf rest with
      | none =>
        rw [parse_trailers, if_neg hfront] at h
        split at h
        · cases h
        · simp_all
      | some line_end =>
        obtain ⟨line, rest', hline, rfl, rfl⟩ := find_crlf_eq_some hfind
        have hne : line ≠ [] := by
          rintro rfl
          exact hfront (prefix_append crlf rest')
        rw [parse_trailers_line hline hne] at h
        split at h
        case isTrue => cases h
        case isFalse =>
          obtain ⟨trailer, -, h⟩ := except_bind_eq_ok.mp h
          obtain ⟨⟨trailers', left'⟩, h, heq⟩ := except_map_eq_ok.mp h
          cases heq
          obtain ⟨lines, hlines, rfl⟩ := ih rest'.length (by
            rw [← hn]
            simp only [length_append, crlf, length_cons, length_nil]
            omega) h rfl
          refine ⟨line :: lines, ?_, ?_⟩
          · exact forall_mem_cons.mpr ⟨⟨hline, hne⟩, hlines⟩
          · simp only [section_bytes, flatMap_cons, append_assoc]

theorem ends_section_section_bytes : ends_section (section_bytes lines) := by
  unfold section_bytes
  rcases eq_nil_or_concat lines with rfl | ⟨lines, line, rfl⟩
  · exact Or.inl rfl
  · right
    refine ⟨lines.flatMap (· ++ crlf) ++ line, ?_⟩
    simp [append_assoc]

theorem crlf_suffix_of_ends_section {lb : List UInt8} (h : ends_section lb) : crlf <:+ lb := by
  rcases h with rfl | h
  · exact suffix_refl crlf
  · exact (suffix_append crlf crlf).trans h

theorem not_ends_section_before {start : List UInt8} (hstart : start = [] ∨ crlf <:+ start)
    (hlines : ∀ line ∈ lines, IsLine line ∧ line ≠ []) {before : List UInt8}
    (hbefore : before <+: section_bytes lines) (hnil : before ≠ [])
    (hne : before ≠ section_bytes lines) : ¬ ends_section (start ++ before) := by
  induction lines generalizing start before with
  | nil =>
    intro hends
    have hline : IsLine before := isLine_nil.of_prefix_crlf hbefore hne
    exact not_crlf_suffix_append hstart hline hnil (crlf_suffix_of_ends_section hends)
  | cons line lines ih =>
    obtain ⟨hline, hlne⟩ := hlines line mem_cons_self
    have hbytes : section_bytes (line :: lines) = (line ++ crlf) ++ section_bytes lines := by
      simp only [section_bytes, flatMap_cons, append_assoc]
    rw [hbytes] at hbefore hne
    by_cases hin : before <+: line ++ crlf
    · intro hends
      by_cases heq : before = line ++ crlf
      · -- at the end of a line that is not empty
        rw [heq, ← append_assoc] at hends
        rcases hends with hcrlf | ⟨t, ht⟩
        · have hlength := congrArg List.length hcrlf
          have hpos := length_pos_iff.mpr hlne
          simp only [length_append] at hlength
          omega
        · rw [← append_assoc] at ht
          exact not_crlf_suffix_append hstart hline hlne ⟨t, append_cancel_right ht⟩
      · exact not_crlf_suffix_append hstart (hline.of_prefix_crlf hin heq) hnil
          (crlf_suffix_of_ends_section hends)
    · have hover := prefix_or_prefix_of_prefix hbefore (prefix_append (line ++ crlf) _)
      obtain ⟨rest, rfl⟩ := hover.resolve_left hin
      have hrest : rest ≠ [] := by
        rintro rfl
        rw [append_nil] at hin
        exact hin (prefix_refl _)
      rw [← append_assoc]
      refine ih (Or.inr ?_) (fun l hl => hlines l (mem_cons_of_mem _ hl))
        ((prefix_append_right_inj _).mp hbefore) hrest fun heq => hne (by rw [heq])
      exact (suffix_append line crlf).trans (suffix_append start _)

theorem push_section (hstate : d.state = .Trailers) (hbuf : d.line_buf = [])
    (hparse : parse_trailers 0 tail = .ok (trailers, []))
    (hfits : tail.length ≤ max_trailer_section_bytes + 1) :
    ∃ d' : IncrementalAwsChunkedDecoder, d'.state = .Done ∧ d'.trailers = trailers ∧
      d'.decoded_len = d.decoded_len ∧ d.push tail = .ok (d', []) := by
  obtain ⟨lines, hlines, htail⟩ := section_of_parse_trailers hparse
  rw [append_nil] at htail
  have hfirst : First ends_section d.line_buf tail := by
    rw [hbuf, htail]
    refine ⟨by simp [section_bytes, crlf], ends_section_section_bytes, ?_⟩
    intro before hbefore hnil hne
    exact not_ends_section_before (Or.inl rfl) hlines hbefore hnil hne
  have hfeed : d.feed_trailers tail = .ok (true, d.keep tail, []) := by
    have hread := @feed_until_first ends_section _
      (fun size => .TrailerTooLarge size max_trailer_section_bytes) d [] tail hfirst
      (by rw [hbuf, nil_append]; exact hfits)
    rw [append_nil] at hread
    exact hread
  have hkeep : (d.keep tail).line_buf = tail := by
    rw [keep, hbuf]
    rfl
  refine ⟨{ d.keep tail with trailers := trailers, line_buf := [], state := .Done }, rfl, rfl,
    rfl, ?_⟩
  rw [push_of_trailers hstate, hfeed]
  show (parse_trailers 0 (d.keep tail).line_buf).bind _ = _
  rw [hkeep, hparse]
  exact push_nil

theorem section_of_push (hstate : d.state = .Trailers) (hbuf : d.line_buf = [])
    (h : d.push tail = .ok (d', out)) (hdone : d'.state = .Done) :
    parse_trailers 0 tail = .ok (d'.trailers, []) ∧
      tail.length ≤ max_trailer_section_bytes + 1 := by
  rw [push_of_trailers hstate] at h
  obtain ⟨⟨complete, d₁, left⟩, hfeed, hnext⟩ := except_bind_eq_ok.mp h
  cases complete with
  | false =>
    cases hnext
    rw [(feed_until_ok hfeed).2, hstate] at hdone
    cases hdone
  | true =>
    obtain ⟨text, rfl, rfl, hfirst, hlength⟩ :=
      first_of_feed_until (by rw [hbuf]; exact Nat.zero_le _) hfeed
    obtain ⟨⟨trailers, left'⟩, hparse, hrest⟩ := except_bind_eq_ok.mp hnext
    rw [keep, hbuf, nil_append] at hparse
    rw [hbuf] at hfirst hlength
    dsimp only at hrest
    -- bytes behind the section are an error
    cases left with
    | cons b left =>
      rw [push_of_done] at hrest
      · cases hrest
      · rfl
    | nil =>
      rw [push_nil] at hrest
      cases hrest
      rw [append_nil]
      refine ⟨?_, hlength⟩
      -- and the parser stops at the first end, which is the end of the text
      obtain ⟨lines, -, htext⟩ := section_of_parse_trailers hparse
      have heq : section_bytes lines = text := by
        by_contra hne
        exact hfirst.not_before _ ⟨left', htext.symm⟩ (by simp [section_bytes, crlf]) hne
          ends_section_section_bytes
      have hleft : left' = [] := by
        rw [heq] at htext
        exact append_right_eq_self.mp htext.symm
      rw [hparse, hleft]

end Section

theorem finish_eq_ok {d : IncrementalAwsChunkedDecoder} {result : AwsChunkedTrailers} :
    d.finish = .ok result ↔ d.state = .Done ∧ result = ⟨d.trailers, d.decoded_len⟩ := by
  unfold finish
  split
  case h_1 hdone =>
    rw [Except.ok.injEq]
    exact ⟨fun h => ⟨hdone, h.symm⟩, fun h => h.2.symm⟩
  case h_2 hdone => exact ⟨nofun, fun h => absurd h.1 hdone⟩

end IncrementalAwsChunkedDecoder

/-! ## The two decoders -/

section TwoDecoders

variable {slices : List (List UInt8)} {object : List UInt8} {result : AwsChunkedTrailers}

/-- **What the streaming decoder accepts**, however it is cut: the framings whose lines and whose
tail fit the buffer and whose tail is a trailer section with nothing after it. -/
theorem decode_slices_eq_ok :
    decode_slices slices = .ok (object, result) ↔
      ∃ f : Framing size_of, f.bytes = slices.flatten ∧
        (∀ line ∈ f.lines, line.length < max_trailer_section_bytes) ∧
        f.tail.length ≤ max_trailer_section_bytes + 1 ∧
        parse_trailers 0 f.tail = .ok (result.trailers, []) ∧
        object = f.data ∧ result.decoded_len = f.data.length := by
  have hnew : new.AtHeader := ⟨rfl, rfl⟩
  rw [(decode_slices_same slices).eq_ok]
  constructor
  · intro h
    obtain ⟨⟨d, out⟩, hpush, h⟩ := except_bind_eq_ok.mp h
    obtain ⟨result', hfinish, heq⟩ := except_map_eq_ok.mp h
    obtain ⟨rfl, rfl⟩ := Prod.mk.inj heq
    obtain ⟨hdone, rfl⟩ := finish_eq_ok.mp hfinish
    obtain ⟨f, hbytes, hlines⟩ := framing_of_push hnew hpush hdone
    obtain ⟨d₁, hstate, hbuf, hlen, hpush₁⟩ := push_framing f hnew hlines
    rw [← hbytes, hpush₁] at hpush
    obtain ⟨⟨d₂, out₂⟩, htail, heq⟩ := except_map_eq_ok.mp hpush
    obtain ⟨rfl, rfl⟩ := Prod.mk.inj heq
    obtain ⟨hparse, hfits⟩ := section_of_push hstate hbuf htail hdone
    obtain ⟨d₃, -, -, hlen₃, htail₃⟩ := push_section hstate hbuf hparse hfits
    rw [htail₃] at htail
    obtain ⟨rfl, rfl⟩ := Prod.mk.inj (Except.ok.inj htail)
    refine ⟨f, hbytes, hlines, hfits, hparse, append_nil _, ?_⟩
    rw [hlen₃, hlen]
    exact Nat.zero_add _
  · rintro ⟨f, hbytes, hlines, hfits, hparse, rfl, hlen⟩
    obtain ⟨d₁, hstate, hbuf, hlen₁, hpush₁⟩ := push_framing f hnew hlines
    obtain ⟨d₂, hdone, htrailers, hlen₂, htail⟩ := push_section hstate hbuf hparse hfits
    rw [← hbytes, hpush₁, htail]
    show d₂.finish.map _ = _
    have hresult : result = ⟨d₂.trailers, d₂.decoded_len⟩ := by
      rw [htrailers, hlen₂, hlen₁]
      have hzero : new.decoded_len = 0 := rfl
      rw [hzero, Nat.zero_add, ← hlen]
    rw [finish_eq_ok.mpr ⟨hdone, hresult⟩]
    show Except.ok (f.data ++ [], result) = _
    rw [append_nil]

/-- **The streaming decoder refines the whole-buffer decoder, and the split does not matter.** The
errors are the same for every split as well, but for the number of bytes behind the end of the
body. -/
theorem decode_slices_refines (slices : List (List UInt8)) :
    (∀ object result, decode_slices slices = .ok (object, result) →
      decode_aws_chunked slices.flatten = .ok ⟨object, result.trailers⟩) ∧
    ∀ slices', slices'.flatten = slices.flatten →
      (∀ answer, decode_slices slices' = .ok answer ↔ decode_slices slices = .ok answer) ∧
        Same (decode_slices slices') (decode_slices slices) := by
  constructor
  · intro object result h
    obtain ⟨f, hbytes, -, -, hparse, hdata, -⟩ := decode_slices_eq_ok.mp h
    exact decode_aws_chunked_eq_ok.mpr ⟨f, hbytes, hparse, hdata⟩
  · intro slices' hflatten
    have hsame : Same (decode_slices slices') (decode_slices slices) := by
      refine (decode_slices_same slices').trans ?_
      rw [hflatten]
      exact (decode_slices_same slices).symm
    exact ⟨fun answer => hsame.eq_ok, hsame⟩

-- the second slice begins between the carriage return and the line feed of a header line
theorem decode_slices_refines_cut :
    decode_slices [[51, 13], [10, 97, 98], [99, 13, 10, 48, 13, 10, 13], [10]] =
        .ok ([97, 98, 99], ⟨[], 3⟩) ∧
      decode_aws_chunked [[51, 13], [10, 97, 98], [99, 13, 10, 48, 13, 10, 13], [10]].flatten =
        .ok ⟨[97, 98, 99], []⟩ :=
  ⟨by decide +kernel, (decode_slices_refines _).1 _ ⟨[], 3⟩ (by decide +kernel)⟩

/-! ### Header lines that do not fit -/

/-- The line that ends the chunks, with an extension. -/
def extended_header (n : ℕ) : List UInt8 :=
  to_utf8 ('0' :: ';' :: List.replicate n 'a')

variable {n : ℕ}

theorem mem_extended_header {c : Char} (h : c ∈ '0' :: ';' :: List.replicate n 'a') :
    c ∈ ['0', ';', 'a'] := by
  simp only [mem_cons, mem_replicate] at h ⊢
  tauto

theorem isLine_extended_header : IsLine (extended_header n) :=
  isLine_to_utf8 fun h => absurd (mem_extended_header h) (by decide)

theorem size_of_extended_header : size_of (extended_header n) = some 0 := by
  rw [size_of_eq_some, header_size, line_str, extended_header, from_utf8_to_utf8]
  show parse_chunk_size ('0' :: ';' :: List.replicate n 'a') = .ok 0
  unfold parse_chunk_size
  rfl

theorem length_extended_header : (extended_header n).length = n + 2 := by
  have hascii : ∀ c ∈ ['0', ';', 'a'], c.toNat < 128 := by simp
  rw [extended_header, length_to_utf8_of_ascii fun c hc => hascii c (mem_extended_header hc),
    length_cons, length_cons, length_replicate]

def extended_framing (n : ℕ) : Framing size_of :=
  ⟨[], extended_header n, crlf, isLine_extended_header, size_of_extended_header⟩

theorem decode_extended_framing : decode_aws_chunked (extended_framing n).bytes = .ok ⟨[], []⟩ := by
  rw [decode_aws_chunked_eq_ok]
  exact ⟨extended_framing n, rfl, parse_trailers_end [], rfl⟩

/-- The header line has to fit the buffer together with its carriage return. -/
theorem decode_slices_extended_framing (hn : max_trailer_section_bytes ≤ n + 2)
    {slices : List (List UInt8)} (hslices : slices.flatten = (extended_framing n).bytes)
    (answer : List UInt8 × AwsChunkedTrailers) : decode_slices slices ≠ .ok answer := by
  intro h
  obtain ⟨f, hbytes, hlines, -⟩ := decode_slices_eq_ok.mp h
  have hf : f = extended_framing n := bytes_injective (hbytes.trans hslices)
  have hshort : (extended_header n).length < max_trailer_section_bytes := by
    apply hlines
    rw [hf]
    exact mem_singleton.mpr rfl
  rw [length_extended_header] at hshort
  omega

/-- The whole-buffer decoder takes a body with a header line of 8192 bytes, the streaming decoder
does not take it in any slices. -/
theorem long_header_only_whole :
    (extended_header 8190).length = 8192 ∧
      decode_aws_chunked (extended_framing 8190).bytes = .ok ⟨[], []⟩ ∧
      ∀ slices : List (List UInt8), slices.flatten = (extended_framing 8190).bytes →
        ∀ answer, decode_slices slices ≠ .ok answer :=
  ⟨length_extended_header, decode_extended_framing,
    fun _ hslices => decode_slices_extended_framing (by decide) hslices⟩

/-- **A body that the whole-buffer decoder accepts is accepted in any slices**, if its header lines
and its trailer section fit the buffer. -/
theorem decode_slices_of_whole {body : List UInt8} {r : AwsChunkedDecodeResult}
    (h : decode_aws_chunked body = .ok r) (f : Framing size_of) (hf : f.bytes = body)
    (hlines : ∀ line ∈ f.lines, line.length < max_trailer_section_bytes)
    (htail : f.tail.length ≤ max_trailer_section_bytes + 1) (slices : List (List UInt8))
    (hslices : slices.flatten = body) :
    decode_slices slices = .ok (r.data, ⟨r.trailers, r.data.length⟩) := by
  obtain ⟨f', hf', hparse, hdata⟩ := decode_aws_chunked_eq_ok.mp h
  obtain rfl : f' = f := bytes_injective (hf'.trans hf.symm)
  rw [decode_slices_eq_ok]
  exact ⟨f', hf.trans hslices.symm, hlines, htail, hparse, hdata, by rw [hdata]⟩

theorem decode_slices_of_whole_one_chunk :
    decode_slices [[49], [13, 10, 97, 13, 10, 48, 13], [10, 120, 58, 121, 13, 10, 13, 10]] =
      .ok ([97], ⟨[(['x'], ['y'])], 1⟩) := by
  refine @decode_slices_of_whole [49, 13, 10, 97, 13, 10, 48, 13, 10, 120, 58, 121, 13, 10, 13, 10]
    ⟨[97], [(['x'], ['y'])]⟩ (by decide +kernel)
    ⟨[⟨[49], [97], isLine_of_notMem (by decide), by decide +kernel, by decide⟩], [48],
      [120, 58, 121, 13, 10, 13, 10], isLine_of_notMem (by decide), by decide +kernel⟩
    rfl (by decide) (by decide) _ rfl

end TwoDecoders

end HybridCache.AwsChunked
