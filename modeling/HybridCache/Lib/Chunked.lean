/-
Chunked framing: a payload cut into chunks, each behind a line that gives its size.

A chunk is a line, as many bytes as the line says, and a CRLF. A line that gives the size zero ends
the chunks, and what comes after is left to the format. How a line gives a size is a parameter. A
framing is determined by its bytes.
-/
import Mathlib.Data.List.Basic
import Mathlib.Data.List.Infix
import Mathlib.Tactic.Common

namespace HybridCache.Lib

open List

def crlf : List UInt8 := [13, 10]

def find_crlf : List UInt8 → Option ℕ
  | a :: b :: rest =>
    if a = 13 ∧ b = 10 then some 0 else (find_crlf (b :: rest)).map (· + 1)
  | _ => none

def IsLine (line : List UInt8) : Prop :=
  ¬ crlf <:+: line

variable {line : List UInt8}

theorem IsLine.tail {b : UInt8} (h : IsLine (b :: line)) : IsLine line :=
  fun hinner => h (infix_cons hinner)

theorem isLine_nil : IsLine [] := by
  intro h
  have hlen := h.length_le
  exact absurd hlen (by decide)

theorem isLine_of_notMem (h : 13 ∉ line) : IsLine line := by
  intro hinner
  exact h (hinner.subset mem_cons_self)

theorem find_crlf_line (h : IsLine line) (rest : List UInt8) :
    find_crlf (line ++ (crlf ++ rest)) = some line.length := by
  induction line with
  | nil => rfl
  | cons a line ih =>
    have hrest := ih h.tail
    cases line with
    | nil =>
      show find_crlf (a :: 13 :: 10 :: rest) = some 1
      rw [find_crlf, if_neg (by simp)]
      rfl
    | cons b line =>
      have hne : ¬ (a = 13 ∧ b = 10) := by
        rintro ⟨rfl, rfl⟩
        exact h ⟨[], line, rfl⟩
      rw [cons_append, cons_append, find_crlf, if_neg hne]
      rw [cons_append] at hrest
      rw [hrest]
      rfl

variable {n : ℕ}

theorem find_crlf_eq_some {data : List UInt8} (h : find_crlf data = some n) :
    ∃ line rest, IsLine line ∧ data = line ++ (crlf ++ rest) ∧ n = line.length := by
  induction data generalizing n with
  | nil => cases h
  | cons a data ih =>
    cases data with
    | nil => cases h
    | cons b rest =>
      rw [find_crlf] at h
      split at h
      · rename_i heq
        obtain ⟨rfl, rfl⟩ := heq
        exact ⟨[], rest, isLine_nil, rfl, (Option.some.inj h).symm⟩
      · rename_i hne
        obtain ⟨m, hm, rfl⟩ := Option.map_eq_some_iff.mp h
        obtain ⟨line, rest', hline, hdata, rfl⟩ := ih hm
        refine ⟨a :: line, rest', ?_, by rw [hdata]; rfl, rfl⟩
        rintro ⟨before, after, hinner⟩
        cases before with
        | nil =>
          -- the CRLF would be the first two bytes
          injection hinner with ha hline'
          rw [← hline'] at hdata
          injection hdata with hb
          exact hne ⟨ha.symm, hb⟩
        | cons c before =>
          injection hinner with _ hinner
          exact hline ⟨before, after, hinner⟩

theorem find_crlf_lt {data : List UInt8} (h : find_crlf data = some n) : n + 2 ≤ data.length := by
  obtain ⟨line, rest, -, rfl, rfl⟩ := find_crlf_eq_some h
  simp only [crlf, length_append, length_cons, length_nil]
  omega

variable {rest : List UInt8}

theorem take_drop_line :
    (line ++ (crlf ++ rest)).take line.length = line ∧
      (line ++ (crlf ++ rest)).drop (line.length + 2) = rest := by
  refine ⟨take_left, ?_⟩
  rw [← drop_drop, drop_left]
  rfl

theorem line_unique {line line' rest' : List UInt8} (h : IsLine line) (h' : IsLine line')
    (heq : line ++ (crlf ++ rest) = line' ++ (crlf ++ rest')) : line = line' ∧ rest = rest' := by
  have hlen : line.length = line'.length := by
    have hfind := find_crlf_line h rest
    rw [heq, find_crlf_line h' rest'] at hfind
    exact (Option.some.inj hfind).symm
  obtain ⟨hline, hrest⟩ := append_inj heq hlen
  exact ⟨hline, append_cancel_left hrest⟩

theorem IsLine.of_front {line before : List UInt8} (h : IsLine line) (hfront : before <+: line) :
    IsLine before :=
  fun hinner => h (hinner.trans hfront.isInfix)

variable {text : List UInt8}

theorem IsLine.not_crlf_suffix {line : List UInt8} (h : IsLine line)
    (hfront : text <+: line ++ crlf) (hne : text ≠ line ++ crlf) : ¬ crlf <:+ text := by
  rintro ⟨before, rfl⟩
  obtain ⟨after, hafter⟩ := hfront
  rw [append_assoc] at hafter
  have hle : before.length ≤ line.length := by
    have hlength := congrArg List.length hafter
    simp only [length_append] at hlength
    omega
  have hbefore : before <+: line :=
    prefix_of_prefix_length_le ⟨crlf ++ after, hafter⟩ (prefix_append line crlf) hle
  obtain ⟨hline, -⟩ := @line_unique _ _ _ [] (h.of_front hbefore) h hafter
  rw [hline] at hne
  exact hne rfl

theorem IsLine.of_prefix_crlf {line : List UInt8} (h : IsLine line)
    (hfront : text <+: line ++ crlf) (hne : text ≠ line ++ crlf) : IsLine text := by
  intro hinner
  obtain ⟨before, hsuffix, hbefore⟩ := infix_iff_suffix_prefix.mp hinner
  refine h.not_crlf_suffix (hbefore.trans hfront) ?_ hsuffix
  rintro rfl
  exact hne (hfront.eq_of_length_le hbefore.length_le)

theorem isLine_of_first
    (h : ∀ text, text <+: line ++ crlf → text ≠ line ++ crlf → ¬ crlf <:+ text) :
    IsLine line := by
  rintro ⟨before, after, hline⟩
  refine h (before ++ crlf) ⟨after ++ crlf, ?_⟩ ?_ (suffix_append before crlf)
  · rw [← append_assoc, hline]
  · intro heq
    have hlength := congrArg List.length heq
    rw [← hline] at hlength
    simp only [length_append, crlf, length_cons, length_nil] at hlength
    omega

theorem not_crlf_suffix_append {start line : List UInt8} (hstart : start = [] ∨ crlf <:+ start)
    (h : IsLine line) (hne : line ≠ []) : ¬ crlf <:+ start ++ line := by
  intro hsuffix
  by_cases hlen : 2 ≤ line.length
  · have hline : crlf <:+ line := suffix_of_suffix_length_le hsuffix (suffix_append start line) hlen
    exact h hline.isInfix
  · -- one byte, and the one before it is a line feed or nothing
    obtain ⟨b, rfl⟩ : ∃ b, line = [b] := by
      rw [← length_eq_one_iff]
      have hpos := length_pos_iff.mpr hne
      omega
    obtain ⟨before, hbefore⟩ := hsuffix
    have hsplit : before ++ [13] ++ [10] = start ++ [b] := by
      rw [← hbefore, append_assoc]
      rfl
    obtain ⟨hbefore', -⟩ := append_inj' hsplit rfl
    rcases hstart with rfl | ⟨before', hstart⟩
    · exact absurd hbefore' (by simp)
    · have hlast : before' ++ [13] ++ [10] = before ++ [13] := by
        rw [hbefore', ← hstart, append_assoc]
        rfl
      obtain ⟨-, heq⟩ := append_inj' hlast rfl
      exact absurd heq (by decide)

/-! ## Framings -/

section Framings

variable {size_of : List UInt8 → Option ℕ}

/-- A chunk: the line in front of it and its payload, which is as long as the line says. -/
@[ext] structure Chunk (size_of : List UInt8 → Option ℕ) where
  line : List UInt8
  payload : List UInt8
  is_line : IsLine line
  size : size_of line = some payload.length
  nonempty : payload ≠ []

/-- Chunks, the line that ends them, and what comes after. -/
@[ext] structure Framing (size_of : List UInt8 → Option ℕ) where
  chunks : List (Chunk size_of)
  last : List UInt8
  tail : List UInt8
  is_line : IsLine last
  size : size_of last = some 0

namespace Chunk

def bytes (chunk : Chunk size_of) : List UInt8 :=
  chunk.line ++ (crlf ++ (chunk.payload ++ crlf))

end Chunk

def chunk_bytes (chunks : List (Chunk size_of)) : List UInt8 :=
  chunks.flatMap Chunk.bytes

def chunk_data (chunks : List (Chunk size_of)) : List UInt8 :=
  chunks.flatMap Chunk.payload

variable (chunks : List (Chunk size_of))

theorem chunk_bytes_cons (chunk : Chunk size_of) (chunks : List (Chunk size_of))
    (rest : List UInt8) :
    chunk_bytes (chunk :: chunks) ++ rest =
      chunk.line ++ (crlf ++ (chunk.payload ++ (crlf ++ (chunk_bytes chunks ++ rest)))) := by
  simp [chunk_bytes, Chunk.bytes]

theorem chunk_data_cons (chunk : Chunk size_of) (chunks : List (Chunk size_of)) :
    chunk_data (chunk :: chunks) = chunk.payload ++ chunk_data chunks := rfl

/-- The bytes of a row of chunks are in their lines and payloads. -/
theorem chunk_bytes_eq_flatten :
    chunk_bytes chunks = (zipWith (fun line payload => line ++ (crlf ++ (payload ++ crlf)))
      (chunks.map Chunk.line) (chunks.map Chunk.payload)).flatten := by
  rw [zipWith_map, zipWith_self]
  rfl

theorem chunk_data_eq_flatten : chunk_data chunks = (chunks.map Chunk.payload).flatten := rfl

theorem chunk_data_length_le : (chunk_data chunks).length ≤ (chunk_bytes chunks).length := by
  induction chunks with
  | nil => exact Nat.le_refl 0
  | cons chunk chunks ih =>
    show (chunk.payload ++ chunk_data chunks).length ≤ (chunk.bytes ++ chunk_bytes chunks).length
    simp only [Chunk.bytes, length_append]
    omega

theorem chunks_ext {chunks chunks' : List (Chunk size_of)}
    (hline : chunks.map Chunk.line = chunks'.map Chunk.line)
    (hpayload : chunks.map Chunk.payload = chunks'.map Chunk.payload) : chunks = chunks' := by
  induction chunks generalizing chunks' with
  | nil => exact (map_eq_nil_iff.mp hline.symm).symm
  | cons chunk chunks ih =>
    cases chunks' with
    | nil => cases hline
    | cons chunk' chunks' =>
      injection hline with hline₁ hline
      injection hpayload with hpayload₁ hpayload
      rw [Chunk.ext hline₁ hpayload₁, ih hline hpayload]

namespace Framing

def bytes (f : Framing size_of) : List UInt8 :=
  chunk_bytes f.chunks ++ (f.last ++ (crlf ++ f.tail))

def data (f : Framing size_of) : List UInt8 :=
  chunk_data f.chunks

def lines (f : Framing size_of) : List (List UInt8) :=
  f.chunks.map Chunk.line ++ [f.last]

def cons (chunk : Chunk size_of) (f : Framing size_of) : Framing size_of :=
  { f with chunks := chunk :: f.chunks }

variable {chunk : Chunk size_of} {f : Framing size_of}

theorem bytes_cons :
    (f.cons chunk).bytes = chunk.line ++ (crlf ++ (chunk.payload ++ (crlf ++ f.bytes))) := by
  simp [bytes, cons, chunk_bytes, Chunk.bytes]

theorem data_cons : (f.cons chunk).data = chunk.payload ++ f.data := by
  simp [data, cons, chunk_data]

variable {f : Framing size_of}

theorem bytes_of_nil (h : f.chunks = []) : f.bytes = f.last ++ (crlf ++ f.tail) := by
  rw [bytes, h]
  rfl

theorem data_of_nil (h : f.chunks = []) : f.data = [] := by
  rw [data, h]
  rfl

@[elab_as_elim] theorem induction_on {motive : Framing size_of → Prop} (f : Framing size_of)
    (last : ∀ f : Framing size_of, f.chunks = [] → motive f)
    (cons : ∀ (chunk : Chunk size_of) (f : Framing size_of), motive f → motive (f.cons chunk)) :
    motive f := by
  obtain ⟨chunks, last_line, tail, hline, hsize⟩ := f
  induction chunks with
  | nil => exact last _ rfl
  | cons chunk chunks ih => exact cons chunk ⟨chunks, last_line, tail, hline, hsize⟩ ih

theorem lines_cons : (f.cons chunk).lines = chunk.line :: f.lines := rfl

theorem lines_of_nil (h : f.chunks = []) : f.lines = [f.last] := by
  rw [lines, h]
  rfl

theorem size_of_mem_lines {line : List UInt8} (h : line ∈ f.lines) :
    ∃ n, size_of line = some n := by
  rcases mem_append.mp h with h | h
  · obtain ⟨chunk, -, rfl⟩ := List.mem_map.mp h
    exact ⟨_, chunk.size⟩
  · rw [mem_singleton.mp h]
    exact ⟨0, f.size⟩

section TwoReaders

variable {size_of' : List UInt8 → Option ℕ} {f : Framing size_of} {chunks : List (Chunk size_of')}

section

variable (hagree : ∀ line n m, size_of line = some n → size_of' line = some m → n = m)

include hagree

/-- A row of chunks for one reader is the beginning of a framing for another, if they agree on the
lines that both of them read: the other one has the same chunks there. -/
theorem row_alike {rest : List UInt8} (h : f.bytes = chunk_bytes chunks ++ rest) :
    ∃ (front : List (Chunk size_of)) (g : Framing size_of),
      f.chunks = front ++ g.chunks ∧ f.last = g.last ∧ f.tail = g.tail ∧ g.bytes = rest ∧
        front.map Chunk.line = chunks.map Chunk.line ∧
        front.map Chunk.payload = chunks.map Chunk.payload := by
  induction chunks generalizing f with
  | nil => exact ⟨[], f, rfl, rfl, rfl, h, rfl, rfl⟩
  | cons chunk' chunks ih =>
    rw [chunk_bytes_cons] at h
    induction f using induction_on with
    | last f hnil =>
      rw [bytes_of_nil hnil] at h
      obtain ⟨hlast, -⟩ := line_unique f.is_line chunk'.is_line h
      have hzero := hagree _ _ _ f.size (by rw [hlast]; exact chunk'.size)
      exact absurd (length_eq_zero_iff.mp hzero.symm) chunk'.nonempty
    | cons chunk f _ =>
      rw [bytes_cons] at h
      obtain ⟨hline, hrest⟩ := line_unique chunk.is_line chunk'.is_line h
      have hlen := hagree _ _ _ chunk.size (by rw [hline]; exact chunk'.size)
      obtain ⟨hpayload, hrest⟩ := append_inj hrest hlen
      obtain ⟨front, g, hchunks, hlast, htail, hbytes, hlines, hpayloads⟩ :=
        ih (append_cancel_left hrest)
      refine ⟨chunk :: front, g, ?_, hlast, htail, hbytes, ?_, ?_⟩
      · show chunk :: f.chunks = chunk :: front ++ g.chunks
        rw [hchunks, cons_append]
      · rw [map_cons, map_cons, hline, hlines]
      · rw [map_cons, map_cons, hpayload, hpayloads]

theorem last_alike {line rest : List UInt8} (hline : IsLine line) (hsize : size_of' line = some 0)
    (h : f.bytes = line ++ (crlf ++ rest)) : f.chunks = [] ∧ f.last = line ∧ f.tail = rest := by
  induction f using induction_on with
  | last f hnil =>
    rw [bytes_of_nil hnil] at h
    obtain ⟨hlast, htail⟩ := line_unique f.is_line hline h
    exact ⟨hnil, hlast, htail⟩
  | cons chunk f _ =>
    rw [bytes_cons] at h
    obtain ⟨hlast, -⟩ := line_unique chunk.is_line hline h
    have hzero := hagree _ _ _ chunk.size (by rw [hlast]; exact hsize)
    exact absurd (length_eq_zero_iff.mp hzero) chunk.nonempty

/-- **Two readers find the same framing**, if they agree on the lines that both of them read. -/
theorem read_alike {g : Framing size_of'} (h : f.bytes = g.bytes) :
    f.lines = g.lines ∧ f.chunks.map Chunk.payload = g.chunks.map Chunk.payload ∧
      f.tail = g.tail := by
  obtain ⟨front, f', hchunks, hlast, htail, hbytes, hlines, hpayloads⟩ := row_alike hagree h
  obtain ⟨hnil, hlast', htail'⟩ := last_alike hagree g.is_line g.size hbytes
  rw [hnil, append_nil] at hchunks
  refine ⟨?_, ?_, htail.trans htail'⟩
  · rw [lines, lines, hchunks, hlines, hlast, hlast']
  · rw [hchunks, hpayloads]

theorem bytes_ne_chunk_bytes : f.bytes ≠ chunk_bytes chunks := by
  intro h
  rw [← append_nil (chunk_bytes chunks)] at h
  obtain ⟨-, g, -, -, -, hbytes, -⟩ := row_alike hagree h
  have hlength := congrArg List.length hbytes
  simp [bytes, crlf] at hlength

end

theorem exists_same
    (hread : ∀ line ∈ f.lines, ∀ n ≤ f.bytes.length, size_of line = some n →
      size_of' line = some n) :
    ∃ g : Framing size_of', g.bytes = f.bytes ∧ g.lines = f.lines ∧
      g.chunks.map Chunk.payload = f.chunks.map Chunk.payload := by
  induction f using induction_on with
  | last f hnil =>
    have hlast : f.last ∈ f.lines := by
      rw [lines_of_nil hnil]
      exact mem_singleton.mpr rfl
    have hsize : size_of' f.last = some 0 := hread _ hlast 0 (Nat.zero_le _) f.size
    refine ⟨⟨[], f.last, f.tail, f.is_line, hsize⟩, ?_, ?_, ?_⟩
    · rw [bytes_of_nil hnil]
      rfl
    · rw [lines_of_nil hnil]
      rfl
    · rw [hnil]
      rfl
  | cons chunk f ih =>
    have hlength : (f.cons chunk).bytes.length =
        chunk.line.length + (2 + (chunk.payload.length + (2 + f.bytes.length))) := by
      rw [bytes_cons]
      simp only [length_append]
      rfl
    obtain ⟨g, hbytes, hlines, hpayloads⟩ := ih fun line hline n hn hsize =>
      hread line (mem_cons_of_mem _ hline) n (by omega) hsize
    have hsize : size_of' chunk.line = some chunk.payload.length := by
      refine hread _ ?_ _ (by omega) chunk.size
      exact mem_cons_self
    refine ⟨g.cons ⟨chunk.line, chunk.payload, chunk.is_line, hsize, chunk.nonempty⟩, ?_, ?_, ?_⟩
    · rw [bytes_cons, bytes_cons, hbytes]
    · rw [lines_cons, lines_cons, hlines]
    · show chunk.payload :: g.chunks.map Chunk.payload = chunk.payload :: f.chunks.map Chunk.payload
      rw [hpayloads]

end TwoReaders

/-- **A framing is determined by its bytes.** -/
theorem bytes_injective {f g : Framing size_of} (h : f.bytes = g.bytes) : f = g := by
  have hagree : ∀ line n m, size_of line = some n → size_of line = some m → n = m := by
    intro line n m hn hm
    rw [hn] at hm
    exact Option.some.inj hm
  obtain ⟨hlines, hpayloads, htail⟩ := read_alike hagree h
  obtain ⟨hchunks, hlast⟩ := append_inj' hlines rfl
  ext1
  · exact chunks_ext hchunks hpayloads
  · exact singleton_injective hlast
  · exact htail

end Framing

end Framings

end HybridCache.Lib
