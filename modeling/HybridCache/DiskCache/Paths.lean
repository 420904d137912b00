/-
Where the files of an object are (`parse_cache_key`, `get_sharded_path`,
`versioned_range_file_path` in `disk_cache.rs`, `is_safe_relative_file_path` in `path_safety.rs`).

Under the directory of the bucket stand two directories named by the first digits of the object
key's digest, and the file: the object key percent-encoded, or its digest if that is too long, and
what kind of file it is.

The range store and the publication of a multipart upload build the path of a range file
separately, and only the range store looks at the length of the whole name: they agree exactly
where it fits (`NameFits`).
-/
import HybridCache.CacheTypes.Record
import HybridCache.Lib.Outcome
import HybridCache.Lib.Path
import HybridCache.Lib.Percent

namespace HybridCache.DiskCache

open Lib List
open CacheTypes (FilePath extent_suffix dot_bin)

/-- What names are built with: the hexadecimal digests of `blake3`, and the function of
`percent_encoding`, with what their documentation says of them. -/
structure Crates where
  blake3_hex : List UInt8 → List Char
  utf8_percent_encode : List Char → (UInt8 → Bool) → List Char
  blake3_length : ∀ bytes, (blake3_hex bytes).length = 64
  blake3_digits : ∀ bytes, ∀ c ∈ blake3_hex bytes, ∃ n < 16, c = n.digitChar
  percent_encoded : ∀ s set, utf8_percent_encode s set = percent_encode set s

/-- `FRAGMENT`: the control characters, the space and `/ \ : * ? " < > | %`. -/
def fragment (b : UInt8) : Bool :=
  b < 0x20 ∨ b = 0x7F ∨ b ∈ ([32, 47, 92, 58, 42, 63, 34, 60, 62, 124, 37] : List UInt8)

def invalid_bucket_byte (b : UInt8) : Bool :=
  b = 47 ∨ b = 92 ∨ b < 0x20 ∨ b = 0x7F

def validate_bucket_segment (bucket : FilePath) : Except String Unit :=
  let text := String.ofList bucket
  if bucket = [] then .error "Invalid cache key: empty bucket segment"
  else if bucket = ['.'] ∨ bucket = ['.', '.'] then
    .error s!"Invalid cache key: bucket segment '{text}' is not allowed"
  else
    match (to_utf8 bucket).find? invalid_bucket_byte with
    | some b =>
      let code := String.ofList (upper_hex b)
      .error s!"Invalid cache key: bucket segment '{text}' contains an invalid byte (0x{code})"
    | none => .ok ()

def parse_cache_key (cache_key : FilePath) : Except String (FilePath × FilePath) :=
  let text := String.ofList cache_key
  let key := if cache_key.head? = some '/' then cache_key.tail else cache_key
  match split_once '/' key with
  | none =>
    .error s!"Invalid cache key format: '{text}'. Expected format: 'bucket/object_key'"
  | some (bucket, object_key) =>
    (validate_bucket_segment bucket).bind fun _ =>
      if object_key = [] then
        .error s!"Invalid cache key format: '{text}'. Object key must be non-empty"
      else .ok (bucket, object_key)

section Builders

variable (crates : Crates)

def sanitized (object_key : FilePath) : FilePath :=
  crates.utf8_percent_encode object_key fragment

def sanitize_object_key_for_filename (object_key suffix : FilePath) : FilePath :=
  if (to_utf8 (sanitized crates object_key)).length > 200 then
    crates.blake3_hex (to_utf8 object_key) ++ suffix
  else sanitized crates object_key ++ suffix

def object_version_id (etag : List Char) : FilePath :=
  crates.blake3_hex (to_utf8 etag)

def get_sharded_path (base_dir cache_key suffix : FilePath) : Except String FilePath :=
  (parse_cache_key cache_key).map fun (bucket, object_key) =>
    let hash_hex := crates.blake3_hex (to_utf8 object_key)
    let level1 := hash_hex.take 2
    let level2 := (hash_hex.drop 2).take 3
    join_path (join_path (join_path (join_path base_dir bucket) level1) level2)
      (sanitize_object_key_for_filename crates object_key suffix)

/-- `sanitize_cache_key_new`, for keys that do not parse. -/
def sanitize_cache_key_new (cache_key : FilePath) : FilePath :=
  if (to_utf8 (sanitized crates cache_key)).length > 200 then
    "long_key_".toList ++ crates.blake3_hex (to_utf8 cache_key)
  else sanitized crates cache_key

def metadata_dir (cache_dir : FilePath) : FilePath :=
  join_path cache_dir "metadata".toList

def ranges_dir (cache_dir : FilePath) : FilePath :=
  join_path cache_dir "ranges".toList

def get_new_metadata_file_path (cache_dir cache_key : FilePath) : FilePath :=
  match get_sharded_path crates (metadata_dir cache_dir) cache_key ".meta".toList with
  | .ok path => path
  | .error _ =>
    join_path (metadata_dir cache_dir) (sanitize_cache_key_new crates cache_key ++ ".meta".toList)

def get_new_range_file_path (cache_dir cache_key : FilePath) (start end_ : ℕ) : FilePath :=
  match get_sharded_path crates (ranges_dir cache_dir) cache_key
      (extent_suffix start end_ ++ dot_bin) with
  | .ok path => path
  | .error _ =>
    join_path (ranges_dir cache_dir)
      (sanitize_cache_key_new crates cache_key ++ (extent_suffix start end_ ++ dot_bin))

/-- What the name of a range file ends with: `format!("_{}-{}.{}.bin", start, end, version)`. -/
def range_suffix (start end_ : ℕ) (version : FilePath) : FilePath :=
  extent_suffix start end_ ++ '.' :: (version ++ dot_bin)

protected def versioned_range_file_path (path cache_key : FilePath) (start end_ : ℕ)
    (etag : List Char) : FilePath :=
  let version := object_version_id crates etag
  let path := with_extension path (version ++ dot_bin)
  if (to_utf8 (base_name path)).length > 255 then
    with_file_name path
      (crates.blake3_hex (to_utf8 cache_key) ++ range_suffix start end_ version)
  else path

/-- `get_versioned_range_file_path`: the path of a range file in the range store. -/
def get_versioned_range_file_path (cache_dir cache_key : FilePath) (start end_ : ℕ)
    (etag : List Char) : FilePath :=
  DiskCache.versioned_range_file_path crates
    (get_new_range_file_path crates cache_dir cache_key start end_) cache_key start end_ etag

/-- The path that `finalize_multipart_upload` moves a part to. -/
def multipart_range_file_path (cache_dir cache_key : FilePath) (start end_ : ℕ)
    (etag : List Char) : Except String FilePath :=
  get_sharded_path crates (ranges_dir cache_dir) cache_key
    (range_suffix start end_ (object_version_id crates etag))

def multipart_metadata_file_path (cache_dir cache_key : FilePath) : Except String FilePath :=
  get_sharded_path crates (metadata_dir cache_dir) cache_key ".meta".toList

end Builders

def is_safe_relative_file_path (relative_path : FilePath) : Bool :=
  relative_path ≠ [] ∧ relative_path.head? ≠ some '/' ∧ relative_path.head? ≠ some '\\' ∧
    '\\' ∉ relative_path ∧
    (to_utf8 relative_path).all (fun b => ¬ (b < 0x20 ∨ b = 0x7F)) = true ∧
    ['.', '.'] ∉ relative_path.splitOn '/'

/-! ## What names are made of -/

/-- A character that the name of a file can have. -/
def NameChar (c : Char) : Prop :=
  c.toNat < 128 ∧ 32 < c.toNat ∧ c.toNat ≠ 127 ∧ c ≠ '/' ∧ c ≠ '\\'

instance : DecidablePred NameChar := fun _ => inferInstanceAs (Decidable (_ ∧ _))

def FileName (name : FilePath) : Prop :=
  ∀ c ∈ name, NameChar c

instance (name : FilePath) : Decidable (FileName name) := List.decidableBAll NameChar name

/-- A name that `is_safe_relative_file_path` lets stand in a path. -/
structure CleanSegment (name : FilePath) : Prop extends Segment name where
  no_backslash : '\\' ∉ name
  no_control : ∀ b ∈ to_utf8 name, ¬ (b < 0x20 ∨ b = 0x7F)

section Names

variable {name name' : FilePath}

theorem FileName.append (h : FileName name) (h' : FileName name') : FileName (name ++ name') :=
  forall_mem_append.mpr ⟨h, h'⟩

theorem FileName.cons {c : Char} (hc : NameChar c) (h : FileName name) : FileName (c :: name) :=
  forall_mem_cons.mpr ⟨hc, h⟩

theorem FileName.no_separator (h : FileName name) : '/' ∉ name :=
  fun hmem => (h _ hmem).2.2.2.1 rfl

/-- The characters of a file name are one byte each. -/
theorem FileName.length_to_utf8 (h : FileName name) : (to_utf8 name).length = name.length :=
  length_to_utf8_of_ascii fun c hc => (h c hc).1

/-- A name of such characters is clean, unless it is empty or one of the two that mean a
directory. -/
theorem FileName.cleanSegment (h : FileName name) (hne : name ≠ []) (hdot : name ≠ ['.'])
    (hdots : name ≠ ['.', '.']) : CleanSegment name where
  nonempty := hne
  no_separator := h.no_separator
  not_dot := hdot
  not_dot_dot := hdots
  no_backslash := fun hmem => (h _ hmem).2.2.2.2 rfl
  no_control := by
    intro b hb hcontrol
    have hlt : b.toNat < 128 := by
      rcases hcontrol with hlow | rfl
      · exact lt_trans (UInt8.lt_iff_toNat_lt.mp hlow) (by decide)
      · decide
    have hchar := h _ (mem_of_mem_to_utf8 hb hlt)
    rw [NameChar, toNat_ofNat_char (Or.inl (by omega))] at hchar
    rcases hcontrol with hlow | rfl
    · have hlow32 : b.toNat < 32 := UInt8.lt_iff_toNat_lt.mp hlow
      exact absurd hchar.2.1 (by omega)
    · exact hchar.2.2.1 rfl

theorem FileName.cleanSegment_of_length (h : FileName name) (hlength : 2 < name.length) :
    CleanSegment name := by
  refine h.cleanSegment ?_ ?_ ?_ <;>
  · rintro rfl
    exact absurd hlength (by decide)

theorem nameChar_digitChar {n : ℕ} (h : n < 16) : NameChar n.digitChar := by
  have hall : ∀ n < 16, NameChar n.digitChar := by decide
  exact hall n h

theorem fileName_toDigits {n : ℕ} : FileName (Nat.toDigits 10 n) := by
  intro c hc
  have hdigit : c.isDigit = true := Nat.isDigit_of_mem_toDigits (by decide) (by decide) hc
  have hrange := isDigit_bounds hdigit
  have hall : ∀ n < 58, 48 ≤ n → NameChar (Char.ofNat n) := by decide
  rw [← Char.ofNat_toNat c]
  exact hall _ (by omega) hrange.1

theorem fileName_extent_suffix {start end_ : ℕ} : FileName (extent_suffix start end_) := by
  have hend : FileName ('-' :: Nat.toDigits 10 end_) := fileName_toDigits.cons (by decide)
  exact (fileName_toDigits.append hend).cons (by decide)

end Names

section Stems

variable {crates : Crates} {name cache_key bucket object_key base suffix cache_dir : FilePath}
  {start end_ : ℕ} {etag : List Char}

theorem fileName_blake3_hex {bytes : List UInt8} : FileName (crates.blake3_hex bytes) := by
  intro c hc
  obtain ⟨n, hn, rfl⟩ := crates.blake3_digits bytes c hc
  exact nameChar_digitChar hn

/-- What is cut out of a digest has no dot in it. -/
theorem cleanSegment_of_digits {bytes : List UInt8} (hne : name ≠ [])
    (hdigits : ∀ c ∈ name, c ∈ crates.blake3_hex bytes) : CleanSegment name := by
  have hdot : '.' ∉ name := by
    intro hmem
    obtain ⟨n, hn, heq⟩ := crates.blake3_digits bytes _ (hdigits _ hmem)
    have hall : ∀ n < 16, '.' ≠ n.digitChar := by decide
    exact hall n hn heq
  have hname : FileName name := fun c hc => fileName_blake3_hex c (hdigits c hc)
  refine hname.cleanSegment hne ?_ ?_ <;>
  · rintro rfl
    exact hdot mem_cons_self

/-- The set `FRAGMENT` has all that a file name must not have. -/
theorem fileName_sanitized : FileName (sanitized crates object_key) := by
  intro c hc
  rw [sanitized, crates.percent_encoded] at hc
  obtain ⟨hascii, hsafe | rfl | ⟨n, hn, rfl⟩⟩ := mem_percent_encode hc
  · have hall : ∀ n < 128, fragment (UInt8.ofNat n) = false → NameChar (Char.ofNat n) := by
      decide
    rw [← Char.ofNat_toNat c]
    exact hall _ hascii hsafe
  · decide
  · have hall : ∀ n < 16, NameChar n.digitChar.toUpper := by decide
    exact hall n hn

theorem fileName_object_version_id : FileName (object_version_id crates etag) := fileName_blake3_hex

theorem fileName_range_suffix :
    FileName (range_suffix start end_ (object_version_id crates etag)) := by
  have hversion : FileName ('.' :: (object_version_id crates etag ++ dot_bin)) :=
    (fileName_object_version_id.append (by decide)).cons (by decide)
  exact fileName_extent_suffix.append hversion

theorem length_range_suffix :
    (range_suffix start end_ (object_version_id crates etag)).length =
      (extent_suffix start end_).length + 69 := by
  have hversion : (object_version_id crates etag).length = 64 := crates.blake3_length _
  rw [range_suffix, length_append, length_cons, length_append, hversion]
  rfl

variable (crates)

/-- What stands for the object key in the name of a file. -/
def object_stem (object_key : FilePath) : FilePath :=
  if (to_utf8 (sanitized crates object_key)).length > 200 then
    crates.blake3_hex (to_utf8 object_key)
  else sanitized crates object_key

def key_dirs (cache_key : FilePath) : List FilePath :=
  match parse_cache_key cache_key with
  | .ok (bucket, object_key) =>
    [bucket, (crates.blake3_hex (to_utf8 object_key)).take 2,
      ((crates.blake3_hex (to_utf8 object_key)).drop 2).take 3]
  | .error _ => []

def key_stem (cache_key : FilePath) : FilePath :=
  match parse_cache_key cache_key with
  | .ok (_, object_key) => object_stem crates object_key
  | .error _ => sanitize_cache_key_new crates cache_key

def store_stem (cache_key : FilePath) (start end_ : ℕ) : FilePath :=
  if (key_stem crates cache_key).length + (extent_suffix start end_).length + 69 > 255 then
    crates.blake3_hex (to_utf8 cache_key)
  else key_stem crates cache_key

variable {crates}

theorem sanitize_object_key_for_filename_eq :
    sanitize_object_key_for_filename crates object_key suffix =
      object_stem crates object_key ++ suffix := by
  unfold sanitize_object_key_for_filename object_stem
  split <;> rfl

/-- What can stand for a key in a name. -/
structure IsStem (name : FilePath) : Prop where
  fileName : FileName name
  length_le : name.length ≤ 200

/-- An encoded key stands for itself up to 200 bytes; beyond, a shorter name does. -/
theorem isStem_shortened (hname : FileName name) (hlength : name.length ≤ 200) :
    IsStem (if (to_utf8 (sanitized crates object_key)).length > 200 then name
      else sanitized crates object_key) := by
  have hsanitized := @fileName_sanitized crates object_key
  rw [hsanitized.length_to_utf8]
  split
  · exact ⟨hname, hlength⟩
  · exact ⟨hsanitized, by omega⟩

theorem isStem_object_stem : IsStem (object_stem crates object_key) := by
  refine isStem_shortened fileName_blake3_hex ?_
  rw [crates.blake3_length]
  decide

theorem isStem_sanitize_cache_key_new : IsStem (sanitize_cache_key_new crates cache_key) := by
  refine isStem_shortened (FileName.append (by decide) fileName_blake3_hex) ?_
  rw [length_append, crates.blake3_length]
  decide

theorem isStem_key_stem : IsStem (key_stem crates cache_key) := by
  unfold key_stem
  split
  · exact isStem_object_stem
  · exact isStem_sanitize_cache_key_new

theorem fileName_key_stem : FileName (key_stem crates cache_key) := isStem_key_stem.fileName

theorem fileName_store_stem : FileName (store_stem crates cache_key start end_) := by
  unfold store_stem
  split
  · exact fileName_blake3_hex
  · exact fileName_key_stem

/-! ## Keys that parse -/

/-- A bucket that is let pass names a directory of its own. -/
theorem validate_bucket_segment_eq_ok (h : validate_bucket_segment bucket = .ok ()) :
    CleanSegment bucket := by
  obtain ⟨hempty, h⟩ := except_guard_eq_ok.mp h
  obtain ⟨hdots, h⟩ := except_guard_eq_ok.mp h
  rw [not_or] at hdots
  cases hfind : (to_utf8 bucket).find? invalid_bucket_byte with
  | some b =>
    rw [hfind] at h
    cases h
  | none =>
    have hbytes : ∀ b ∈ to_utf8 bucket, invalid_bucket_byte b = false := by
      intro b hb
      exact Bool.eq_false_iff.mpr (List.find?_eq_none.mp hfind b hb)
    have hchar : ∀ c ∈ bucket, c.toNat < 128 →
        invalid_bucket_byte (UInt8.ofNat c.toNat) = false := by
      intro c hc hascii
      refine hbytes _ (mem_flatMap.mpr ⟨c, hc, ?_⟩)
      rw [encode_ascii hascii]
      exact mem_singleton.mpr rfl
    refine ⟨⟨hempty, ?_, hdots.1, hdots.2⟩, ?_, ?_⟩
    · intro hmem
      exact absurd (hchar '/' hmem (by decide)) (by decide)
    · intro hmem
      exact absurd (hchar '\\' hmem (by decide)) (by decide)
    · intro b hb hcontrol
      have hvalid := hbytes b hb
      simp only [invalid_bucket_byte, decide_eq_false_iff_not, not_or] at hvalid
      rcases hcontrol with hlow | h7f
      · exact hvalid.2.2.1 hlow
      · exact hvalid.2.2.2 h7f

/-- A key that parses is its bucket and its object key, with or without a separator in front. -/
theorem parse_cache_key_eq_ok (h : parse_cache_key cache_key = .ok (bucket, object_key)) :
    CleanSegment bucket ∧ object_key ≠ [] ∧
      (cache_key = bucket ++ '/' :: object_key ∨
        cache_key = '/' :: (bucket ++ '/' :: object_key)) := by
  have hkey : cache_key = (if cache_key.head? = some '/' then cache_key.tail else cache_key) ∨
      cache_key = '/' :: (if cache_key.head? = some '/' then cache_key.tail else cache_key) := by
    split_ifs with hslash
    · exact Or.inr (List.cons_head?_tail hslash).symm
    · exact Or.inl rfl
  unfold parse_cache_key at h
  generalize (if cache_key.head? = some '/' then cache_key.tail else cache_key) = key at h hkey
  cases hsplit : split_once '/' key with
  | none =>
    simp only [hsplit] at h
    cases h
  | some parts =>
    simp only [hsplit] at h
    obtain ⟨⟨⟩, hvalid, hrest⟩ := except_bind_eq_ok.mp h
    split_ifs at hrest with hne
    obtain ⟨rfl, rfl⟩ := Prod.mk.inj (Except.ok.inj hrest)
    refine ⟨validate_bucket_segment_eq_ok hvalid, hne, ?_⟩
    rw [← (split_once_eq_some hsplit).1]
    exact hkey

theorem cleanSegment_key_dirs : ∀ name ∈ key_dirs crates cache_key, CleanSegment name := by
  intro name hname
  unfold key_dirs at hname
  split at hname
  swap
  · cases hname
  rename_i bucket object_key hparse
  have hlength := crates.blake3_length (to_utf8 object_key)
  simp only [mem_cons, not_mem_nil, or_false] at hname
  rcases hname with rfl | rfl | rfl
  · exact (parse_cache_key_eq_ok hparse).1
  · refine cleanSegment_of_digits ?_ fun c hc => mem_of_mem_take hc
    refine ne_nil_of_length_pos ?_
    rw [length_take]
    omega
  · refine cleanSegment_of_digits ?_ fun c hc => mem_of_mem_drop (mem_of_mem_take hc)
    refine ne_nil_of_length_pos ?_
    rw [length_take, length_drop]
    omega

/-! ## The paths -/

section Suffix

variable (hsuffix : FileName suffix) (hlength : 2 < suffix.length)

include hsuffix hlength

theorem cleanSegment_key_path {stem : FilePath} (hstem : FileName stem) :
    ∀ name ∈ key_dirs crates cache_key ++ [stem ++ suffix], CleanSegment name := by
  refine forall_mem_append.mpr ⟨cleanSegment_key_dirs, forall_mem_singleton.mpr ?_⟩
  refine (hstem.append hsuffix).cleanSegment_of_length ?_
  rw [length_append]
  omega

variable (hbase : Joinable base)

include hbase

theorem join_key_path :
    (key_dirs crates cache_key ++ [key_stem crates cache_key ++ suffix]).foldl join_path base =
      under base (key_dirs crates cache_key ++ [key_stem crates cache_key ++ suffix]) := by
  apply foldl_join_path hbase
  intro name hname
  exact (cleanSegment_key_path hsuffix hlength fileName_key_stem name hname).toSegment

/-- The path of a key that parses: the directories of the key, its stem, and the suffix. -/
theorem get_sharded_path_eq (hparse : parse_cache_key cache_key = .ok (bucket, object_key)) :
    get_sharded_path crates base cache_key suffix =
      .ok (under base (key_dirs crates cache_key ++ [key_stem crates cache_key ++ suffix])) := by
  rw [← join_key_path hsuffix hlength hbase, get_sharded_path, key_dirs, key_stem, hparse]
  simp only [Except.map, sanitize_object_key_for_filename_eq]
  rfl

/-- So is the path of any key, those that do not parse having no directories. -/
theorem sharded_or_flat_eq :
    (match get_sharded_path crates base cache_key suffix with
      | .ok path => path
      | .error _ => join_path base (sanitize_cache_key_new crates cache_key ++ suffix)) =
      under base (key_dirs crates cache_key ++ [key_stem crates cache_key ++ suffix]) := by
  cases hparse : parse_cache_key cache_key with
  | ok parts => rw [get_sharded_path_eq hsuffix hlength hbase hparse]
  | error e =>
    rw [← join_key_path hsuffix hlength hbase, get_sharded_path, key_dirs, key_stem, hparse]
    rfl

end Suffix

theorem joinable_metadata_dir : Joinable (metadata_dir cache_dir) :=
  joinable_join_path ⟨by decide, by decide, by decide, by decide⟩

theorem joinable_ranges_dir : Joinable (ranges_dir cache_dir) :=
  joinable_join_path ⟨by decide, by decide, by decide, by decide⟩

theorem get_new_metadata_file_path_eq :
    get_new_metadata_file_path crates cache_dir cache_key =
      under (metadata_dir cache_dir)
        (key_dirs crates cache_key ++ [key_stem crates cache_key ++ ".meta".toList]) :=
  sharded_or_flat_eq (by decide) (by decide) joinable_metadata_dir

theorem get_new_range_file_path_eq :
    get_new_range_file_path crates cache_dir cache_key start end_ =
      under (ranges_dir cache_dir) (key_dirs crates cache_key ++
        [key_stem crates cache_key ++ (extent_suffix start end_ ++ dot_bin)]) := by
  refine sharded_or_flat_eq (fileName_extent_suffix.append (by decide)) ?_ joinable_ranges_dir
  rw [length_append]
  exact Nat.lt_add_left _ (by decide)

/-- The range store looks at the length of the whole name, and has a stem of its own for those that
are too long. -/
theorem get_versioned_range_file_path_eq :
    get_versioned_range_file_path crates cache_dir cache_key start end_ etag =
      under (ranges_dir cache_dir) (key_dirs crates cache_key ++
        [store_stem crates cache_key start end_ ++
          range_suffix start end_ (object_version_id crates etag)]) := by
  have hstem := @fileName_key_stem crates cache_key
  have hsuffix := @fileName_range_suffix crates start end_ etag
  have hunversioned :
      FileName (key_stem crates cache_key ++ (extent_suffix start end_ ++ dot_bin)) :=
    hstem.append (fileName_extent_suffix.append (by decide))
  -- the extension that is replaced is `bin`, whatever dots the key has
  have hextended : with_extension (get_new_range_file_path crates cache_dir cache_key start end_)
      (object_version_id crates etag ++ dot_bin) =
      under (ranges_dir cache_dir) (key_dirs crates cache_key) ++ '/' ::
        (key_stem crates cache_key ++ range_suffix start end_ (object_version_id crates etag)) := by
    rw [get_new_range_file_path_eq, under_append]
    have hname : key_stem crates cache_key ++ (extent_suffix start end_ ++ dot_bin) =
        (key_stem crates cache_key ++ extent_suffix start end_) ++ '.' :: "bin".toList := by
      rw [append_assoc]
      rfl
    have hplain := hunversioned.no_separator
    rw [hname] at hplain ⊢
    rw [with_extension_append hplain (by simp [extent_suffix]) (by decide), range_suffix,
      append_assoc]
  have hlength : (to_utf8 (key_stem crates cache_key ++
      range_suffix start end_ (object_version_id crates etag))).length =
      (key_stem crates cache_key).length + (extent_suffix start end_).length + 69 := by
    rw [(hstem.append hsuffix).length_to_utf8, length_append, length_range_suffix, Nat.add_assoc]
  have hplain := (hstem.append hsuffix).no_separator
  unfold get_versioned_range_file_path DiskCache.versioned_range_file_path store_stem
  simp only [hextended, base_name_append hplain, hlength]
  split
  · rw [with_file_name_append hplain, under_append]
  · rw [under_append]

/-- A multipart upload always takes the stem of the key. -/
theorem multipart_range_file_path_eq
    (hparse : parse_cache_key cache_key = .ok (bucket, object_key)) :
    multipart_range_file_path crates cache_dir cache_key start end_ etag =
      .ok (under (ranges_dir cache_dir) (key_dirs crates cache_key ++
        [key_stem crates cache_key ++
          range_suffix start end_ (object_version_id crates etag)])) := by
  refine get_sharded_path_eq fileName_range_suffix ?_ joinable_ranges_dir hparse
  rw [length_range_suffix]
  omega

/-! ## Where the paths are -/

/-- A path strictly below a directory, whose last name a file system can hold. -/
structure Placed (base path : FilePath) : Prop where
  below : Below base path
  name_length : (to_utf8 (base_name path)).length ≤ 255

/-- Such a path below the directory of the range files, that is safe relative to it. -/
structure RangePlaced (base path : FilePath) : Prop extends Placed base path where
  safe : ∃ relative, relative_to base path = some relative ∧
    is_safe_relative_file_path relative = true

/-- Clean names, joined, pass the check of `path_safety.rs`. -/
theorem is_safe_of_segments {segments : List FilePath} (hne : segments ≠ [])
    (h : ∀ name ∈ segments, CleanSegment name) :
    is_safe_relative_file_path (['/'].intercalate segments) = true := by
  obtain ⟨first, rest, rfl⟩ := exists_cons_of_ne_nil hne
  have hfirst := h first mem_cons_self
  have hhead : (['/'].intercalate (first :: rest)).head? = first.head? := by
    obtain ⟨c, cs, rfl⟩ := exists_cons_of_ne_nil hfirst.nonempty
    rw [intercalate_eq_append_flatMap]
    rfl
  have hbackslash : '\\' ∉ ['/'].intercalate (first :: rest) := by
    intro hmem
    rcases mem_intercalate hmem with heq | ⟨name, hname, hc⟩
    · exact absurd heq (by decide)
    · exact (h name hname).no_backslash hc
  have hcontrol : ∀ b ∈ to_utf8 (['/'].intercalate (first :: rest)), ¬ (b < 0x20 ∨ b = 0x7F) := by
    intro b hb
    obtain ⟨c, hc, hbc⟩ := mem_flatMap.mp hb
    rcases mem_intercalate hc with rfl | ⟨name, hname, hc⟩
    · rw [encode_ascii (by decide), mem_singleton] at hbc
      rw [hbc]
      decide
    · exact (h name hname).no_control b (mem_flatMap.mpr ⟨c, hc, hbc⟩)
  have hsplit : (['/'].intercalate (first :: rest)).splitOn '/' = first :: rest :=
    splitOn_intercalate '/' (fun name hname => (h name hname).no_separator) hne
  have hdots : ['.', '.'] ∉ first :: rest := fun hmem => (h _ hmem).not_dot_dot rfl
  rw [is_safe_relative_file_path, hsplit, hhead]
  refine decide_eq_true ⟨?_, hfirst.head_ne, ?_, hbackslash, ?_, hdots⟩
  · intro hnil
    have hempty := congrArg List.head? hnil
    rw [hhead] at hempty
    exact hfirst.nonempty (List.head?_eq_none_iff.mp hempty)
  · intro hhead'
    exact hfirst.no_backslash (mem_of_mem_head? hhead')
  · rw [List.all_eq_true]
    intro b hb
    exact decide_eq_true (hcontrol b hb)

theorem rangePlaced_under {dirs : List FilePath} {name : FilePath}
    (h : ∀ s ∈ dirs ++ [name], CleanSegment s) (hlength : (to_utf8 name).length ≤ 255) :
    RangePlaced base (under base (dirs ++ [name])) where
  below := ⟨dirs ++ [name], by simp, fun s hs => (h s hs).toSegment, rfl⟩
  name_length := by
    rw [base_name_under (h name (by simp)).no_separator]
    exact hlength
  safe := ⟨_, relative_to_under (by simp), is_safe_of_segments (by simp) h⟩

end Stems

/-- A `u64` has at most twenty digits. -/
theorem length_extent_suffix_le (start end_ : UInt64) :
    (extent_suffix start.toNat end_.toNat).length ≤ 42 := by
  have hdigits : ∀ n : UInt64, (Nat.toDigits 10 n.toNat).length ≤ 20 := by
    intro n
    have hlt := n.toNat_lt
    exact (Nat.length_toDigits_le_iff (by decide) (by decide)).mpr (by omega)
  have hs := hdigits start
  have he := hdigits end_
  rw [extent_suffix, length_cons, length_append, length_cons]
  omega

section Placement

variable (crates : Crates) (cache_dir cache_key : FilePath) (start end_ : ℕ) (etag : List Char)

/-- What is wanted of the paths of a key: the metadata file and the range files are where
they belong, and a multipart upload publishes them where the range store has them. -/
structure PathsPlaced : Prop where
  metadata : Placed (metadata_dir cache_dir) (get_new_metadata_file_path crates cache_dir cache_key)
  multipart_metadata : ∀ path, multipart_metadata_file_path crates cache_dir cache_key = .ok path →
    Placed (metadata_dir cache_dir) path ∧
      path = get_new_metadata_file_path crates cache_dir cache_key
  store : RangePlaced (ranges_dir cache_dir)
    (get_versioned_range_file_path crates cache_dir cache_key start end_ etag)
  multipart : ∀ path,
    multipart_range_file_path crates cache_dir cache_key start end_ etag = .ok path →
    RangePlaced (ranges_dir cache_dir) path ∧
      path = get_versioned_range_file_path crates cache_dir cache_key start end_ etag

/-- The name of the range file of a key that parses fits in 255 bytes: the encoded object key is
either long enough to be replaced by its digest, or short enough for what is added to it. -/
def NameFits : Prop :=
  ∀ bucket object_key, parse_cache_key cache_key = .ok (bucket, object_key) →
    200 < (sanitized crates object_key).length ∨
      (sanitized crates object_key).length + (extent_suffix start end_).length + 69 ≤ 255

end Placement

section Fits

variable {crates : Crates} {cache_key bucket object_key : FilePath} {start end_ : ℕ}

/-- A digest is always short enough, so the name fits if the stem does. -/
theorem nameFits_iff (hparse : parse_cache_key cache_key = .ok (bucket, object_key))
    (hextent : (extent_suffix start end_).length ≤ 42) :
    NameFits crates cache_key start end_ ↔
      (key_stem crates cache_key).length + (extent_suffix start end_).length + 69 ≤ 255 := by
  have hstem : key_stem crates cache_key = object_stem crates object_key := by
    rw [key_stem, hparse]
  have hbytes := (@fileName_sanitized crates object_key).length_to_utf8
  have hdigest := crates.blake3_length (to_utf8 object_key)
  have hcases : NameFits crates cache_key start end_ ↔
      (200 < (sanitized crates object_key).length ∨
        (sanitized crates object_key).length + (extent_suffix start end_).length + 69 ≤ 255) := by
    constructor
    · intro h
      exact h bucket object_key hparse
    · intro h bucket' object_key' hparse'
      rw [hparse] at hparse'
      obtain ⟨-, rfl⟩ := Prod.mk.inj (Except.ok.inj hparse')
      exact h
  rw [hcases, hstem, object_stem]
  split <;> omega

end Fits

section Results

variable {crates : Crates} {cache_dir cache_key : FilePath}

theorem placed_metadata_file_path :
    Placed (metadata_dir cache_dir) (get_new_metadata_file_path crates cache_dir cache_key) := by
  have hstem := @fileName_key_stem crates cache_key
  have hmeta : FileName ".meta".toList := by decide
  have hsegments := @cleanSegment_key_path crates cache_key _ hmeta (by decide) _ hstem
  have hlength : (to_utf8 (key_stem crates cache_key ++ ".meta".toList)).length ≤ 255 := by
    rw [(hstem.append hmeta).length_to_utf8, length_append]
    have hle := (@isStem_key_stem crates cache_key).length_le
    exact Nat.add_le_add hle (show ".meta".toList.length ≤ 55 by decide)
  rw [get_new_metadata_file_path_eq]
  exact (rangePlaced_under hsegments hlength).toPlaced

variable {start end_ : UInt64} {etag : List Char}

theorem rangePlaced_range_path {stem : FilePath} (hstem : FileName stem)
    (hlength : stem.length + (extent_suffix start.toNat end_.toNat).length + 69 ≤ 255) :
    RangePlaced (ranges_dir cache_dir) (under (ranges_dir cache_dir)
      (key_dirs crates cache_key ++
        [stem ++ range_suffix start.toNat end_.toNat (object_version_id crates etag)])) := by
  have hsuffix := @fileName_range_suffix crates start.toNat end_.toNat etag
  have hsegments := @cleanSegment_key_path crates cache_key _ hsuffix
    (by rw [length_range_suffix]; omega) _ hstem
  refine rangePlaced_under hsegments ?_
  rw [FileName.length_to_utf8 (hstem.append hsuffix), length_append, length_range_suffix]
  omega

theorem rangePlaced_versioned_range_file_path :
    RangePlaced (ranges_dir cache_dir)
      (get_versioned_range_file_path crates cache_dir cache_key start.toNat end_.toNat etag) := by
  have hextent := length_extent_suffix_le start end_
  rw [get_versioned_range_file_path_eq]
  refine rangePlaced_range_path fileName_store_stem ?_
  unfold store_stem
  split
  · rw [crates.blake3_length]
    omega
  · omega

end Results

/-- **Every path is placed, and both ways of building one agree, exactly if the name fits.** -/
theorem paths_placed_iff_name_fits (crates : Crates) (cache_dir cache_key : FilePath)
    (start end_ : UInt64) (etag : List Char) :
    PathsPlaced crates cache_dir cache_key start.toNat end_.toNat etag ↔
      NameFits crates cache_key start.toNat end_.toNat := by
  have hextent := length_extent_suffix_le start end_
  constructor
  · intro hplaced bucket object_key hparse
    refine (nameFits_iff hparse hextent).mpr ?_ bucket object_key hparse
    have hmultipart := @multipart_range_file_path_eq crates cache_key bucket object_key cache_dir
      start.toNat end_.toNat etag hparse
    have hname := (hplaced.multipart _ hmultipart).1.name_length
    have hplain := (@fileName_key_stem crates cache_key).append
      (@fileName_range_suffix crates start.toNat end_.toNat etag)
    rw [base_name_under hplain.no_separator, hplain.length_to_utf8,
      length_append, length_range_suffix] at hname
    omega
  · intro hfits
    have hmetadata := @placed_metadata_file_path crates cache_dir cache_key
    refine ⟨hmetadata, ?_, rangePlaced_versioned_range_file_path, ?_⟩
    · intro path hpath
      have hsame : get_new_metadata_file_path crates cache_dir cache_key = path := by
        rw [get_new_metadata_file_path, ← multipart_metadata_file_path, hpath]
      rw [← hsame]
      exact ⟨hmetadata, rfl⟩
    intro path hpath
    cases hparse : parse_cache_key cache_key with
    | error e =>
      rw [multipart_range_file_path, get_sharded_path, hparse] at hpath
      cases hpath
    | ok parts =>
      have hlength := (nameFits_iff hparse hextent).mp hfits
      rw [multipart_range_file_path_eq hparse] at hpath
      obtain rfl := Except.ok.inj hpath
      refine ⟨rangePlaced_range_path fileName_key_stem hlength, ?_⟩
      rw [get_versioned_range_file_path_eq, store_stem, if_neg (by omega)]

def long_object_key : FilePath :=
  List.replicate 186 'k' ++ "574462".toList

def sampled_digests : List (FilePath × FilePath) :=
  [("e".toList, Nat.toDigits 16 0x27bb492e108bf5e9c724176d7ae75d4cedc422fe4065020bd6140c3fcad3a9e7),
    ("f".toList,
      Nat.toDigits 16 0x9ab388bedc43eaf44150107d17ad090f6b1c34610f5740778ddb95d9f06576ee),
    (long_object_key,
      Nat.toDigits 16 0x7f8d1e2948034beed2c082d393aeadfa84911e58c03e0ca39ff5f7de133f8b6c),
    ("bucket/".toList ++ long_object_key,
      Nat.toDigits 16 0x7f8d1360df6225c0cd71168edf2c1e64aace82ad08d480d4f359bae44d50d607),
    ("bucket/bucket/".toList ++ long_object_key,
      Nat.toDigits 16 0xeaf53621393a4d09a1fd5e9e9d0fbd2ae86d49e163592fed6d6411543b19dcc8)]

/-- The digest of a text of the list, which are all ASCII, if it is one. -/
def sampled_digest (bytes : List UInt8) : Option (FilePath × FilePath) :=
  sampled_digests.find? fun d => d.1.length = bytes.length ∧ to_utf8 d.1 = bytes

/-- Functions that are those of the crates at the texts above. -/
def sampled_crates : Crates where
  blake3_hex bytes := ((sampled_digest bytes).map Prod.snd).getD (List.replicate 64 '0')
  utf8_percent_encode s set := percent_encode set s
  blake3_length := by
    have hall : ∀ d ∈ sampled_digests, d.2.length = 64 := by decide +kernel
    intro bytes
    cases hfind : sampled_digest bytes with
    | none => exact length_replicate
    | some d => exact hall d (List.mem_of_find?_eq_some hfind)
  blake3_digits := by
    have hall : (sampled_digests.all fun d => d.2.all fun c =>
        (List.range 16).any fun n => c = n.digitChar) = true := by decide +kernel
    simp only [List.all_eq_true, List.any_eq_true, mem_range, decide_eq_true_eq] at hall
    intro bytes c hc
    cases hfind : sampled_digest bytes with
    | none =>
      rw [hfind] at hc
      exact ⟨0, by decide, eq_of_mem_replicate hc⟩
    | some d =>
      rw [hfind] at hc
      exact hall d (List.mem_of_find?_eq_some hfind) c hc
  percent_encoded _ _ := rfl

/-- The first bytes of an object whose encoded key has 192 bytes: the name of the file that a
multipart upload moves the part to has 265 bytes; in the range store it has 137. -/
theorem multipart_name_too_long :
    (∃ path, multipart_range_file_path sampled_crates "/cache".toList
        ("bucket/".toList ++ long_object_key) 0 9 "e".toList = .ok path ∧
        (to_utf8 (base_name path)).length = 265) ∧
      (to_utf8 (base_name (get_versioned_range_file_path sampled_crates "/cache".toList
        ("bucket/".toList ++ long_object_key) 0 9 "e".toList))).length = 137 ∧
      ¬ PathsPlaced sampled_crates "/cache".toList ("bucket/".toList ++ long_object_key) 0 9
        "e".toList := by
  have hparse : parse_cache_key ("bucket/".toList ++ long_object_key) =
      .ok ("bucket".toList, long_object_key) := by
    decide +kernel
  have hpath := @multipart_range_file_path_eq sampled_crates _ _ _ "/cache".toList 0 9 "e".toList
    hparse
  have hname : (to_utf8 (base_name (under (ranges_dir "/cache".toList)
      (key_dirs sampled_crates ("bucket/".toList ++ long_object_key) ++
        [key_stem sampled_crates ("bucket/".toList ++ long_object_key) ++
          range_suffix 0 9 (object_version_id sampled_crates "e".toList)])))).length = 265 := by
    decide +kernel
  refine ⟨⟨_, hpath, hname⟩, by decide +kernel, ?_⟩
  intro hplaced
  have hle := (hplaced.multipart _ hpath).1.name_length
  rw [hname] at hle
  exact absurd hle (by decide)

end HybridCache.DiskCache
