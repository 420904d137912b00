/-
What the path of a file says (`range_file_belongs_to` in `disk_cache.rs`, `range_file_version` in
`journal_manager.rs`).

Extent and version can be read back from any name, since they stand behind the last underscore and
the last dot. The object cannot: where the name is too long, the range store puts the digest of the
cache key in its place, and `get_sharded_path` that of the object key. Two objects of one bucket
share a range file exactly if the object key of one is the cache key of the other (`Shadows`).
-/
import HybridCache.DiskCache.Paths

namespace HybridCache.DiskCache

open Lib List
open CacheTypes (FilePath RangeSpec extent_suffix dot_bin range_file_belongs_to
  range_file_version)

/-- The paths that the range file of an extent of a version of an object can have: that of the
range store and that of a multipart upload. -/
def IsRangePath (crates : Crates) (cache_dir cache_key : FilePath) (start end_ : ℕ)
    (etag : List Char) (path : FilePath) : Prop :=
  path = get_versioned_range_file_path crates cache_dir cache_key start end_ etag ∨
    multipart_range_file_path crates cache_dir cache_key start end_ etag = .ok path

/-! ## Extent and version -/

section Suffix

variable {stem stem' version version' : FilePath} {start end_ start' end_' : ℕ}

theorem extent_suffix_cancel
    (h : stem ++ extent_suffix start end_ = stem' ++ extent_suffix start' end_') :
    stem = stem' ∧ start = start' ∧ end_ = end_' := by
  unfold extent_suffix at h
  have hsplit : (stem ++ '_' :: Nat.toDigits 10 start) ++ '-' :: Nat.toDigits 10 end_ =
      (stem' ++ '_' :: Nat.toDigits 10 start') ++ '-' :: Nat.toDigits 10 end_' := by
    simpa using h
  obtain ⟨hfront, hend⟩ :=
    append_last_cancel (not_mem_toDigits (by decide)) (not_mem_toDigits (by decide)) hsplit
  obtain ⟨hstem, hstart⟩ :=
    append_last_cancel (not_mem_toDigits (by decide)) (not_mem_toDigits (by decide)) hfront
  exact ⟨hstem, toDigits_injective hstart, toDigits_injective hend⟩

theorem range_suffix_cancel (hlength : version.length = version'.length)
    (h : stem ++ range_suffix start end_ version = stem' ++ range_suffix start' end_' version') :
    stem = stem' ∧ start = start' ∧ end_ = end_' ∧ version = version' := by
  unfold range_suffix at h
  rw [← append_assoc, ← append_assoc] at h
  obtain ⟨hfront, hback⟩ := append_inj' h (by simp [hlength])
  obtain ⟨hstem, hstart, hend⟩ := extent_suffix_cancel hfront
  exact ⟨hstem, hstart, hend, append_cancel_right (List.cons.inj hback).2⟩

end Suffix

section Recognition

variable {crates : Crates} {cache_dir cache_key path : FilePath} {start end_ : ℕ}
  {etag : List Char}

theorem IsRangePath.exists_stem
    (h : IsRangePath crates cache_dir cache_key start end_ etag path) :
    ∃ stem, (stem = store_stem crates cache_key start end_ ∨ stem = key_stem crates cache_key) ∧
      path = under (ranges_dir cache_dir) (key_dirs crates cache_key ++
        [stem ++ range_suffix start end_ (object_version_id crates etag)]) := by
  rcases h with h | h
  · rw [get_versioned_range_file_path_eq] at h
    exact ⟨_, Or.inl rfl, h⟩
  · cases hparse : parse_cache_key cache_key with
    | error e =>
      rw [multipart_range_file_path, get_sharded_path, hparse] at h
      cases h
    | ok parts =>
      rw [multipart_range_file_path_eq hparse] at h
      exact ⟨_, Or.inr rfl, (Except.ok.inj h).symm⟩

theorem IsRangePath.exists_dir {file_path : FilePath}
    (h : IsRangePath crates cache_dir cache_key start end_ etag path)
    (hfile : file_path = path ∨ relative_to (ranges_dir cache_dir) path = some file_path) :
    ∃ dir stem, FileName stem ∧ (dir = [] ∨ ∃ d, dir = d ++ ['/']) ∧
      file_path = dir ++ (stem ++ range_suffix start end_ (object_version_id crates etag)) := by
  obtain ⟨stem, hstem, rfl⟩ := h.exists_stem
  have hname : FileName stem := by
    rcases hstem with rfl | rfl
    · exact fileName_store_stem
    · exact fileName_key_stem
  rcases hfile with rfl | hrelative
  · refine ⟨under (ranges_dir cache_dir) (key_dirs crates cache_key) ++ ['/'], stem, hname,
      Or.inr ⟨_, rfl⟩, ?_⟩
    rw [under_append]
    simp
  · rw [relative_to_under (by simp)] at hrelative
    rw [← Option.some.inj hrelative]
    rcases intercalate_append_singleton with heq | ⟨dir, heq⟩
    · exact ⟨[], stem, hname, Or.inl rfl, heq⟩
    · refine ⟨dir ++ ['/'], stem, hname, Or.inr ⟨dir, rfl⟩, ?_⟩
      rw [heq]
      simp

theorem belongs_iff_of_name {front version version' : FilePath} {range : RangeSpec}
    (hlength : version.length = version'.length)
    (hpath : range.file_path = front ++ range_suffix start end_ version) :
    range_file_belongs_to range version' = true ↔
      start = range.start ∧ end_ = range.end_ ∧ version = version' := by
  have hform : ∀ base s e v, CacheTypes.versioned_range_file_path base s e v =
      base ++ range_suffix s e v := by
    intro base s e v
    simp [CacheTypes.versioned_range_file_path, range_suffix]
  rw [CacheTypes.range_file_belongs_to_iff, hpath]
  constructor
  · rintro ⟨base, hbase⟩
    rw [hform] at hbase
    exact (range_suffix_cancel hlength hbase).2
  · rintro ⟨rfl, rfl, rfl⟩
    exact ⟨front, (hform front _ _ _).symm⟩

theorem range_file_version_of_name {dir stem : FilePath} (hdir : dir = [] ∨ ∃ d, dir = d ++ ['/'])
    (hstem : FileName stem) :
    range_file_version (dir ++ (stem ++ range_suffix start end_ (object_version_id crates etag))) =
      some (object_version_id crates etag) := by
  have hplain : '/' ∉ stem ++ range_suffix start end_ (object_version_id crates etag) :=
    (hstem.append fileName_range_suffix).no_separator
  have hname : CacheTypes.file_name
      (dir ++ (stem ++ range_suffix start end_ (object_version_id crates etag))) =
      (stem ++ extent_suffix start end_ ++ '.' :: object_version_id crates etag) ++ dot_bin := by
    have hbase : base_name
        (dir ++ (stem ++ range_suffix start end_ (object_version_id crates etag))) =
        stem ++ range_suffix start end_ (object_version_id crates etag) := by
      rcases hdir with rfl | ⟨d, rfl⟩
      · exact base_name_eq_self hplain
      · rw [append_assoc, singleton_append, base_name_append hplain]
    rw [show CacheTypes.file_name = base_name from rfl, hbase, range_suffix]
    simp
  have hversion : ∀ c ∈ object_version_id crates etag,
      c ≠ '.' ∧ (c.isDigit ∨ ('a' ≤ c ∧ c ≤ 'f') ∨ ('A' ≤ c ∧ c ≤ 'F')) := by
    intro c hc
    obtain ⟨n, hn, rfl⟩ := crates.blake3_digits _ c hc
    have hall : ∀ n < 16, n.digitChar ≠ '.' ∧ (n.digitChar.isDigit ∨
        ('a' ≤ n.digitChar ∧ n.digitChar ≤ 'f') ∨ ('A' ≤ n.digitChar ∧ n.digitChar ≤ 'F')) := by
      decide
    exact hall n hn
  have hdot : '.' ∉ object_version_id crates etag := fun hmem => (hversion _ hmem).1 rfl
  have hlength : (object_version_id crates etag).length = 64 := crates.blake3_length _
  rw [range_file_version, hname, CacheTypes.strip_suffix_append, Option.bind_some,
    if_pos (by simp), takeWhile_reverse_append hdot, reverse_reverse, Option.filter_some,
    if_pos]
  exact decide_eq_true ⟨hlength, fun c hc => (hversion c hc).2⟩

/-- **A range path tells extent and version**: it belongs to an extent and a version exactly if it
was built for them, and the journal reads the version from it. -/
theorem range_path_identifies_version {etag' : List Char} {range : RangeSpec}
    (hdigest : object_version_id crates etag = object_version_id crates etag' → etag = etag')
    (hpath : IsRangePath crates cache_dir cache_key start end_ etag path)
    (hfile : range.file_path = path ∨
      relative_to (ranges_dir cache_dir) path = some range.file_path) :
    (range_file_belongs_to range (object_version_id crates etag') = true ↔
      start = range.start ∧ end_ = range.end_ ∧ etag = etag') ∧
      range_file_version range.file_path = some (object_version_id crates etag) := by
  obtain ⟨dir, stem, hstem, hdir, hform⟩ := hpath.exists_dir hfile
  have hlength : (object_version_id crates etag).length =
      (object_version_id crates etag').length := by
    rw [object_version_id, object_version_id, crates.blake3_length, crates.blake3_length]
  have hbelongs := belongs_iff_of_name hlength (hform.trans (append_assoc _ _ _).symm)
  refine ⟨?_, ?_⟩
  · rw [hbelongs]
    constructor
    · rintro ⟨hstart, hend, hversion⟩
      exact ⟨hstart, hend, hdigest hversion⟩
    · rintro ⟨hstart, hend, hetag⟩
      exact ⟨hstart, hend, hetag ▸ rfl⟩
  · rw [hform]
    exact range_file_version_of_name hdir hstem

end Recognition

def sampled_range : RangeSpec :=
  RangeSpec.new_staged 0 0 9
    (get_versioned_range_file_path sampled_crates "/cache".toList
      ("bucket/".toList ++ long_object_key) 0 9 "e".toList) 10 10 false

/-- The range asked for with another etag. -/
theorem range_path_tells_etags_apart :
    (range_file_belongs_to sampled_range (object_version_id sampled_crates "f".toList) = true ↔
      0 = sampled_range.start ∧ 9 = sampled_range.end_ ∧ "e".toList = "f".toList) ∧
      range_file_version sampled_range.file_path =
        some (object_version_id sampled_crates "e".toList) := by
  have hdigest : object_version_id sampled_crates "e".toList ≠
      object_version_id sampled_crates "f".toList := by
    decide +kernel
  have hpath : IsRangePath sampled_crates "/cache".toList ("bucket/".toList ++ long_object_key) 0 9
      "e".toList sampled_range.file_path := by
    left
    rw [sampled_range, RangeSpec.new_staged]
  exact range_path_identifies_version (fun h => absurd h hdigest) hpath (Or.inl rfl)

/-! ## Objects -/

/-- A range of a version of an object, whose cache key parses. -/
structure StoredRange where
  cache_key : FilePath
  bucket : FilePath
  object_key : FilePath
  start : UInt64
  end_ : UInt64
  etag : List Char
  parsed : parse_cache_key cache_key = .ok (bucket, object_key)

section Objects

variable (crates : Crates)

/-- The texts of a range that are put into digests. -/
def StoredRange.texts (f : StoredRange) : List FilePath :=
  [f.object_key, f.cache_key, f.etag]

/-- `NameFits`, of the name of the range. -/
def StoredRange.Fits (f : StoredRange) : Prop :=
  NameFits crates f.cache_key f.start.toNat f.end_.toNat

/-- Two objects, such that the digests of the texts at hand tell these apart, and the key of
neither is a digest of what belongs to the other. -/
structure Distinguishable (f g : StoredRange) : Prop where
  objects : (f.bucket, f.object_key) ≠ (g.bucket, g.object_key)
  digests : ∀ x ∈ f.texts ++ g.texts, ∀ y ∈ f.texts ++ g.texts,
    crates.blake3_hex (to_utf8 x) = crates.blake3_hex (to_utf8 y) → x = y
  left_key : ∀ x ∈ [g.object_key, g.cache_key], f.object_key ≠ crates.blake3_hex (to_utf8 x)
  right_key : ∀ x ∈ [f.object_key, f.cache_key], g.object_key ≠ crates.blake3_hex (to_utf8 x)

def NoSharedFile (cache_dir : FilePath) (f g : StoredRange) : Prop :=
  get_new_metadata_file_path crates cache_dir f.cache_key ≠
      get_new_metadata_file_path crates cache_dir g.cache_key ∧
    ∀ path, IsRangePath crates cache_dir f.cache_key f.start.toNat f.end_.toNat f.etag path →
      ¬ IsRangePath crates cache_dir g.cache_key g.start.toNat g.end_.toNat g.etag path

/-- The object key of one is the cache key of the other, in one bucket and shard: the digest of
that text stands for the first in its names, since its key is long, and for the second in the
name of its range, since that would be too long. -/
structure Shadows (f g : StoredRange) : Prop where
  key : f.object_key = g.cache_key
  long_key : 200 < (sanitized crates f.object_key).length
  long_name : ¬ g.Fits crates
  bucket : f.bucket = g.bucket
  shard : (crates.blake3_hex (to_utf8 f.object_key)).take 5 =
    (crates.blake3_hex (to_utf8 g.object_key)).take 5
  range : f.start = g.start ∧ f.end_ = g.end_ ∧ f.etag = g.etag

/-- What stands for the object in a name of one of its files. -/
inductive StemKind (f : StoredRange) (stem : FilePath) : Prop
  | encoded (h : stem = sanitized crates f.object_key)
  | object_digest (hlong : 200 < (sanitized crates f.object_key).length)
      (h : stem = crates.blake3_hex (to_utf8 f.object_key))
  | key_digest (hname : ¬ f.Fits crates) (h : stem = crates.blake3_hex (to_utf8 f.cache_key))

end Objects

open StoredRange

section Stems

variable {crates : Crates} {f g : StoredRange} {stem : FilePath}

theorem Distinguishable.symm (h : Distinguishable crates f g) : Distinguishable crates g f where
  objects := h.objects.symm
  digests := by
    intro x hx y hy
    exact h.digests x (mem_append.mpr (mem_append.mp hx).symm) y
      (mem_append.mpr (mem_append.mp hy).symm)
  left_key := h.right_key
  right_key := h.left_key

theorem key_stem_of_parsed : key_stem crates f.cache_key = object_stem crates f.object_key := by
  rw [key_stem, f.parsed]

theorem fits_iff :
    f.Fits crates ↔ (key_stem crates f.cache_key).length +
      (extent_suffix f.start.toNat f.end_.toNat).length + 69 ≤ 255 :=
  nameFits_iff f.parsed (length_extent_suffix_le f.start f.end_)

theorem key_stem_kind :
    key_stem crates f.cache_key = sanitized crates f.object_key ∨
      200 < (sanitized crates f.object_key).length ∧
        key_stem crates f.cache_key = crates.blake3_hex (to_utf8 f.object_key) := by
  have hbytes := (@fileName_sanitized crates f.object_key).length_to_utf8
  rw [key_stem_of_parsed, object_stem, hbytes]
  split
  · rename_i hlong
    exact Or.inr ⟨hlong, rfl⟩
  · exact Or.inl rfl

theorem stemKind_of_path (hstem : stem = store_stem crates f.cache_key f.start.toNat f.end_.toNat ∨
    stem = key_stem crates f.cache_key) : StemKind crates f stem := by
  have hkey : StemKind crates f (key_stem crates f.cache_key) := by
    rcases key_stem_kind with h | ⟨hlong, h⟩
    · exact .encoded h
    · exact .object_digest hlong h
  rcases hstem with rfl | rfl
  · unfold store_stem
    split
    · refine .key_digest ?_ rfl
      rw [fits_iff]
      omega
    · exact hkey
  · exact hkey

theorem fileName_of_stemKind (h : StemKind crates f stem) : FileName stem := by
  rcases h with rfl | ⟨-, rfl⟩ | ⟨-, rfl⟩
  · exact fileName_sanitized
  all_goals exact fileName_blake3_hex

theorem eq_digest_of_sanitized {object_key : FilePath} {bytes : List UInt8}
    (h : sanitized crates object_key = crates.blake3_hex bytes) :
    object_key = crates.blake3_hex bytes := by
  have hself : percent_encode fragment (crates.blake3_hex bytes) = crates.blake3_hex bytes := by
    apply percent_encode_eq_self
    intro c hc
    obtain ⟨n, hn, rfl⟩ := crates.blake3_digits bytes c hc
    have hall : ∀ n < 16, n.digitChar.toNat < 128 ∧
        fragment (UInt8.ofNat n.digitChar.toNat) = false := by decide
    exact hall n hn
  rw [sanitized, crates.percent_encoded, ← hself] at h
  exact percent_encode_injective (by decide) h

section

variable (h : Distinguishable crates f g)

include h

theorem digest_cache_key_ne :
    crates.blake3_hex (to_utf8 f.cache_key) ≠ crates.blake3_hex (to_utf8 g.cache_key) := by
  intro heq
  have hkey := h.digests f.cache_key (by simp [texts]) g.cache_key
    (by simp [texts]) heq
  have hparsed := f.parsed
  rw [hkey, g.parsed] at hparsed
  exact h.objects (Except.ok.inj hparsed).symm

variable (hbucket : f.bucket = g.bucket)

include hbucket

theorem not_stemKind_encoded : ¬ StemKind crates g (sanitized crates f.object_key) := by
  rintro (heq | ⟨-, heq⟩ | ⟨-, heq⟩)
  · rw [sanitized, sanitized, crates.percent_encoded, crates.percent_encoded] at heq
    exact h.objects (Prod.ext hbucket (percent_encode_injective (by decide) heq))
  · exact h.left_key g.object_key (by simp) (eq_digest_of_sanitized heq)
  · exact h.left_key g.cache_key (by simp) (eq_digest_of_sanitized heq)

theorem digest_object_key_ne :
    crates.blake3_hex (to_utf8 f.object_key) ≠ crates.blake3_hex (to_utf8 g.object_key) := by
  intro heq
  have hkey := h.digests f.object_key (by simp [texts]) g.object_key
    (by simp [texts]) heq
  exact h.objects (Prod.ext hbucket hkey)

theorem shared_stem (hf : StemKind crates f stem) (hg : StemKind crates g stem) :
    (f.object_key = g.cache_key ∧ 200 < (sanitized crates f.object_key).length ∧
        ¬ g.Fits crates) ∨
      (g.object_key = f.cache_key ∧ 200 < (sanitized crates g.object_key).length ∧
        ¬ f.Fits crates) := by
  cases hf with
  | encoded heq =>
    rw [heq] at hg
    exact absurd hg (not_stemKind_encoded h hbucket)
  | object_digest hlong heq =>
    cases hg with
    | encoded heq' =>
      exact absurd (heq' ▸ .object_digest hlong heq) (not_stemKind_encoded h.symm hbucket.symm)
    | object_digest hlong' heq' =>
      exact absurd (heq.symm.trans heq') (digest_object_key_ne h hbucket)
    | key_digest hname heq' =>
      have hkey := h.digests f.object_key (by simp [texts]) g.cache_key
        (by simp [texts]) (heq.symm.trans heq')
      exact Or.inl ⟨hkey, hlong, hname⟩
  | key_digest hname heq =>
    cases hg with
    | encoded heq' =>
      exact absurd (heq' ▸ .key_digest hname heq) (not_stemKind_encoded h.symm hbucket.symm)
    | object_digest hlong heq' =>
      have hkey := h.digests g.object_key (by simp [texts]) f.cache_key
        (by simp [texts]) (heq'.symm.trans heq)
      exact Or.inr ⟨hkey, hlong, hname⟩
    | key_digest hname' heq' => exact absurd (heq.symm.trans heq') (digest_cache_key_ne h)

end

end Stems

section Shared

variable {crates : Crates} {f g : StoredRange}

theorem key_dirs_eq_iff : key_dirs crates f.cache_key = key_dirs crates g.cache_key ↔
    f.bucket = g.bucket ∧ (crates.blake3_hex (to_utf8 f.object_key)).take 5 =
      (crates.blake3_hex (to_utf8 g.object_key)).take 5 := by
  have hfive : ∀ digest : FilePath, digest.take 5 = digest.take 2 ++ (digest.drop 2).take 3 := by
    intro digest
    exact @List.take_add _ digest 2 3
  have hlength : ∀ text : FilePath, ((crates.blake3_hex (to_utf8 text)).take 2).length = 2 := by
    intro text
    rw [length_take, crates.blake3_length]
    decide
  rw [key_dirs, f.parsed, key_dirs, g.parsed, hfive, hfive]
  constructor
  · intro h
    injection h with hbucket h
    injection h with hlevel1 h
    injection h with hlevel2 _
    exact ⟨hbucket, by rw [hlevel1, hlevel2]⟩
  · rintro ⟨hbucket, hshard⟩
    obtain ⟨hlevel1, hlevel2⟩ := append_inj hshard (by rw [hlength, hlength])
    show [f.bucket, _, _] = [g.bucket, _, _]
    rw [hbucket, hlevel1, hlevel2]

variable {key key' cache_dir : FilePath}

theorem key_path_injective {base stem stem' suffix suffix' : FilePath} (hstem : FileName stem)
    (hstem' : FileName stem') (hsuffix : FileName suffix) (hsuffix' : FileName suffix')
    (hlength : 2 < suffix.length) (hlength' : 2 < suffix'.length)
    (h : under base (key_dirs crates key ++ [stem ++ suffix]) =
      under base (key_dirs crates key' ++ [stem' ++ suffix'])) :
    key_dirs crates key = key_dirs crates key' ∧ stem ++ suffix = stem' ++ suffix' := by
  have hsegments := @cleanSegment_key_path crates key _ hsuffix hlength _ hstem
  have hsegments' := @cleanSegment_key_path crates key' _ hsuffix' hlength' _ hstem'
  have hsame := under_injective (by simp) (by simp)
    (fun name hname => (hsegments name hname).no_separator)
    (fun name hname => (hsegments' name hname).no_separator) h
  obtain ⟨hdirs, hname⟩ := append_inj' hsame rfl
  exact ⟨hdirs, (List.cons.inj hname).1⟩

theorem same_of_shared_path {path : FilePath}
    (hf : IsRangePath crates cache_dir f.cache_key f.start.toNat f.end_.toNat f.etag path)
    (hg : IsRangePath crates cache_dir g.cache_key g.start.toNat g.end_.toNat g.etag path) :
    key_dirs crates f.cache_key = key_dirs crates g.cache_key ∧
      f.start = g.start ∧ f.end_ = g.end_ ∧
      object_version_id crates f.etag = object_version_id crates g.etag ∧
      ∃ stem, StemKind crates f stem ∧ StemKind crates g stem := by
  obtain ⟨stem, hstem, hpath⟩ := hf.exists_stem
  obtain ⟨stem', hstem', hpath'⟩ := hg.exists_stem
  have hkind := stemKind_of_path hstem
  have hkind' := stemKind_of_path hstem'
  obtain ⟨hdirs, hname⟩ := key_path_injective (fileName_of_stemKind hkind)
    (fileName_of_stemKind hkind') fileName_range_suffix fileName_range_suffix
    (by rw [length_range_suffix]; omega) (by rw [length_range_suffix]; omega)
    (hpath.symm.trans hpath')
  have hversions : (object_version_id crates f.etag).length =
      (object_version_id crates g.etag).length := by
    rw [object_version_id, object_version_id, crates.blake3_length, crates.blake3_length]
  obtain ⟨rfl, hstart, hend, hversion⟩ := range_suffix_cancel hversions hname
  exact ⟨hdirs, UInt64.toNat_inj.mp hstart, UInt64.toNat_inj.mp hend, hversion, stem, hkind, hkind'⟩

theorem Shadows.shared_path (cache_dir : FilePath) (h : Shadows crates f g) :
    get_versioned_range_file_path crates cache_dir f.cache_key f.start.toNat f.end_.toNat f.etag =
      get_versioned_range_file_path crates cache_dir g.cache_key g.start.toNat g.end_.toNat
        g.etag := by
  obtain ⟨hstart, hend, hetag⟩ := h.range
  have hdirs := key_dirs_eq_iff.mpr ⟨h.bucket, h.shard⟩
  have hextent := length_extent_suffix_le f.start f.end_
  have hbytes := (@fileName_sanitized crates f.object_key).length_to_utf8
  have hkey : key_stem crates f.cache_key = crates.blake3_hex (to_utf8 g.cache_key) := by
    rw [key_stem_of_parsed, object_stem, hbytes, if_pos h.long_key, h.key]
  have hlong := h.long_name
  rw [fits_iff] at hlong
  have hf : store_stem crates f.cache_key f.start.toNat f.end_.toNat =
      crates.blake3_hex (to_utf8 g.cache_key) := by
    rw [store_stem, hkey, crates.blake3_length, if_neg (by omega)]
  have hg : store_stem crates g.cache_key g.start.toNat g.end_.toNat =
      crates.blake3_hex (to_utf8 g.cache_key) := by
    rw [store_stem, if_pos (by omega)]
  rw [get_versioned_range_file_path_eq, get_versioned_range_file_path_eq, hf, hg, hdirs, hstart,
    hend, hetag]

theorem same_of_metadata_file_path_eq
    (heq : get_new_metadata_file_path crates cache_dir key =
      get_new_metadata_file_path crates cache_dir key') :
    key_dirs crates key = key_dirs crates key' ∧ key_stem crates key = key_stem crates key' := by
  rw [get_new_metadata_file_path_eq, get_new_metadata_file_path_eq] at heq
  have hmeta : FileName ".meta".toList := by decide
  obtain ⟨hdirs, hname⟩ := key_path_injective fileName_key_stem fileName_key_stem
    hmeta hmeta (by decide) (by decide) heq
  exact ⟨hdirs, append_cancel_right hname⟩

/-- Keys as `normalize_cache_key` leaves them: an object whose encoded key is too short for a digest
is told by its metadata file. -/
theorem cache_key_of_metadata_file_path_eq {bucket object_key : FilePath}
    (hparse : parse_cache_key key = .ok (bucket, object_key))
    (hshort : (sanitized crates object_key).length < 64) (hslash : key.head? ≠ some '/')
    (hslash' : key'.head? ≠ some '/')
    (heq : get_new_metadata_file_path crates cache_dir key' =
      get_new_metadata_file_path crates cache_dir key) :
    key' = key := by
  obtain ⟨hdirs, hstem⟩ := same_of_metadata_file_path_eq heq
  -- the key without a slash before it
  have hwhole : ∀ {k b o : FilePath}, parse_cache_key k = .ok (b, o) → k.head? ≠ some '/' →
      k = b ++ '/' :: o := by
    intro k b o hk hhead
    rcases (parse_cache_key_eq_ok hk).2.2 with hkey | hkey
    · exact hkey
    · rw [hkey] at hhead
      exact absurd rfl hhead
  have hencoded : object_stem crates object_key = sanitized crates object_key := by
    rw [object_stem, (@fileName_sanitized crates object_key).length_to_utf8, if_neg (by omega)]
  rw [key_dirs, key_dirs, hparse] at hdirs
  rw [key_stem, key_stem, hparse] at hstem
  cases hparse' : parse_cache_key key' with
  | error e =>
    rw [hparse'] at hdirs
    cases hdirs
  | ok parts =>
    obtain ⟨bucket', object_key'⟩ := parts
    rw [hparse'] at hdirs hstem
    obtain rfl : bucket' = bucket := (List.cons.inj hdirs).1
    change object_stem crates object_key' = object_stem crates object_key at hstem
    rw [hencoded, object_stem] at hstem
    split at hstem
    · have hlength := congrArg List.length hstem
      rw [crates.blake3_length] at hlength
      omega
    · rw [sanitized, sanitized, crates.percent_encoded, crates.percent_encoded] at hstem
      obtain rfl : object_key' = object_key := percent_encode_injective (by decide) hstem
      rw [hwhole hparse' hslash', hwhole hparse hslash]

theorem metadata_file_path_ne (cache_dir : FilePath) (h : Distinguishable crates f g) :
    get_new_metadata_file_path crates cache_dir f.cache_key ≠
      get_new_metadata_file_path crates cache_dir g.cache_key := by
  intro heq
  obtain ⟨hdirs, hstem⟩ := same_of_metadata_file_path_eq heq
  have hbucket := (key_dirs_eq_iff.mp hdirs).1
  rcases key_stem_kind with hf | ⟨-, hf⟩
  · refine not_stemKind_encoded h hbucket ?_
    rw [← hf]
    exact stemKind_of_path (Or.inr hstem)
  · rcases key_stem_kind with hg | ⟨-, hg⟩
    · refine not_stemKind_encoded h.symm hbucket.symm ?_
      rw [← hg]
      exact stemKind_of_path (Or.inr hstem.symm)
    · refine digest_object_key_ne h hbucket ?_
      rw [← hf, ← hg, hstem]

/-- **Two objects have no file in common, exactly if neither shadows the other.** -/
theorem no_shared_file_iff_not_shadows (cache_dir : FilePath) (h : Distinguishable crates f g) :
    NoSharedFile crates cache_dir f g ↔ ¬ Shadows crates f g ∧ ¬ Shadows crates g f := by
  constructor
  · intro hshared
    refine ⟨fun hshadows => ?_, fun hshadows => ?_⟩
    · exact hshared.2 _ (Or.inl rfl) (Or.inl (hshadows.shared_path cache_dir))
    · exact hshared.2 _ (Or.inl rfl) (Or.inl (hshadows.shared_path cache_dir).symm)
  · rintro ⟨hfg, hgf⟩
    refine ⟨metadata_file_path_ne cache_dir h, ?_⟩
    intro path hf hg
    obtain ⟨hdirs, hstart, hend, hversion, stem, hkind, hkind'⟩ := same_of_shared_path hf hg
    obtain ⟨hbucket, hshard⟩ := key_dirs_eq_iff.mp hdirs
    have hetag := h.digests f.etag (by simp [texts]) g.etag
      (by simp [texts]) hversion
    rcases shared_stem h hbucket hkind hkind' with ⟨hkey, hlong, hname⟩ | ⟨hkey, hlong, hname⟩
    · exact hfg ⟨hkey, hlong, hname, hbucket, hshard, hstart, hend, hetag⟩
    · exact hgf ⟨hkey, hlong, hname, hbucket.symm, hshard.symm, hstart.symm, hend.symm, hetag.symm⟩

end Shared

def shadowed : StoredRange where
  cache_key := "bucket/".toList ++ long_object_key
  bucket := "bucket".toList
  object_key := long_object_key
  start := 0
  end_ := 9
  etag := "e".toList
  parsed := by decide +kernel

/-- Bytes from the beginning of the object whose key is the cache key of the first, up to an
offset. -/
def shadowing (end_ : UInt64) : StoredRange where
  cache_key := "bucket/bucket/".toList ++ long_object_key
  bucket := "bucket".toList
  object_key := "bucket/".toList ++ long_object_key
  start := 0
  end_ := end_
  etag := "e".toList
  parsed := by decide +kernel

theorem distinguishable_shadowing (end_ : UInt64) :
    Distinguishable sampled_crates (shadowing end_) shadowed where
  objects := by
    show ("bucket".toList, "bucket/".toList ++ long_object_key) ≠ ("bucket".toList, long_object_key)
    decide +kernel
  digests := by
    show ∀ x ∈ (shadowing 0).texts ++ shadowed.texts, ∀ y ∈ (shadowing 0).texts ++ shadowed.texts,
      sampled_crates.blake3_hex (to_utf8 x) = sampled_crates.blake3_hex (to_utf8 y) → x = y
    decide +kernel
  left_key := by
    show ∀ x ∈ [shadowed.object_key, shadowed.cache_key],
      (shadowing 0).object_key ≠ sampled_crates.blake3_hex (to_utf8 x)
    decide +kernel
  right_key := by
    show ∀ x ∈ [(shadowing 0).object_key, (shadowing 0).cache_key],
      shadowed.object_key ≠ sampled_crates.blake3_hex (to_utf8 x)
    decide +kernel

/-- Ranges of two lengths of these objects have two files. -/
theorem longer_range_not_shared :
    NoSharedFile sampled_crates "/cache".toList (shadowing 19) shadowed :=
  (no_shared_file_iff_not_shadows "/cache".toList (distinguishable_shadowing 19)).mpr
    ⟨fun h => absurd h.range.2.1 (by decide), fun h => absurd h.range.2.1 (by decide)⟩

def shared_file : FilePath :=
  under "/cache/ranges".toList ["bucket".toList, "7f".toList, "8d1".toList,
    Nat.toDigits 16 0x7f8d1360df6225c0cd71168edf2c1e64aace82ad08d480d4f359bae44d50d607 ++
      "_0-9.".toList ++
      Nat.toDigits 16 0x27bb492e108bf5e9c724176d7ae75d4cedc422fe4065020bd6140c3fcad3a9e7 ++
      ".bin".toList]

/-- The same range of the two objects has one file: their keys' digests begin with the same five
digits. -/
theorem shadowed_range_shares_file :
    Distinguishable sampled_crates (shadowing 9) shadowed ∧
      get_versioned_range_file_path sampled_crates "/cache".toList (shadowing 9).cache_key 0 9
        "e".toList = shared_file ∧
      get_versioned_range_file_path sampled_crates "/cache".toList shadowed.cache_key 0 9
        "e".toList = shared_file ∧
      ¬ NoSharedFile sampled_crates "/cache".toList (shadowing 9) shadowed := by
  have hf : get_versioned_range_file_path sampled_crates "/cache".toList
      (shadowing 9).cache_key 0 9 "e".toList = shared_file := by
    decide +kernel
  have hg : get_versioned_range_file_path sampled_crates "/cache".toList
      shadowed.cache_key 0 9 "e".toList = shared_file := by
    decide +kernel
  refine ⟨distinguishable_shadowing 9, hf, hg, ?_⟩
  intro hshared
  exact hshared.2 shared_file (Or.inl hf.symm) (Or.inl hg.symm)

end HybridCache.DiskCache
