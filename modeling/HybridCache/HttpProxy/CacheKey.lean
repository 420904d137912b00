/-
What a cache key says about the object (`generate_cache_key`, `extract_virtual_hosted_bucket` and
`extract_access_point_prefix` in `cache.rs`).

The key is a name and the object key. The name is that of the bucket, or ends in `-s3alias` for an
access point, in `.mrap` for a multi-region one. Three things make one key of two objects
(`Clash`): the region of an access point is not in its name; a legacy global host is read as a
regional one if its bucket ends in `.s3` or `.s3.dualstack`; and a bucket with a label
`s3-accesspoint` is read as an access point.
-/
import HybridCache.HttpProxy.Bypass
import HybridCache.Lib.Path

namespace HybridCache.HttpProxy

open Lib List Option
open CacheTypes (strip_suffix strip_suffix_append strip_suffix_eq_some)

/-! ## Requests to S3 -/

/-- A bucket name, with those of the rules for bucket names that matter to a cache key. -/
structure BucketName where
  name : List Char
  nonempty : name ≠ []
  head_ne_dot : name.head? ≠ some '.'
  no_slash : '/' ∉ name
  not_alias : ¬ "-s3alias".toList <:+ name
  not_mrap : ¬ ".mrap".toList <:+ name

/-- A region: one label, and none of those that the hosts of S3 have elsewhere. -/
structure Region where
  name : List Char
  nonempty : name ≠ []
  no_dot : '.' ∉ name
  no_slash : '/' ∉ name
  not_service : name ∉ ["s3".toList, "s3-accesspoint".toList, "s3-accelerate".toList,
    "s3-global".toList, "dualstack".toList]

/-- The name of an access point, or the alias of a multi-region one: one label. -/
structure Label where
  name : List Char
  nonempty : name ≠ []
  no_dot : '.' ∉ name
  no_slash : '/' ∉ name

/-- An account: twelve digits. -/
structure Account where
  digits : List Char
  length : digits.length = 12
  digit : ∀ c ∈ digits, c.isDigit = true

/-- The hosts for requests that have the bucket in the path. -/
inductive PathStyleHost where
  | regional (region : Region)
  | dual_stack (region : Region)
  | global

/-- The forms of S3 endpoints. The alias of a multi-region access point may have the ending
`.mrap` in the host. -/
inductive Endpoint where
  | path_style (host : PathStyleHost) (bucket : BucketName)
  | virtual_hosted (bucket : BucketName) (region : Region)
  | dual_stack (bucket : BucketName) (region : Region)
  | legacy_global (bucket : BucketName)
  | accelerate (bucket : BucketName) (no_dot : '.' ∉ bucket.name) (dual : Bool)
  | access_point (name : Label) (account : Account) (region : Region) (dual : Bool)
  | multi_region (name : Label) (suffixed : Bool)

/-- A request for an object; the key is as it stands in the path. -/
structure ObjectRequest where
  endpoint : Endpoint
  key : List Char

def dotted (labels : List (List Char)) : List Char :=
  labels.flatMap ('.' :: ·)

def aws : List (List Char) := ["amazonaws".toList, "com".toList]

def dual_label (dual : Bool) : List (List Char) :=
  if dual then ["dualstack".toList] else []

def PathStyleHost.host : PathStyleHost → List Char
  | .regional region => "s3".toList ++ dotted (region.name :: aws)
  | .dual_stack region => "s3".toList ++ dotted ("dualstack".toList :: region.name :: aws)
  | .global => "s3".toList ++ dotted aws

def qualified (name account : List Char) : List Char :=
  name ++ '-' :: account

def Endpoint.host : Endpoint → List Char
  | .path_style host _ => host.host
  | .virtual_hosted bucket region => bucket.name ++ dotted ("s3".toList :: region.name :: aws)
  | .dual_stack bucket region =>
    bucket.name ++ dotted ("s3".toList :: "dualstack".toList :: region.name :: aws)
  | .legacy_global bucket => bucket.name ++ dotted ("s3".toList :: aws)
  | .accelerate bucket _ dual =>
    bucket.name ++ dotted ("s3-accelerate".toList :: (dual_label dual ++ aws))
  | .access_point name account region dual =>
    qualified name.name account.digits ++
      dotted ("s3-accesspoint".toList :: (dual_label dual ++ region.name :: aws))
  | .multi_region name suffixed =>
    name.name ++ dotted ((if suffixed then ["mrap".toList] else []) ++
      "accesspoint".toList :: "s3-global".toList :: aws)

def ObjectRequest.path (request : ObjectRequest) : List Char :=
  match request.endpoint with
  | .path_style _ bucket => '/' :: (bucket.name ++ '/' :: request.key)
  | _ => '/' :: request.key

def ObjectRequest.cache_key (request : ObjectRequest) : List Char :=
  generate_cache_key request.path request.endpoint.host

inductive Target where
  | bucket (name : List Char)
  | access_point (name account region : List Char)
  | multi_region (name : List Char)
deriving DecidableEq, Repr

def Endpoint.target : Endpoint → Target
  | .path_style _ bucket | .virtual_hosted bucket _ | .dual_stack bucket _
  | .legacy_global bucket | .accelerate bucket _ _ => .bucket bucket.name
  | .access_point name account region _ => .access_point name.name account.digits region.name
  | .multi_region name _ => .multi_region name.name

def Target.folder : Target → List Char
  | .bucket name => name
  | .access_point name account _ => qualified name account ++ "-s3alias".toList
  | .multi_region name => name ++ ".mrap".toList

/-! ## Hosts that are misread -/

def captured (bucket : List Char) : Option (List Char) :=
  before_first ".s3-accesspoint.".toList (bucket ++ ['.'])

def cut (bucket : List Char) : Option (List Char) :=
  (strip_suffix bucket ".s3.dualstack".toList).or (strip_suffix bucket ".s3".toList)

/-- The name of an access point with its ending, which it may have already. -/
def aliased (name : List Char) : List Char :=
  if "-s3alias".toList <:+ name then name else name ++ "-s3alias".toList

/-- The folder a host is taken for that is not the one of its bucket. A label `s3-accesspoint`
makes an access point of a bucket; in a legacy global host, what follows the bucket is also
what follows a region. -/
def Endpoint.taken_for : Endpoint → Option (List Char)
  | .virtual_hosted bucket _ | .dual_stack bucket _ => (captured bucket.name).map aliased
  | .legacy_global bucket => ((captured bucket.name).map aliased).or (cut bucket.name)
  | _ => none

/-- Two access points that differ in the region only. -/
def OtherRegion : Target → Target → Prop
  | .access_point name account region, .access_point name' account' region' =>
    name = name' ∧ account = account' ∧ region ≠ region'
  | _, _ => False

/-- A host that is taken for the bucket or access point of another one, or for the same as
another one that is misread too. -/
def Mistaken (e e' : Endpoint) : Prop :=
  ∃ folder, e.taken_for = some folder ∧
    (e'.taken_for = none ∧ folder = e'.target.folder ∨
      e'.taken_for = some folder ∧ e.target ≠ e'.target)

/-- Two requests for one object key whose access points differ in the region only, or one of which
has a host that is mistaken for that of the other. -/
def Clash (r r' : ObjectRequest) : Prop :=
  r.key = r'.key ∧ (OtherRegion r.endpoint.target r'.endpoint.target ∨
    Mistaken r.endpoint r'.endpoint ∨ Mistaken r'.endpoint r.endpoint)

/-! ## Labels -/

section Labels

variable {x y h stem : List Char}

theorem dotted_append (xs ys : List (List Char)) : dotted (xs ++ ys) = dotted xs ++ dotted ys :=
  flatMap_append

theorem dotted_cons (label : List Char) (labels : List (List Char)) :
    dotted (label :: labels) = '.' :: (label ++ dotted labels) := by
  simp [dotted]

theorem strip_suffix_append_append (h stem tail : List Char) :
    strip_suffix (h ++ tail) (stem ++ tail) = strip_suffix h stem := by
  apply Option.ext
  intro front
  rw [strip_suffix_eq_some, strip_suffix_eq_some, ← append_assoc, append_cancel_right_eq]

theorem strip_label_ne (hx : '.' ∉ x) (hy : '.' ∉ y) (hne : x ≠ y)
    (tail : List (List Char)) :
    strip_suffix (h ++ dotted (x :: tail)) (stem ++ dotted (y :: tail)) = none := by
  rw [dotted_cons, dotted_cons, ← cons_append, ← cons_append, ← append_assoc,
    ← append_assoc, strip_suffix_append_append, eq_none_iff_forall_ne_some]
  intro front hfront
  have heq := strip_suffix_eq_some.mp hfront
  rw [← append_assoc] at heq
  exact hne (append_last_cancel hx hy heq).2

theorem rsplit_once_dot_append (hx : '.' ∉ x) (h : List Char) :
    rsplit_once_dot (h ++ '.' :: x) = some (h, x) := by
  unfold rsplit_once_dot
  rw [if_pos (by simp)]
  have hlast := takeWhile_reverse_append hx h
  have hlength : (h ++ '.' :: x).length - x.length - 1 = h.length := by
    rw [length_append, length_cons]
    omega
  simp only [hlast, reverse_reverse, hlength, take_left]

end Labels

/-! ## A label as a marker -/

section Marker

variable {w x y h s t sub : List Char}

def marker (w : List Char) : List Char := '.' :: (w ++ ['.'])

theorem before_first_eq_none (hsub : sub ≠ []) : before_first sub s = none ↔ ¬ sub <:+: s := by
  induction s with
  | nil => simp [before_first, hsub]
  | cons c s ih =>
    rw [before_first, infix_cons_iff, not_or, ← ih]
    by_cases hfront : sub <+: c :: s <;> simp [hfront]

theorem before_first_eq_some (hfirst : before_first sub s = some x) :
    ∃ rest, s = x ++ (sub ++ rest) := by
  induction s generalizing x with
  | nil =>
    by_cases hsub : sub = []
    · simp_all [before_first]
    · simp [before_first, hsub] at hfirst
  | cons c s ih =>
    rw [before_first] at hfirst
    split at hfirst
    · rename_i hfront
      obtain ⟨rest, hrest⟩ := hfront
      rw [← Option.some.inj hfirst]
      exact ⟨rest, hrest.symm⟩
    · obtain ⟨y, hy, rfl⟩ := map_eq_some_iff.mp hfirst
      obtain ⟨rest, hrest⟩ := ih hy
      exact ⟨rest, by rw [hrest, cons_append]⟩

theorem before_first_of_count_le (h : s.count '.' ≤ 1) : before_first (marker w) s = none := by
  rw [before_first_eq_none (by simp [marker])]
  intro hinner
  have hle := hinner.sublist.count_le '.'
  simp only [marker, count_cons_self, count_append] at hle
  omega

section

variable (hw : '.' ∉ w)

include hw

theorem marker_front_iff (c : Char) (s t : List Char) :
    marker w <+: c :: (s ++ '.' :: t) ↔ marker w <+: c :: (s ++ ['.']) := by
  have hdot : c :: (s ++ ['.']) <+: c :: (s ++ '.' :: t) := ⟨t, by simp⟩
  constructor
  · intro hfront
    rcases prefix_or_prefix_of_prefix hfront hdot with hfront | hshort
    · exact hfront
    · have htail : s ++ ['.'] <+: w ++ ['.'] := (cons_prefix_cons.mp hshort).2
      rcases prefix_concat_iff.mp htail with heq | hin
      · rw [heq]
        have hhead : c = '.' := (cons_prefix_cons.mp hshort).1
        exact cons_prefix_cons.mpr ⟨hhead.symm, prefix_rfl⟩
      · -- the label itself would have a dot
        exact absurd (hin.subset (by simp)) hw
  · intro hfront
    exact hfront.trans hdot

theorem before_first_append_dot (s t : List Char) :
    before_first (marker w) (s ++ '.' :: t) =
      (before_first (marker w) (s ++ ['.'])).or
        ((before_first (marker w) ('.' :: t)).map (s ++ ·)) := by
  induction s with
  | nil =>
    rw [nil_append, nil_append, @before_first_of_count_le w ['.'] (by simp)]
    simp
  | cons c s ih =>
    rw [cons_append, cons_append, before_first, before_first, ih]
    by_cases hfront : marker w <+: c :: (s ++ ['.'])
    · rw [if_pos ((marker_front_iff hw c s t).mpr hfront), if_pos hfront, some_or]
    · rw [if_neg (mt (marker_front_iff hw c s t).mp hfront), if_neg hfront, map_or, Option.map_map]
      rfl

theorem before_first_label (hx : '.' ∉ x) :
    before_first (marker w) (('.' :: x) ++ ['.']) = if x = w then some [] else none := by
  have hfront : marker w <+: '.' :: (x ++ ['.']) ↔ x = w := by
    unfold marker
    rw [cons_prefix_cons, prefix_concat_iff]
    constructor
    · rintro ⟨-, heq | hin⟩
      · exact (append_cancel_right heq).symm
      · exact absurd (hin.subset (by simp)) hx
    · rintro rfl
      exact ⟨rfl, .inl rfl⟩
  have hrest : before_first (marker w) (x ++ ['.']) = none :=
    before_first_of_count_le (by simp [count_eq_zero_of_not_mem hx])
  rw [cons_append, before_first, hrest]
  simp [hfront]

variable {labels : List (List Char)}

theorem before_first_dotted (hlabels : ∀ l ∈ labels, '.' ∉ l ∧ l ≠ w) :
    before_first (marker w) (dotted labels) = none := by
  induction labels with
  | nil => exact before_first_of_count_le (by simp [dotted])
  | cons x labels ih =>
    obtain ⟨hx, hne⟩ := hlabels x (by simp)
    have hrest := ih fun l hl => hlabels l (by simp [hl])
    cases labels with
    | nil => exact before_first_of_count_le (by simp [dotted, count_eq_zero_of_not_mem hx])
    | cons y labels =>
      rw [dotted_cons] at hrest
      rw [dotted_cons, dotted_cons, ← cons_append, before_first_append_dot hw,
        before_first_label hw hx, if_neg hne, hrest]
      rfl

theorem before_first_append_dotted (h : List Char) (hne : labels ≠ [])
    (hlabels : ∀ l ∈ labels, '.' ∉ l ∧ l ≠ w) :
    before_first (marker w) (h ++ dotted labels) = before_first (marker w) (h ++ ['.']) := by
  obtain ⟨x, labels, rfl⟩ := exists_cons_of_ne_nil hne
  have hnone := before_first_dotted hw hlabels
  rw [dotted_cons] at hnone ⊢
  rw [before_first_append_dot hw, hnone, map_none, or_none]

theorem before_first_marked (hx : '.' ∉ x) (y : List Char) (labels : List (List Char)) :
    before_first (marker w) (x ++ dotted (w :: y :: labels)) = some x := by
  have hone : before_first (marker w) (x ++ ['.']) = none :=
    before_first_of_count_le (by simp [count_eq_zero_of_not_mem hx])
  have hfound : before_first (marker w) ('.' :: (w ++ dotted (y :: labels))) = some [] := by
    rw [dotted_cons, ← cons_append, before_first_append_dot hw, before_first_label hw hw,
      if_pos rfl, some_or]
  rw [dotted_cons, before_first_append_dot hw, hone, hfound]
  simp

end

end Marker

/-! ## What the host is read as -/

section Reading

variable {x h : List Char} {labels : List (List Char)}

theorem Region.ne (region : Region) {label : List Char}
    (hlabel : label ∈ ["s3".toList, "s3-accesspoint".toList, "s3-accelerate".toList,
      "s3-global".toList, "dualstack".toList]) : region.name ≠ label :=
  fun heq => region.not_service (heq ▸ hlabel)

theorem reserved_name_alias (hne : h ≠ []) :
    reserved_name h "-s3alias".toList = some (aliased h) := by
  unfold reserved_name aliased
  rw [if_neg hne]
  split <;> rfl

theorem captured_ne_nil (hhead : h.head? ≠ some '.') (hcaptured : captured h = some x) :
    x ≠ [] := by
  rintro rfl
  obtain ⟨rest, hrest⟩ := before_first_eq_some hcaptured
  -- the name would begin with the dot in front of the label
  cases h with
  | nil => simp at hrest
  | cons c h =>
    have hdot : c = '.' := (List.cons.inj hrest).1
    exact hhead (by rw [hdot, List.head?_cons])

theorem captured_of_no_dot (hdot : '.' ∉ h) : captured h = none :=
  @before_first_of_count_le "s3-accesspoint".toList _
    (by simp [count_eq_zero_of_not_mem hdot])

/-- Before a label other than that of the multi-region hosts, only the label of access points
counts. -/
theorem access_point_prefix_eq (hx : '.' ∉ x) (hne : x ≠ "s3-global".toList) (h : List Char) :
    extract_access_point_prefix (h ++ dotted (x :: aws)) =
      (before_first (marker "s3-accesspoint".toList) (h ++ dotted (x :: aws))).bind
        (reserved_name · "-s3alias".toList) := by
  have hstrip : strip_suffix (h ++ dotted (x :: aws))
      (dotted ["accesspoint".toList] ++ dotted ("s3-global".toList :: aws)) = none :=
    strip_label_ne hx (by decide) hne aws
  have htld : ".amazonaws.com".toList <:+ h ++ dotted (x :: aws) := by
    refine ⟨h ++ '.' :: x, ?_⟩
    rw [append_assoc]
    rfl
  unfold extract_access_point_prefix
  rw [show ".accesspoint.s3-global.amazonaws.com".toList =
    dotted ["accesspoint".toList] ++ dotted ("s3-global".toList :: aws) from rfl, hstrip]
  rw [show ".s3-accesspoint.".toList = marker "s3-accesspoint".toList from rfl]
  cases before_first (marker "s3-accesspoint".toList) (h ++ dotted (x :: aws)) with
  | none => rfl
  | some name => exact if_pos htld

theorem access_point_prefix_of_bucket (hx : '.' ∉ x) (hne : x ≠ "s3-global".toList)
    (hlabels : ∀ l ∈ labels ++ [x], '.' ∉ l ∧ l ≠ "s3-accesspoint".toList)
    (hhead : h.head? ≠ some '.') :
    extract_access_point_prefix (h ++ dotted (labels ++ x :: aws)) = (captured h).map aliased := by
  have hall : ∀ l ∈ labels ++ x :: aws, '.' ∉ l ∧ l ≠ "s3-accesspoint".toList := by
    rw [append_cons]
    exact forall_mem_append.mpr ⟨hlabels, by decide⟩
  have hfirst : before_first (marker "s3-accesspoint".toList) (h ++ dotted (labels ++ x :: aws)) =
      captured h := before_first_append_dotted (by decide) h (by simp) hall
  have hassoc : h ++ dotted (labels ++ x :: aws) = (h ++ dotted labels) ++ dotted (x :: aws) := by
    rw [dotted_append, append_assoc]
  rw [hassoc, access_point_prefix_eq hx hne, ← hassoc, hfirst]
  cases hcaptured : captured h with
  | none => rfl
  | some name =>
    exact reserved_name_alias (captured_ne_nil hhead hcaptured)

theorem virtual_hosted_bucket_eq (hx : '.' ∉ x)
    (hne : x ∉ ["dualstack".toList, "s3-accelerate".toList]) (h : List Char) :
    extract_virtual_hosted_bucket (h ++ dotted (x :: aws)) = regional_bucket (h ++ '.' :: x) := by
  have hdual : strip_suffix (h ++ dotted (x :: aws))
      (dotted ["s3-accelerate".toList] ++ dotted ("dualstack".toList :: aws)) = none :=
    strip_label_ne hx (by decide) (fun heq => hne (by simp [heq])) aws
  have hplain : strip_suffix (h ++ dotted (x :: aws))
      ([] ++ dotted ("s3-accelerate".toList :: aws)) = none :=
    strip_label_ne hx (by decide) (fun heq => hne (by simp [heq])) aws
  have htld : strip_suffix (h ++ dotted (x :: aws)) ".amazonaws.com".toList =
      some (h ++ '.' :: x) := by
    rw [strip_suffix_eq_some, append_assoc]
    rfl
  unfold extract_virtual_hosted_bucket
  rw [show ".s3-accelerate.dualstack.amazonaws.com".toList =
      dotted ["s3-accelerate".toList] ++ dotted ("dualstack".toList :: aws) from rfl, hdual,
    show ".s3-accelerate.amazonaws.com".toList =
      [] ++ dotted ("s3-accelerate".toList :: aws) from rfl, hplain, htld]
  rfl

theorem regional_bucket_eq (hx : '.' ∉ x) (hne : x ≠ []) (h : List Char) :
    regional_bucket (h ++ '.' :: x) =
      ((cut h).map nonempty_bucket).getD (legacy_bucket (h ++ '.' :: x)) := by
  unfold regional_bucket cut
  rw [rsplit_once_dot_append hx]
  simp only [if_neg hne]
  cases strip_suffix h ".s3.dualstack".toList with
  | some bucket => rfl
  | none =>
    cases strip_suffix h ".s3".toList with
    | some bucket | none => rfl

theorem legacy_bucket_of_ne (hx : '.' ∉ x) (hne : x ≠ "s3".toList) (h : List Char) :
    legacy_bucket (h ++ '.' :: x) = none := by
  have hstrip := @strip_label_ne x "s3".toList h [] hx (by decide) hne []
  unfold legacy_bucket
  rw [show h ++ '.' :: x = h ++ dotted [x] by simp [dotted],
    show ".s3".toList = [] ++ dotted ["s3".toList] from rfl, hstrip]
  rfl

theorem cut_append (bucket : List Char) (dual : Bool) :
    cut (bucket ++ dotted ("s3".toList :: dual_label dual)) = some bucket := by
  unfold cut
  cases dual with
  | true =>
    rw [show ".s3.dualstack".toList = dotted ("s3".toList :: dual_label true) from rfl,
      strip_suffix_append, some_or]
  | false =>
    have hdual := @strip_label_ne "s3".toList "dualstack".toList bucket (dotted ["s3".toList])
      (by decide) (by decide) (by decide) []
    rw [show ".s3.dualstack".toList = dotted ["s3".toList] ++ dotted ["dualstack".toList] from rfl,
      show dual_label false = [] from rfl, hdual, none_or]
    exact strip_suffix_append bucket _

theorem cut_eq_some (hcut : cut h = some x) :
    ∃ dual, h = x ++ dotted ("s3".toList :: dual_label dual) := by
  rcases or_eq_some_iff.mp hcut with hdual | ⟨-, hplain⟩
  · exact ⟨true, strip_suffix_eq_some.mp hdual⟩
  · exact ⟨false, strip_suffix_eq_some.mp hplain⟩

end Reading

/-! ## The folder of a request -/

def Endpoint.folder (e : Endpoint) : List Char :=
  e.taken_for.getD e.target.folder

def host_name (host : List Char) : Option (List Char) :=
  extract_access_point_prefix host |>.or (extract_virtual_hosted_bucket host)

theorem generate_cache_key_of_some {host name : List Char} (hname : host_name host = some name)
    (path : List Char) : generate_cache_key ('/' :: path) host = name ++ '/' :: path := by
  unfold host_name at hname
  unfold generate_cache_key
  rw [hname]
  rfl

theorem generate_cache_key_of_none {host : List Char} (hname : host_name host = none)
    (path : List Char) : generate_cache_key ('/' :: path) host = path := by
  unfold host_name at hname
  unfold generate_cache_key
  rw [hname]
  rfl

section Hosts

variable (bucket : BucketName) (region : Region) (name : Label) (account : Account) (dual : Bool)

theorem regional_labels :
    ∀ l ∈ dual_label dual ++ [region.name], '.' ∉ l ∧ l ≠ "s3-accesspoint".toList := by
  refine forall_mem_append.mpr ⟨?_, forall_mem_singleton.mpr ?_⟩
  · cases dual <;> decide
  · exact ⟨region.no_dot, region.ne (by simp)⟩

theorem region_not_mem : region.name ∉ ["dualstack".toList, "s3-accelerate".toList] := by
  simpa using ⟨region.ne (by simp), region.ne (by simp)⟩

theorem nonempty_bucket_name : nonempty_bucket bucket.name = some bucket.name :=
  if_neg bucket.nonempty

theorem host_name_regional :
    host_name (bucket.name ++ dotted ("s3".toList :: (dual_label dual ++ region.name :: aws))) =
      some (((captured bucket.name).map aliased).getD bucket.name) := by
  have hlabels : ∀ l ∈ ("s3".toList :: dual_label dual) ++ [region.name],
      '.' ∉ l ∧ l ≠ "s3-accesspoint".toList := by
    exact forall_mem_cons.mpr ⟨by decide, regional_labels region dual⟩
  have hpoint := access_point_prefix_of_bucket region.no_dot (region.ne (by simp)) hlabels
    bucket.head_ne_dot
  have hbucket := virtual_hosted_bucket_eq region.no_dot (region_not_mem region)
    (bucket.name ++ dotted ("s3".toList :: dual_label dual))
  rw [regional_bucket_eq region.no_dot region.nonempty, cut_append, map_some,
    getD_some, nonempty_bucket_name, append_assoc, ← dotted_append] at hbucket
  unfold host_name
  rw [← cons_append, hpoint, hbucket]
  cases captured bucket.name <;> rfl

/-- A legacy global host: the label `s3` stands where the region is looked for. -/
theorem host_name_legacy :
    host_name (bucket.name ++ dotted ("s3".toList :: aws)) =
      some ((((captured bucket.name).map aliased).or (cut bucket.name)).getD bucket.name) := by
  have hpoint := @access_point_prefix_of_bucket "s3".toList bucket.name [] (by decide) (by decide)
    (by decide) bucket.head_ne_dot
  have hbucket := @virtual_hosted_bucket_eq "s3".toList (by decide) (by decide) bucket.name
  have hlegacy : legacy_bucket (bucket.name ++ ".s3".toList) = some bucket.name := by
    unfold legacy_bucket
    rw [strip_suffix_append, bind_some, nonempty_bucket_name]
  have hread : regional_bucket (bucket.name ++ ".s3".toList) =
      some ((cut bucket.name).getD bucket.name) := by
    rw [show ".s3".toList = '.' :: "s3".toList from rfl, regional_bucket_eq (by decide) (by decide)]
    cases hcut : cut bucket.name with
    | none => exact hlegacy
    | some short =>
      have hne : short ≠ [] := by
        rintro rfl
        obtain ⟨dual, hname⟩ := cut_eq_some hcut
        -- a bucket that is nothing but the ending would begin with a dot
        exact bucket.head_ne_dot (by rw [hname, dotted_cons]; rfl)
      exact if_neg hne
  unfold host_name
  rw [← nil_append ("s3".toList :: aws), hpoint, nil_append, hbucket]
  exact (congrArg _ hread).trans (by cases captured bucket.name <;> rfl)

theorem virtual_hosted_bucket_accelerate (h : List Char) :
    extract_virtual_hosted_bucket
        (h ++ dotted ("s3-accelerate".toList :: (dual_label dual ++ aws))) =
      accelerate_bucket h := by
  unfold extract_virtual_hosted_bucket
  cases dual with
  | true =>
    rw [show dotted ("s3-accelerate".toList :: (dual_label true ++ aws)) =
      ".s3-accelerate.dualstack.amazonaws.com".toList from rfl, strip_suffix_append]
  | false =>
    have hdual := @strip_label_ne "s3-accelerate".toList "dualstack".toList h
      (dotted ["s3-accelerate".toList]) (by decide) (by decide) (by decide) aws
    rw [show ".s3-accelerate.dualstack.amazonaws.com".toList =
        dotted ["s3-accelerate".toList] ++ dotted ("dualstack".toList :: aws) from rfl,
      show dual_label false ++ aws = aws from rfl, hdual,
      show dotted ("s3-accelerate".toList :: aws) = ".s3-accelerate.amazonaws.com".toList from rfl,
      strip_suffix_append]

theorem host_name_accelerate (hdot : '.' ∉ bucket.name) :
    host_name (bucket.name ++ dotted ("s3-accelerate".toList :: (dual_label dual ++ aws))) =
      some bucket.name := by
  have hpoint : extract_access_point_prefix
      (bucket.name ++ dotted ("s3-accelerate".toList :: (dual_label dual ++ aws))) = none := by
    cases dual with
    | true =>
      have hread := @access_point_prefix_of_bucket "dualstack".toList bucket.name
        ["s3-accelerate".toList] (by decide) (by decide) (by decide) bucket.head_ne_dot
      rwa [captured_of_no_dot hdot] at hread
    | false =>
      have hread := @access_point_prefix_of_bucket "s3-accelerate".toList bucket.name []
        (by decide) (by decide) (by decide) bucket.head_ne_dot
      rwa [captured_of_no_dot hdot] at hread
  unfold host_name
  rw [hpoint, virtual_hosted_bucket_accelerate]
  exact if_pos ⟨bucket.nonempty, hdot⟩

theorem aliased_qualified :
    aliased (qualified name.name account.digits) =
      qualified name.name account.digits ++ "-s3alias".toList := by
  apply if_neg
  intro hending
  have hdigits : account.digits <:+ qualified name.name account.digits :=
    ⟨name.name ++ ['-'], by simp [qualified]⟩
  -- both are endings of one text, and the account is the longer one
  have hin : "-s3alias".toList <:+ account.digits :=
    suffix_of_suffix_length_le hending hdigits (by rw [account.length]; decide)
  exact absurd (account.digit 's' (hin.subset (by decide))) (by decide)

theorem no_dot_qualified : '.' ∉ qualified name.name account.digits := by
  intro hmem
  rcases mem_append.mp hmem with hname | hrest
  · exact name.no_dot hname
  · rcases mem_cons.mp hrest with heq | hdigit
    · exact absurd heq (by decide)
    · exact absurd (account.digit '.' hdigit) (by decide)

theorem host_name_access_point :
    host_name (qualified name.name account.digits ++
        dotted ("s3-accesspoint".toList :: (dual_label dual ++ region.name :: aws))) =
      some (qualified name.name account.digits ++ "-s3alias".toList) := by
  have hdot := no_dot_qualified name account
  have hpoint := access_point_prefix_eq region.no_dot (region.ne (by simp))
    (qualified name.name account.digits ++ dotted ("s3-accesspoint".toList :: dual_label dual))
  rw [append_assoc, ← dotted_append, cons_append] at hpoint
  have hfirst : before_first (marker "s3-accesspoint".toList) (qualified name.name account.digits ++
      dotted ("s3-accesspoint".toList :: (dual_label dual ++ region.name :: aws))) =
        some (qualified name.name account.digits) := by
    cases dual with
    | true | false => exact before_first_marked (by decide) hdot _ _
  unfold host_name
  rw [hpoint, hfirst, bind_some, reserved_name_alias (by simp [qualified]),
    aliased_qualified, some_or]

theorem host_name_multi_region (suffixed : Bool) :
    host_name (name.name ++ dotted ((if suffixed then ["mrap".toList] else []) ++
        "accesspoint".toList :: "s3-global".toList :: aws)) =
      some (name.name ++ ".mrap".toList) := by
  have hread : ∀ front : List Char, extract_access_point_prefix
      (front ++ dotted ("accesspoint".toList :: "s3-global".toList :: aws)) =
        reserved_name front ".mrap".toList := by
    intro front
    unfold extract_access_point_prefix
    rw [show dotted ("accesspoint".toList :: "s3-global".toList :: aws) =
      ".accesspoint.s3-global.amazonaws.com".toList from rfl, strip_suffix_append]
  unfold host_name
  rw [dotted_append, ← append_assoc, hread]
  unfold reserved_name
  cases suffixed with
  | true =>
    rw [show dotted (if true then ["mrap".toList] else []) = ".mrap".toList from rfl,
      if_neg (by simp), if_pos (suffix_append _ _), some_or]
  | false =>
    have hending : ¬ ".mrap".toList <:+ name.name :=
      fun hending => name.no_dot (hending.subset (by decide))
    rw [show dotted (if false then ["mrap".toList] else []) = [] from rfl, append_nil,
      if_neg name.nonempty, if_neg hending, some_or]

theorem host_name_base :
    host_name ("s3".toList ++ dotted (dual_label dual ++ region.name :: aws)) = none := by
  have hpoint := @access_point_prefix_of_bucket region.name "s3".toList (dual_label dual)
    region.no_dot (region.ne (by simp)) (regional_labels region dual) (by decide)
  have hcut : cut ("s3".toList ++ dotted (dual_label dual)) = none := by
    cases dual <;> decide
  have hbucket := virtual_hosted_bucket_eq region.no_dot (region_not_mem region)
    ("s3".toList ++ dotted (dual_label dual))
  rw [regional_bucket_eq region.no_dot region.nonempty, hcut,
    legacy_bucket_of_ne region.no_dot (region.ne (by simp)), append_assoc,
    ← dotted_append] at hbucket
  unfold host_name
  rw [hpoint, hbucket]
  rfl

theorem host_name_path_style (host : PathStyleHost) : host_name host.host = none := by
  cases host with
  | regional region => exact host_name_base region false
  | dual_stack region => exact host_name_base region true
  | global => decide

end Hosts

theorem ObjectRequest.cache_key_eq (r : ObjectRequest) :
    r.cache_key = r.endpoint.folder ++ '/' :: r.key := by
  obtain ⟨endpoint, key⟩ := r
  cases endpoint with
  | path_style host bucket => exact generate_cache_key_of_none (host_name_path_style host) _
  | virtual_hosted bucket region =>
    exact generate_cache_key_of_some (host_name_regional bucket region false) key
  | dual_stack bucket region =>
    exact generate_cache_key_of_some (host_name_regional bucket region true) key
  | legacy_global bucket => exact generate_cache_key_of_some (host_name_legacy bucket) key
  | accelerate bucket hdot dual =>
    exact generate_cache_key_of_some (host_name_accelerate bucket dual hdot) key
  | access_point name account region dual =>
    exact generate_cache_key_of_some (host_name_access_point region name account dual) key
  | multi_region name suffixed =>
    exact generate_cache_key_of_some (host_name_multi_region name suffixed) key

/-! ## Which requests share a key -/

open Endpoint

section Sharing

variable {h x folder : List Char} {e e' : Endpoint} {t t' : Target}

/-- Only the host of a bucket is misread, by a label of the bucket's name. -/
theorem taken_for_eq_some (htaken : e.taken_for = some folder) :
    ∃ bucket : BucketName, e.target = .bucket bucket.name ∧
      ((∃ name, captured bucket.name = some name ∧ folder = aliased name) ∨
        cut bucket.name = some folder) := by
  have hcaptured : ∀ {bucket : BucketName}, (captured bucket.name).map aliased = some folder →
      ∃ name, captured bucket.name = some name ∧ folder = aliased name := by
    intro bucket hmap
    obtain ⟨name, hname, heq⟩ := map_eq_some_iff.mp hmap
    exact ⟨name, hname, heq.symm⟩
  cases e with
  | virtual_hosted bucket region | dual_stack bucket region =>
    exact ⟨bucket, rfl, .inl (hcaptured htaken)⟩
  | legacy_global bucket =>
    rcases or_eq_some_iff.mp htaken with hmap | ⟨-, hcut⟩
    · exact ⟨bucket, rfl, .inl (hcaptured hmap)⟩
    · exact ⟨bucket, rfl, .inr hcut⟩
  | path_style | accelerate | access_point | multi_region => cases htaken

theorem alias_suffix_aliased (x : List Char) : "-s3alias".toList <:+ aliased x := by
  unfold aliased
  split
  · assumption
  · exact suffix_append _ _

theorem taken_for_ne_folder (htaken : e.taken_for = some folder) : folder ≠ e.target.folder := by
  obtain ⟨bucket, htarget, ⟨name, -, rfl⟩ | hcut⟩ := taken_for_eq_some htaken
  · intro heq
    rw [htarget] at heq
    have hending := alias_suffix_aliased name
    rw [heq] at hending
    exact bucket.not_alias hending
  · obtain ⟨dual, hname⟩ := cut_eq_some hcut
    intro heq
    rw [htarget] at heq
    have hlength := congrArg List.length (heq.trans hname)
    simp [dotted_cons] at hlength

theorem no_slash_aliased (hslash : '/' ∉ x) : '/' ∉ aliased x := by
  unfold aliased
  split
  · exact hslash
  · simpa using hslash

theorem no_slash_taken_for (htaken : e.taken_for = some folder) : '/' ∉ folder := by
  obtain ⟨bucket, -, ⟨name, hcaptured, rfl⟩ | hcut⟩ := taken_for_eq_some htaken
  · apply no_slash_aliased
    obtain ⟨rest, hrest⟩ := before_first_eq_some hcaptured
    intro hmem
    have hin : '/' ∈ bucket.name ++ ['.'] := by
      rw [hrest]
      exact mem_append_left _ hmem
    simp [bucket.no_slash] at hin
  · obtain ⟨dual, hname⟩ := cut_eq_some hcut
    intro hmem
    apply bucket.no_slash
    rw [hname]
    exact mem_append_left _ hmem

/-- What the naming rules say about a target. -/
def Target.WellNamed : Target → Prop
  | .bucket name => '/' ∉ name ∧ ¬ "-s3alias".toList <:+ name ∧ ¬ ".mrap".toList <:+ name
  | .access_point name account _ => '/' ∉ name ∧ '/' ∉ account ∧ account.length = 12
  | .multi_region name => '/' ∉ name

theorem Endpoint.well_named : e.target.WellNamed := by
  cases e with
  | access_point name account region dual =>
    exact ⟨name.no_slash, fun hmem => absurd (account.digit '/' hmem) (by decide), account.length⟩
  | multi_region name suffixed => exact name.no_slash
  | path_style _ bucket | virtual_hosted bucket _ | dual_stack bucket _ | legacy_global bucket
  | accelerate bucket _ _ => exact ⟨bucket.no_slash, bucket.not_alias, bucket.not_mrap⟩

theorem Target.WellNamed.no_slash (ht : t.WellNamed) : '/' ∉ t.folder := by
  cases t with
  | bucket name => exact ht.1
  | access_point name account region => simpa [Target.folder, qualified] using ⟨ht.1, ht.2.1⟩
  | multi_region name => simpa [Target.folder, Target.WellNamed] using ht

theorem Endpoint.no_slash_folder : '/' ∉ e.folder := by
  unfold folder
  cases htaken : e.taken_for with
  | none => exact e.well_named.no_slash
  | some folder => exact no_slash_taken_for htaken

theorem alias_ne_mrap (h h' : List Char) : h ++ "-s3alias".toList ≠ h' ++ ".mrap".toList := by
  intro heq
  have hlast := congrArg List.getLast? heq
  simp at hlast

theorem Target.WellNamed.eq_or_otherRegion (ht : t.WellNamed) (ht' : t'.WellNamed)
    (hfolder : t.folder = t'.folder) : t = t' ∨ OtherRegion t t' := by
  cases t with
  | bucket name =>
    cases t' with
    | bucket name' => exact .inl (congrArg Target.bucket hfolder)
    | access_point _ _ _ => exact absurd ⟨_, hfolder.symm⟩ ht.2.1
    | multi_region _ => exact absurd ⟨_, hfolder.symm⟩ ht.2.2
  | access_point name account region =>
    cases t' with
    | bucket _ => exact absurd ⟨_, hfolder⟩ ht'.2.1
    | access_point name' account' region' =>
      have hqualified : name ++ '-' :: account = name' ++ '-' :: account' :=
        append_cancel_right hfolder
      -- the account has its length, so the name ends where it does
      have hlength : ('-' :: account).length = ('-' :: account').length := by
        rw [length_cons, length_cons, ht.2.2, ht'.2.2]
      obtain ⟨rfl, haccount⟩ := append_inj' hqualified hlength
      obtain rfl := (List.cons.inj haccount).2
      by_cases hregion : region = region'
      · rw [hregion]
        exact .inl rfl
      · exact .inr ⟨rfl, rfl, hregion⟩
    | multi_region _ => exact absurd hfolder (alias_ne_mrap _ _)
  | multi_region name =>
    cases t' with
    | bucket _ => exact absurd ⟨_, hfolder⟩ ht'.2.2
    | access_point _ _ _ => exact absurd hfolder.symm (alias_ne_mrap _ _)
    | multi_region name' =>
      rw [append_cancel_right (show name ++ ".mrap".toList = name' ++ _ from hfolder)]
      exact .inl rfl

theorem Endpoint.folder_of_some (htaken : e.taken_for = some folder) : e.folder = folder := by
  unfold Endpoint.folder
  rw [htaken, getD_some]

theorem Endpoint.folder_of_none (htaken : e.taken_for = none) : e.folder = e.target.folder := by
  unfold folder
  rw [htaken, getD_none]

theorem folder_eq_of_otherRegion (hother : OtherRegion e.target e'.target) :
    e.folder = e'.folder ∧ e.target ≠ e'.target := by
  cases e with
  | access_point name account region dual =>
    cases e' with
    | access_point name' account' region' dual' =>
      obtain ⟨hname, haccount, hregion⟩ := hother
      refine ⟨?_, ?_⟩
      · show qualified name.name account.digits ++ _ = qualified name'.name account'.digits ++ _
        rw [hname, haccount]
      · intro heq
        injection heq with _ _ heq
        exact hregion heq
    | _ => cases hother
  | _ => cases hother

theorem Mistaken.folder_eq (hmistaken : Mistaken e e') :
    e.folder = e'.folder ∧ e.target ≠ e'.target := by
  obtain ⟨folder, htaken, ⟨hnone, rfl⟩ | ⟨hsome, hne⟩⟩ := hmistaken
  · refine ⟨?_, ?_⟩
    · rw [folder_of_some htaken, folder_of_none hnone]
    · intro heq
      exact taken_for_ne_folder htaken (congrArg Target.folder heq.symm)
  · refine ⟨?_, hne⟩
    rw [folder_of_some htaken, folder_of_some hsome]

/-- Two endpoints with one folder have one target, unless one is mistaken for the other or the
region is all that tells them apart. -/
theorem target_eq_or_of_folder (hfolder : e.folder = e'.folder) :
    e.target = e'.target ∨ OtherRegion e.target e'.target ∨ Mistaken e e' ∨ Mistaken e' e := by
  cases htaken : e.taken_for with
  | none =>
    rw [folder_of_none htaken] at hfolder
    cases htaken' : e'.taken_for with
    | none =>
      rw [folder_of_none htaken'] at hfolder
      exact (e.well_named.eq_or_otherRegion e'.well_named hfolder).imp_right .inl
    | some folder =>
      rw [folder_of_some htaken'] at hfolder
      exact .inr (.inr (.inr ⟨folder, htaken', .inl ⟨htaken, hfolder.symm⟩⟩))
  | some folder =>
    rw [folder_of_some htaken] at hfolder
    by_cases htarget : e.target = e'.target
    · exact .inl htarget
    · refine .inr (.inr (.inl ⟨folder, htaken, ?_⟩))
      cases htaken' : e'.taken_for with
      | none =>
        rw [folder_of_none htaken'] at hfolder
        exact .inl ⟨rfl, hfolder⟩
      | some folder' =>
        rw [folder_of_some htaken'] at hfolder
        exact .inr ⟨congrArg some hfolder.symm, htarget⟩

end Sharing

theorem cache_key_eq_iff (r r' : ObjectRequest) :
    r.cache_key = r'.cache_key ↔ r.endpoint.folder = r'.endpoint.folder ∧ r.key = r'.key := by
  rw [r.cache_key_eq, r'.cache_key_eq]
  constructor
  · intro heq
    -- no folder has a slash, so both keys are divided at their first one
    have hsplit := congrArg (split_once '/') heq
    rw [split_once_append r.endpoint.no_slash_folder, split_once_append r'.endpoint.no_slash_folder]
      at hsplit
    exact Prod.ext_iff.mp (Option.some.inj hsplit)
  · rintro ⟨hfolder, hkey⟩
    rw [hfolder, hkey]

/-- A cache key says which object is asked for, and where, unless the two requests clash. -/
theorem cache_key_identifies_iff_not_clash (r r' : ObjectRequest) :
    (r.cache_key = r'.cache_key → r.endpoint.target = r'.endpoint.target ∧ r.key = r'.key) ↔
      ¬ Clash r r' := by
  rw [cache_key_eq_iff]
  constructor
  · rintro hidentifies ⟨hkey, hother | hmistaken | hmistaken⟩
    · obtain ⟨hfolder, hne⟩ := folder_eq_of_otherRegion hother
      exact hne (hidentifies ⟨hfolder, hkey⟩).1
    · obtain ⟨hfolder, hne⟩ := hmistaken.folder_eq
      exact hne (hidentifies ⟨hfolder, hkey⟩).1
    · obtain ⟨hfolder, hne⟩ := hmistaken.folder_eq
      exact hne (hidentifies ⟨hfolder.symm, hkey⟩).1.symm
  · rintro hclash ⟨hfolder, hkey⟩
    rcases target_eq_or_of_folder hfolder with htarget | hcases
    · exact ⟨htarget, hkey⟩
    · exact absurd ⟨hkey, hcases⟩ hclash

/-! ## Requests that clash -/

def photos : BucketName :=
  ⟨"photos".toList, by decide, by decide, by decide, by decide, by decide⟩

def photos_s3 : BucketName :=
  ⟨"photos.s3".toList, by decide, by decide, by decide, by decide, by decide⟩

def us_east_1 : Region :=
  ⟨"us-east-1".toList, by decide, by decide, by decide, by decide⟩

def eu_west_1 : Region :=
  ⟨"eu-west-1".toList, by decide, by decide, by decide, by decide⟩

def my_ap : Label :=
  ⟨"my-ap".toList, by decide, by decide, by decide⟩

def my_account : Account where
  digits := List.replicate 12 '1'
  length := length_replicate
  digit := by
    intro c hc
    rw [eq_of_mem_replicate hc]
    rfl

/-- The object `a.jpg` of the bucket `photos.s3`, at `photos.s3.s3.amazonaws.com`, is cached as that
of the bucket `photos`; and an access point in one region as that of the same name in
another one. -/
theorem other_bucket_same_key :
    let one : ObjectRequest := ⟨.legacy_global photos_s3, "a.jpg".toList⟩
    let other : ObjectRequest := ⟨.virtual_hosted photos us_east_1, "a.jpg".toList⟩
    let east : ObjectRequest := ⟨.access_point my_ap my_account us_east_1 false, "a.jpg".toList⟩
    let west : ObjectRequest := ⟨.access_point my_ap my_account eu_west_1 false, "a.jpg".toList⟩
    (one.endpoint.host = "photos.s3.s3.amazonaws.com".toList ∧
      one.cache_key = "photos/a.jpg".toList ∧ other.cache_key = one.cache_key ∧
        one.endpoint.target ≠ other.endpoint.target) ∧
    (east.cache_key = west.cache_key ∧ east.endpoint.target ≠ west.endpoint.target) := by
  decide +kernel

end HybridCache.HttpProxy
