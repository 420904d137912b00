/-
Aliases of access points in the path (`detect_path_style_alias` in `http_proxy.rs`).

With a base endpoint the alias is the first segment of the path, and its reserved ending says of
which kind it is. The request that is built from it names the alias in the host, where
`extract_access_point_prefix` takes the ending off and puts it on again.
-/
import HybridCache.HttpProxy.CacheKey

namespace HybridCache.HttpProxy

open Lib List Option
open CacheTypes (strip_suffix strip_suffix_append)

structure PathStyleAlias where
  upstream_host : List Char
  forwarded_path : List Char
  cache_key_prefix : List Char

def detect_path_style_alias (host : List Char) : List Char → Option PathStyleAlias
  | '/' :: trimmed =>
    let (first_segment, remaining) :=
      match split_once '/' trimmed with
      | some (segment, rest) => (segment, '/' :: rest)
      | none => (trimmed, [])
    let forwarded_path := if remaining = [] then ['/'] else remaining
    if first_segment = [] then none
    else if "s3-accesspoint.".toList <+: host ∧ ".amazonaws.com".toList <:+ host then
      if "-s3alias".toList <:+ first_segment then do
        let region ←
          strip_suffix (host.drop "s3-accesspoint.".toList.length) ".amazonaws.com".toList
        if region = [] then none
        else some ⟨first_segment ++ (".s3-accesspoint.".toList ++ (region ++
          ".amazonaws.com".toList)), forwarded_path, first_segment⟩
      else none
    else if host = "accesspoint.s3-global.amazonaws.com".toList then do
      let alias_without_mrap ← strip_suffix first_segment ".mrap".toList
      if alias_without_mrap = [] then none
      else some ⟨alias_without_mrap ++ ".accesspoint.s3-global.amazonaws.com".toList,
        forwarded_path, first_segment⟩
    else none
  | _ => none

/-- An alias; that of an access point has its ending in its text. -/
inductive AliasPoint where
  | access_point (name : Label) (ending : "-s3alias".toList <:+ name.name) (region : Label)
  | multi_region (name : Label)

namespace AliasPoint

def name : AliasPoint → List Char
  | access_point name _ _ | multi_region name => name.name

/-- The name in front of the cache keys. -/
def folder : AliasPoint → List Char
  | access_point name _ _ => name.name
  | multi_region name => name.name ++ ".mrap".toList

def base_host : AliasPoint → List Char
  | access_point _ _ region =>
    "s3-accesspoint.".toList ++ (region.name ++ ".amazonaws.com".toList)
  | multi_region _ => "accesspoint.s3-global.amazonaws.com".toList

/-- The host that names the alias, that of a multi-region one with its ending or without. -/
def virtual_host (point : AliasPoint) (suffixed : Bool) : List Char :=
  match point with
  | access_point name _ region =>
    name.name ++ dotted ("s3-accesspoint".toList :: region.name :: aws)
  | multi_region name => (Endpoint.multi_region name suffixed).host

/-- The cache key of the request that a path-style one is rewritten to. -/
def path_style_key (point : AliasPoint) (key : List Char) : Option (List Char) :=
  (detect_path_style_alias point.base_host ('/' :: (point.folder ++ '/' :: key))).map fun request =>
    generate_cache_key request.forwarded_path request.upstream_host

variable (point : AliasPoint) (key : List Char)

theorem no_slash_folder : '/' ∉ point.folder := by
  cases point with
  | access_point name _ _ => exact name.no_slash
  | multi_region name => simpa [folder] using name.no_slash

theorem detect_path_style_alias_eq :
    detect_path_style_alias point.base_host ('/' :: (point.folder ++ '/' :: key)) =
      some ⟨point.virtual_host false, '/' :: key, point.folder⟩ := by
  simp only [detect_path_style_alias, split_once_append point.no_slash_folder]
  cases point with
  | access_point name ending region =>
    have hhost : (access_point name ending region).base_host =
        "s3-accesspoint.".toList ++ (region.name ++ ".amazonaws.com".toList) := rfl
    have hends : ".amazonaws.com".toList <:+
        "s3-accesspoint.".toList ++ (region.name ++ ".amazonaws.com".toList) :=
      ⟨"s3-accesspoint.".toList ++ region.name, append_assoc ..⟩
    rw [hhost, folder, if_neg name.nonempty, if_pos ⟨prefix_append _ _, hends⟩, if_pos ending,
      drop_left, strip_suffix_append]
    simp [region.nonempty, virtual_host, dotted, aws]
  | multi_region name =>
    have hhost : (multi_region name).base_host = "accesspoint.s3-global.amazonaws.com".toList := rfl
    have hne : name.name ++ ".mrap".toList ≠ [] := by simp
    rw [hhost, folder, if_neg hne, if_neg (by decide), if_pos rfl, strip_suffix_append]
    simp [name.nonempty, virtual_host, Endpoint.host, dotted, aws]

theorem host_name_virtual_host (suffixed : Bool) :
    host_name (point.virtual_host suffixed) = some point.folder := by
  cases point with
  | access_point name ending region =>
    have hfirst := @before_first_marked "s3-accesspoint".toList _ (by decide) name.no_dot
      region.name aws
    have hends : ".amazonaws.com".toList <:+
        name.name ++ dotted ("s3-accesspoint".toList :: region.name :: aws) :=
      ⟨name.name ++ ".s3-accesspoint.".toList ++ region.name, by simp [dotted, aws]⟩
    have hstrip : strip_suffix (name.name ++ dotted ("s3-accesspoint".toList :: region.name :: aws))
        (dotted ("accesspoint".toList :: "s3-global".toList :: aws)) = none := by
      by_cases hglobal : region.name = "s3-global".toList
      · rw [hglobal]
        exact @strip_label_ne _ _ _ [] (by decide) (by decide) (by decide) _
      · have hne := @strip_label_ne _ _ (name.name ++ dotted ["s3-accesspoint".toList])
          (dotted ["accesspoint".toList]) region.no_dot (by decide) hglobal aws
        rwa [append_assoc, ← dotted_append] at hne
    unfold host_name extract_access_point_prefix
    rw [virtual_host, show ".accesspoint.s3-global.amazonaws.com".toList =
      dotted ("accesspoint".toList :: "s3-global".toList :: aws) from rfl, hstrip,
      show ".s3-accesspoint.".toList = marker "s3-accesspoint".toList from rfl, hfirst]
    simp only [if_pos hends, reserved_name, if_neg name.nonempty, if_pos ending, some_or, folder]
  | multi_region name => exact host_name_multi_region name suffixed

theorem path_style_key_eq_folder :
    point.path_style_key key = some (point.folder ++ '/' :: key) := by
  rw [path_style_key, detect_path_style_alias_eq, map_some,
    generate_cache_key_of_some (point.host_name_virtual_host false)]

theorem name_eq_of_folder {point' : AliasPoint} (h : point'.folder = point.folder) :
    point'.name = point.name := by
  cases point with
  | access_point name ending region =>
    cases point' with
    | access_point name' ending' region' => exact h
    | multi_region name' =>
      obtain ⟨stem, hstem⟩ := ending
      exact absurd (hstem.trans h.symm) (alias_ne_mrap _ _)
  | multi_region name =>
    cases point' with
    | access_point name' ending' region' =>
      obtain ⟨stem, hstem⟩ := ending'
      exact absurd (hstem.trans h) (alias_ne_mrap _ _)
    | multi_region name' => exact append_cancel_right h

/-- **The two forms of a request for an alias.** The path-style form is rewritten to a request
with the cache key of the virtual-hosted one, and no other alias has that key. -/
theorem path_style_key_eq (suffixed : Bool) :
    point.path_style_key key =
        some (generate_cache_key ('/' :: key) (point.virtual_host suffixed)) ∧
      ∀ (point' : AliasPoint) (key' : List Char), point'.name ≠ point.name →
        point'.path_style_key key' ≠ point.path_style_key key := by
  simp only [path_style_key_eq_folder]
  refine ⟨?_, fun point' key' hname heq => hname (point.name_eq_of_folder ?_)⟩
  · rw [generate_cache_key_of_some (point.host_name_virtual_host suffixed)]
  · have hsplit := congrArg (split_once '/') (Option.some.inj heq)
    rw [split_once_append point.no_slash_folder, split_once_append point'.no_slash_folder] at hsplit
    exact (Prod.ext_iff.mp (Option.some.inj hsplit)).1

end AliasPoint

end HybridCache.HttpProxy
