/-
The times to live that freshness stamps are made with (`cache.rs`).

The read path resolves the rules on the whole path of an object. Three functions that stamp metadata
resolve them on what stands before the first colon, to leave out markers such as `:part:`, and so
cut a path that has a colon itself.
-/
import HybridCache.BucketSettings.Rules

namespace HybridCache.BucketSettings

open Lib List

def parse_cache_key_for_ttl (cache_key : List Char) : List Char :=
  cache_key.takeWhile fun c => c ≠ ':'

def full_key (path : List Char) : List Char :=
  if path.head? = some '/' then path.tail else path

def resolve_settings (set : RuleSet) (g : GlobalDefaults) (path : List Char) : ResolvedSettings :=
  set.resolve (full_key path) g

/-! The times to live that the three functions stamp with, as settings are resolved on a path. -/

section Stamp

variable (settings : List Char → ResolvedSettings) (cache_key : List Char)

def create_head_only_metadata : List ℕ :=
  let ttl_path := parse_cache_key_for_ttl cache_key
  [(settings ttl_path).get_ttl, (settings ttl_path).head_ttl]

def update_metadata_head_fields : List ℕ :=
  let ttl_path := parse_cache_key_for_ttl cache_key
  [(settings ttl_path).head_ttl]

def refresh_cache_ttl : List ℕ :=
  let ttl_path := parse_cache_key_for_ttl cache_key
  [(settings ttl_path).get_ttl, (settings ttl_path).head_ttl]

end Stamp

/-- What stamps metadata when it is created, after a HEAD and after a 304. -/
inductive Stamp where
  | create_head_only_metadata
  | update_metadata_head_fields
  | refresh_cache_ttl

def Stamp.ttls : Stamp → (List Char → ResolvedSettings) → List Char → List ℕ
  | .create_head_only_metadata => BucketSettings.create_head_only_metadata
  | .update_metadata_head_fields => BucketSettings.update_metadata_head_fields
  | .refresh_cache_ttl => BucketSettings.refresh_cache_ttl

/-! ## A rule for one shape of keys -/

/-- A pattern for the keys that have their slashes where `key` has them. -/
def outline (key : List Char) : List Char :=
  key.map fun c => if c = '/' then c else '?'

theorem glob_tokens_outline (key : List Char) :
    glob_tokens (outline key) = key.map fun c => if c = '/' then .literal c else .question := by
  induction key with
  | nil => rfl
  | cons c key ih =>
    rw [map_cons, ← ih]
    by_cases hc : c = '/' <;> simp [outline, glob_tokens, hc]

theorem globMatches_outline {key path : List Char} :
    GlobMatches (outline key) path ↔ Forall₂ (fun c d => c = '/' ↔ d = '/') key path := by
  rw [GlobMatches, glob_tokens_outline]
  induction key generalizing path with
  | nil => exact forall₂_nil_left_iff.symm
  | cons c key ih =>
    rw [map_cons, forall₂_cons_left_iff]
    split
    · subst c
      simp [GlobToken.Matches, ih, and_comm]
    · simp only [GlobToken.Matches, ih, ‹¬ c = '/'›, false_iff]
      exact exists₂_congr fun _ _ => by tauto

theorem glob_to_regex_outline {key : List Char} (hne : key ≠ []) :
    ∃ regex, glob_to_regex (outline key) = .ok regex ∧
      ∀ path, Regex.is_match regex path = some true ↔
        Forall₂ (fun c d => c = '/' ↔ d = '/') key path := by
  have hchar : ∀ c ∈ outline key, is_whitespace c = false ∧ c.toNat < 0x800 := by
    intro c hc
    obtain ⟨d, -, rfl⟩ := List.mem_map.mp hc
    split
    · rw [‹d = '/'›]
      decide
    · decide
  have htrim : trim (outline key) ≠ [] := by
    rw [trim_of_no_space fun c hc => (hchar c hc).1]
    simpa [outline] using hne
  have hsimple : GlobToken.double_star ∉ glob_tokens (outline key) := by
    rw [glob_tokens_outline, List.mem_map]
    rintro ⟨c, -, hc⟩
    split at hc <;> cases hc
  refine ⟨_, (glob_to_regex_eq htrim).trans (if_pos fun c hc => (hchar c hc).2), fun path => ?_⟩
  rw [Regex.is_match_text (plain_pieces _), Option.some.injEq, Regex.pieces_match_iff,
    matches_iff_of_no_double_star hsimple]
  exact globMatches_outline

/-! ## The stamps against the read path -/

theorem length_full_key_lt {cache_key : List Char} (hcolon : ':' ∈ cache_key) :
    (full_key (parse_cache_key_for_ttl cache_key)).length < (full_key cache_key).length := by
  have hcut : ∀ s : List Char, ':' ∈ s → (parse_cache_key_for_ttl s).length < s.length := by
    intro s hs
    have hpart : parse_cache_key_for_ttl s <+: s := takeWhile_prefix _
    refine lt_of_le_of_ne hpart.length_le fun heq => ?_
    have hall := takeWhile_eq_self_iff.mp (hpart.eq_of_length heq) _ hs
    cases hall
  cases cache_key with
  | nil => cases hcolon
  | cons c rest =>
    by_cases hc : c = '/'
    · subst hc
      exact hcut rest ((mem_cons.mp hcolon).resolve_left (by decide))
    · by_cases hfirst : c = ':'
      · simp [full_key, parse_cache_key_for_ttl, hfirst]
      · simpa [full_key, parse_cache_key_for_ttl, hc, hfirst] using hcut _ hcolon

/-- **Stamps and the read path.** A stamp uses the times to live that the whole path gives, under
all rules, if and only if there is no colon in the cache key. -/
theorem stamp_follows_rules_iff (stamp : Stamp) (cache_key : List Char) :
    (∀ ext rules set g, RuleSet.build ext rules = .ok set →
      stamp.ttls (resolve_settings set g) cache_key =
        stamp.ttls (fun _ => resolve_settings set g cache_key) cache_key) ↔ ':' ∉ cache_key := by
  constructor
  · intro h hcolon
    have hlt := length_full_key_lt hcolon
    obtain ⟨regex, hregex, hmatch⟩ :=
      glob_to_regex_outline (ne_nil_of_length_pos (Nat.zero_lt_of_lt hlt))
    let rule := { CacheRule.of_pattern (outline (full_key cache_key)) with
      get_ttl := some 1, head_ttl := some 1 }
    have hbuild : RuleSet.build sample_externals [rule] = .ok ⟨[⟨rule, regex⟩]⟩ := by
      simp [RuleSet.build, Outcome.traverse, rule, CacheRule.of_pattern, hregex, sample_externals]
    have hfull := (hmatch (full_key cache_key)).mpr (forall₂_refl _)
    have hcut : Regex.is_match regex (full_key (parse_cache_key_for_ttl cache_key)) ≠ some true :=
      fun hmatches => hlt.ne' ((hmatch _).mp hmatches).length_eq
    have httls := h sample_externals [rule] _ sample_defaults hbuild
    cases stamp <;>
      simp [Stamp.ttls, create_head_only_metadata, update_metadata_head_fields, refresh_cache_ttl,
        resolve_settings, RuleSet.resolve, RuleSet.matched, RuleSet.first, hfull,
        hcut, rule, sample_defaults] at httls
  · intro hcolon
    have hwhole : parse_cache_key_for_ttl cache_key = cache_key :=
      takeWhile_eq_self_iff.mpr fun c hc => decide_eq_true fun heq => hcolon (heq ▸ hc)
    intro ext rules set g _
    cases stamp with
    | create_head_only_metadata => simp only [Stamp.ttls, create_head_only_metadata, hwhole]
    | update_metadata_head_fields => simp only [Stamp.ttls, update_metadata_head_fields, hwhole]
    | refresh_cache_ttl => simp only [Stamp.ttls, refresh_cache_ttl, hwhole]

/-- A rule for the keys of a folder that begin with `a:` is not found when they are stamped. -/
theorem stamp_misses_rule :
    let rule := { CacheRule.of_pattern "b/a:*".toList with get_ttl := some 60 }
    let set : RuleSet := ⟨[⟨rule, "^b/a:[^/]*$".toList⟩]⟩
    let settings := resolve_settings set sample_defaults
    RuleSet.build sample_externals [rule] = .ok set ∧ (settings "b/a:1".toList).get_ttl = 60 ∧
      refresh_cache_ttl settings "b/a:1".toList = [0, 0] := by
  decide +kernel

end HybridCache.BucketSettings
