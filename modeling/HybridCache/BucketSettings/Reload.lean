/-
Loading the rules file again and again (`load_rules`, `store_valid` and `use_fallback` in
`bucket_settings.rs`).

A load that succeeds keeps the rules before as a spare. The spare is not dropped when the file is
emptied or removed, and a failing load takes an empty rule set for none at all and puts the spare
in effect. So withdrawn rules come back with the next broken file (`History.Withdrawn`).
-/
import HybridCache.BucketSettings.Rules

namespace HybridCache.BucketSettings

open Lib

/-! ## The model -/

/-- `cache_rules.json` as it is found. -/
inductive ReadFile where
  | text (contents : List Char)
  | not_found
  | unreadable
deriving DecidableEq, Repr

structure CachedRules where
  ruleset : RuleSet
  rules : List CacheRule
  previous_valid : Option (RuleSet × List CacheRule)
  has_rules_file : Bool

/-- What a load is given. `parse` is `serde_json::from_str::<CacheRules>`. -/
structure LoadEnv where
  ext : Externals
  parse : List Char → Option (List CacheRule)
  max_rules : ℕ
  upstream_first_byte_timeout : ℕ

def RuleSet.empty : RuleSet := ⟨[]⟩

def store_valid (ruleset : RuleSet) (rules : List CacheRule) (has_file : Bool)
    (cache : Option CachedRules) : CachedRules where
  ruleset := ruleset
  rules := rules
  previous_valid := cache.bind fun c =>
    if c.rules ≠ [] then some (c.ruleset, c.rules) else c.previous_valid
  has_rules_file := has_file

def use_fallback (has_file : Bool) (cache : Option CachedRules) : CachedRules :=
  match cache with
  | some c =>
    if c.rules ≠ [] then { c with has_rules_file := has_file }
    else
      match c.previous_valid with
      | some (ruleset, rules) => ⟨ruleset, rules, none, has_file⟩
      | none => ⟨.empty, [], none, has_file⟩
  | none => ⟨.empty, [], none, has_file⟩

section Load

variable (env : LoadEnv)

def found : ReadFile → Outcome Unit (RuleSet × List CacheRule)
  | .text contents =>
    match env.parse contents with
    | none => .err ()
    | some rules =>
      match validate env.ext rules env.max_rules env.upstream_first_byte_timeout with
      | .panic => .panic
      | .ok [] =>
        match RuleSet.build env.ext rules with
        | .ok ruleset => .ok (ruleset, rules)
        | .err _ => .err ()
        | .panic => .panic
      | _ => .err ()
  | .not_found => .ok (.empty, [])
  | .unreadable => .err ()

def ReadFile.has_file : ReadFile → Bool
  | .text _ => true
  | _ => false

def load_rules (cache : Option CachedRules) (read : ReadFile) : Option CachedRules :=
  match found env read with
  | .ok (ruleset, rules) => some (store_valid ruleset rules read.has_file cache)
  | .err _ => some (use_fallback read.has_file cache)
  | .panic => cache

def in_effect : Option CachedRules → RuleSet × List CacheRule
  | some c => (c.ruleset, c.rules)
  | none => (.empty, [])

/-- What there is to say about a history of loads: the rules of the last valid load, whether a load
was of any rules, and whether one has failed since the last valid one. -/
structure History where
  last : RuleSet × List CacheRule
  had_rules : Bool
  failed : Bool

def History.note (h : History) (read : ReadFile) : History :=
  match found env read with
  | .ok v => ⟨v, h.had_rules || decide (v.2 ≠ []), false⟩
  | .err _ => { h with failed := true }
  | .panic => h

def history (reads : List ReadFile) : History :=
  reads.foldl (History.note env) ⟨(.empty, []), false, false⟩

/-- There were rules, the last valid load took them all away, and then a load failed. -/
def History.Withdrawn (h : History) : Prop :=
  h.had_rules = true ∧ h.last.2 = [] ∧ h.failed = true

end Load

/-! ## What the cache holds -/

def spare (cache : Option CachedRules) : Option (RuleSet × List CacheRule) :=
  cache.bind CachedRules.previous_valid

/-- The cache after a history: without rules so far, with the last ones, without rules again and
some put aside, or with those in effect again. -/
inductive Tracks (h : History) (cache : Option CachedRules) : Prop where
  | never (had : h.had_rules = false) (last : h.last = (.empty, []))
      (effect : in_effect cache = (.empty, [])) (aside : spare cache = none)
  | rules (had : h.had_rules = true) (some_rules : h.last.2 ≠ [])
      (effect : in_effect cache = h.last)
  | emptied (had : h.had_rules = true) (no_rules : h.last.2 = []) (ok : h.failed = false)
      (effect : in_effect cache = h.last) (w : RuleSet × List CacheRule)
      (aside : spare cache = some w) (aside_rules : w.2 ≠ [])
  | returned (withdrawn : h.Withdrawn) (effect : (in_effect cache).2 ≠ [])

section Step

variable {env : LoadEnv} {h : History} {read : ReadFile} {cache : Option CachedRules}
  {v : RuleSet × List CacheRule} {has_file : Bool}

theorem eq_empty_of_found (h : found env read = .ok v) (hrules : v.2 = []) : v = (.empty, []) := by
  unfold found at h
  split at h
  · split at h
    · cases h
    · split at h
      · cases h
      · split at h
        · rename_i hbuild
          cases h
          dsimp only at hrules
          rw [hrules] at hbuild ⊢
          obtain ⟨patterns, -, hbuild⟩ := Outcome.bind_eq_ok.mp hbuild
          split at hbuild <;> cases hbuild
          rfl
        all_goals cases h
      · cases h
  · cases h
    rfl
  · cases h

theorem spare_store_valid (ruleset : RuleSet) (rules : List CacheRule) :
    spare (some (store_valid ruleset rules has_file cache)) =
      if (in_effect cache).2 ≠ [] then some (in_effect cache) else spare cache := by
  cases cache with
  | none | some c => rfl

theorem use_fallback_of_rules (h : (in_effect cache).2 ≠ []) :
    in_effect (some (use_fallback has_file cache)) = in_effect cache := by
  cases cache with
  | none => exact absurd rfl h
  | some c => rw [use_fallback, if_pos (show c.rules ≠ [] from h)]; rfl

theorem use_fallback_of_none (h : (in_effect cache).2 = []) :
    in_effect (some (use_fallback has_file cache)) = (spare cache).getD (.empty, []) ∧
      spare (some (use_fallback has_file cache)) = none := by
  cases cache with
  | none => exact ⟨rfl, rfl⟩
  | some c =>
    rw [use_fallback, if_neg (not_not.mpr (show c.rules = [] from h))]
    cases hc : c.previous_valid with
    | none | some w => simp [spare, in_effect, hc]

theorem Tracks.valid (ht : Tracks h cache) (hv : v.2 = [] → v = (.empty, [])) :
    Tracks ⟨v, h.had_rules || decide (v.2 ≠ []), false⟩
      (some (store_valid v.1 v.2 has_file cache)) := by
  by_cases hnil : v.2 = []
  · have hspare := @spare_store_valid cache has_file v.1 v.2
    cases ht with
    | never had last effect aside =>
      rw [effect, aside, if_neg (not_not.mpr rfl)] at hspare
      exact .never (by simp [had, hnil]) (hv hnil) (hv hnil) hspare
    | rules had some_rules effect =>
      rw [effect, if_pos some_rules] at hspare
      exact .emptied (by simp [had]) hnil rfl rfl _ hspare some_rules
    | emptied had no_rules ok effect w aside aside_rules =>
      rw [effect, if_neg (not_not.mpr no_rules), aside] at hspare
      exact .emptied (by simp [had]) hnil rfl rfl _ hspare aside_rules
    | returned withdrawn effect =>
      rw [if_pos effect] at hspare
      exact .emptied (by simp [withdrawn.1]) hnil rfl rfl _ hspare effect
  · exact .rules (by simp [hnil]) hnil rfl

theorem Tracks.failed (ht : Tracks h cache) :
    Tracks { h with failed := true } (some (use_fallback has_file cache)) := by
  cases ht with
  | never had last effect aside =>
    obtain ⟨heffect, haside⟩ := @use_fallback_of_none cache has_file (by rw [effect])
    rw [aside] at heffect
    exact .never had last heffect haside
  | rules had some_rules effect =>
    exact .rules had some_rules ((use_fallback_of_rules (effect ▸ some_rules)).trans effect)
  | emptied had no_rules ok effect w aside aside_rules =>
    -- what was put aside comes back
    obtain ⟨heffect, -⟩ := @use_fallback_of_none cache has_file (effect ▸ no_rules)
    rw [aside] at heffect
    exact .returned ⟨had, no_rules, rfl⟩ (heffect ▸ aside_rules)
  | returned withdrawn effect =>
    exact .returned ⟨withdrawn.1, withdrawn.2.1, rfl⟩ (use_fallback_of_rules effect ▸ effect)

theorem Tracks.load_rules (ht : Tracks h cache) :
    Tracks (h.note env read) (load_rules env cache read) := by
  unfold History.note BucketSettings.load_rules
  cases hfound : found env read with
  | ok v => exact ht.valid (eq_empty_of_found hfound)
  | err e => exact ht.failed
  | panic => exact ht

end Step

theorem tracks_history (env : LoadEnv) (reads : List ReadFile) :
    Tracks (history env reads) (reads.foldl (load_rules env) none) := by
  unfold history
  have hinit : Tracks ⟨(.empty, []), false, false⟩ none := .never rfl rfl rfl rfl
  generalize (none : Option CachedRules) = cache at hinit ⊢
  generalize (⟨(.empty, []), false, false⟩ : History) = h at hinit ⊢
  induction reads generalizing h cache with
  | nil => exact hinit
  | cons read reads ih => exact ih _ _ hinit.load_rules

/-- **The rules in effect are those of the last valid load**, unless it withdrew all rules and a
load has failed since. -/
theorem in_effect_eq_last_valid_iff (env : LoadEnv) (reads : List ReadFile) :
    in_effect (reads.foldl (load_rules env) none) = (history env reads).last ↔
      ¬ (history env reads).Withdrawn := by
  cases tracks_history env reads with
  | never had last effect aside =>
    exact iff_of_true (effect.trans last.symm) fun hw => Bool.false_ne_true (had.symm.trans hw.1)
  | rules had some_rules effect => exact iff_of_true effect fun hw => some_rules hw.2.1
  | emptied had no_rules ok effect w aside aside_rules =>
    exact iff_of_true effect fun hw => Bool.false_ne_true (ok.symm.trans hw.2.2)
  | returned withdrawn effect =>
    exact iff_of_false (fun heq => effect (heq ▸ withdrawn.2.1)) (not_not.mpr withdrawn)

/-- The rules are removed with the file and come back when it is broken. -/
theorem withdrawn_rules_come_back :
    ∃ env rule, found env (.text ['r']) = .ok (⟨[⟨rule, ['^', 'a', '$']⟩]⟩, [rule]) ∧
      (history env [.text ['r'], .not_found, .text ['x']]).last = (.empty, []) ∧
      (in_effect ([.text ['r'], .not_found, .text ['x']].foldl (load_rules env) none)).2 =
        [rule] := by
  refine ⟨⟨sample_externals, fun text =>
    if text = ['r'] then some [.of_pattern ['a']] else none, 10, 0⟩, .of_pattern ['a'], ?_⟩
  decide +kernel

end HybridCache.BucketSettings
