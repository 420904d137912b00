/-
Cache rules: their validation and the settings they resolve to (`bucket_settings.rs`).

`validate` looks at one rule at a time, `resolve` takes each field from the first matching rule
that sets it. So the switch and the value can come from two rules, and a value without its switch
is not checked (`Stray`). Durations are in nanoseconds.
-/
import HybridCache.BucketSettings.Glob
import HybridCache.RamCache.Shards

namespace HybridCache.BucketSettings

open Lib List
open RamCache (RAM_CACHE_ADMISSION_CEILING)

/-! ## The model -/

def DEFAULT_PAGE_SIZE : ℕ := 16 * 1024 * 1024

def DEFAULT_HEDGE_TRIGGER_AFTER : ℕ := 250000000

def DEFAULT_HEDGE_MAX_PER_REQUEST : ℕ := 1

structure CacheRule where
  pattern : List Char
  get_ttl : Option ℕ
  head_ttl : Option ℕ
  put_ttl : Option ℕ
  read_cache_enabled : Option Bool
  write_cache_enabled : Option Bool
  compression_enabled : Option Bool
  ram_cache_eligible : Option Bool
  evaluate_conditions_from_cache : Option Bool
  page_widening : Option Bool
  page_size : Option ℕ
  hedging_enabled : Option Bool
  hedge_trigger_after : Option ℕ
  hedge_max_per_request : Option ℕ
deriving DecidableEq, Repr

/-- The settings that a rule need not have. -/
def CacheRule.of_pattern (pattern : List Char) : CacheRule :=
  { pattern
    get_ttl := none
    head_ttl := none
    put_ttl := none
    read_cache_enabled := none
    write_cache_enabled := none
    compression_enabled := none
    ram_cache_eligible := none
    evaluate_conditions_from_cache := none
    page_widening := none
    page_size := none
    hedging_enabled := none
    hedge_trigger_after := none
    hedge_max_per_request := none }

/-- What is not of this code: whether the `regex` crate builds an expression or a set of them
(it limits their size), and how a fraction of seconds is written. -/
structure Externals where
  regex_new : List Char → Bool
  regex_set_new : List (List Char) → Except String Unit
  secs_f64 : ℕ → String

def format_duration (ext : Externals) (d : ℕ) : String :=
  let total_secs := d / 1000000000
  let nanos := d % 1000000000
  if total_secs = 0 ∧ nanos = 0 then "0s"
  else if nanos > 0 then
    if nanos % 1000000 = 0 then s!"{total_secs * 1000 + nanos / 1000000}ms"
    else s!"{ext.secs_f64 d}s"
  else if total_secs % 86400 = 0 then s!"{total_secs / 86400}d"
  else if total_secs % 3600 = 0 then s!"{total_secs / 3600}h"
  else if total_secs % 60 = 0 then s!"{total_secs / 60}m"
  else s!"{total_secs}s"

/-- A value that counts when a switch is on: neither zero nor past its limit. -/
def check_value (enabled : Option Bool) (value : Option ℕ) (past_limit : ℕ → Bool)
    (zero_error : String) (limit_error : ℕ → String) : List String :=
  if enabled = some true then
    match value with
    | some v => if v = 0 then [zero_error] else if past_limit v then [limit_error v] else []
    | none => []
  else []

section Validate

variable (ext : Externals)

def pattern_errors (i : ℕ) (rule : CacheRule) : Outcome String (List String) :=
  match glob_to_regex rule.pattern with
  | .ok re => .ok (if ext.regex_new re then [] else [s!"rules[{i}]: pattern failed to compile"])
  | .err e => .ok [s!"rules[{i}]: {e}"]
  | .panic => .panic

def page_size_errors (i : ℕ) (rule : CacheRule) : List String :=
  check_value rule.page_widening rule.page_size (fun v => RAM_CACHE_ADMISSION_CEILING < v)
    s!"rules[{i}]: page_size must be greater than 0 when page_widening is enabled"
    (fun v => s!"rules[{i}]: page_size {v} exceeds the maximum of " ++
      s!"{RAM_CACHE_ADMISSION_CEILING} bytes (64 MiB)")

def hedge_trigger_errors (upstream_first_byte_timeout i : ℕ) (rule : CacheRule) : List String :=
  check_value rule.hedging_enabled rule.hedge_trigger_after
    (fun v => upstream_first_byte_timeout ≤ v)
    s!"rules[{i}]: hedge_trigger_after must be greater than 0 when hedging is enabled"
    (fun v => s!"rules[{i}]: hedge_trigger_after ({format_duration ext v}) must be strictly " ++
      s!"less than upstream_first_byte_timeout ({format_duration ext upstream_first_byte_timeout})")

def validate (rules : List CacheRule) (max_rules upstream_first_byte_timeout : ℕ) :
    Outcome String (List String) := do
  let patterns ← Outcome.traverse (fun e : CacheRule × ℕ => pattern_errors ext e.2 e.1)
    rules.zipIdx
  pure ((if max_rules < rules.length then
      [s!"rule count {rules.length} exceeds maximum {max_rules}"] else []) ++
    patterns.flatten ++
    rules.zipIdx.flatMap (fun e => page_size_errors e.2 e.1) ++
    rules.zipIdx.flatMap (fun e => hedge_trigger_errors ext upstream_first_byte_timeout e.2 e.1))

end Validate

/-- A rule, and its expression in the set, which has the same index. -/
structure CompiledRule where
  rule : CacheRule
  regex : List Char
deriving DecidableEq, Repr

structure RuleSet where
  rules : List CompiledRule
deriving DecidableEq, Repr

inductive SettingsSource where
  | Global
  | Rule (index : ℕ) (pattern : List Char)
deriving DecidableEq, Repr

structure GlobalDefaults where
  get_ttl : ℕ
  head_ttl : ℕ
  put_ttl : ℕ
  read_cache_enabled : Bool
  write_cache_enabled : Bool
  compression_enabled : Bool
  ram_cache_enabled : Bool
  evaluate_conditions_from_cache : Bool
  upstream_first_byte_timeout : ℕ

structure ResolvedSettings where
  get_ttl : ℕ
  head_ttl : ℕ
  put_ttl : ℕ
  read_cache_enabled : Bool
  write_cache_enabled : Bool
  compression_enabled : Bool
  compression_from_rule : Bool
  ram_cache_eligible : Bool
  evaluate_conditions_from_cache : Bool
  page_widening : Bool
  page_size : ℕ
  hedging_enabled : Bool
  hedge_trigger_after : ℕ
  hedge_max_per_request : ℕ
  source : SettingsSource
deriving DecidableEq, Repr

open CacheRule

namespace RuleSet

def build (ext : Externals) (rules : List CacheRule) : Outcome String RuleSet := do
  let patterns ← Outcome.traverse (fun r : CacheRule => glob_to_regex r.pattern) rules
  match ext.regex_set_new patterns with
  | .ok _ => .ok ⟨List.zipWith CompiledRule.mk rules patterns⟩
  | .error e => .err e

def matched (set : RuleSet) (full_key : List Char) : List (CompiledRule × ℕ) :=
  set.rules.zipIdx.filter fun e => Regex.is_match e.1.regex full_key = some true

/-- The first matched rule that sets a field wins. -/
def first {α : Type} (matched : List (CompiledRule × ℕ)) (pick : CacheRule → Option α) :
    Option α :=
  matched.findSome? fun e => pick e.1.rule

def resolve (set : RuleSet) (full_key : List Char) (g : GlobalDefaults) : ResolvedSettings :=
  let matched := set.matched full_key
  let source := match matched.head? with
    | some e => .Rule e.2 e.1.rule.pattern
    | none => .Global
  let get_ttl := (first matched get_ttl).getD g.get_ttl
  let read_cache_enabled := (first matched read_cache_enabled).getD g.read_cache_enabled
  let compression_enabled_from_rule := first matched compression_enabled
  let ram_cache_eligible := (first matched ram_cache_eligible).getD g.ram_cache_enabled
  { get_ttl
    head_ttl := (first matched head_ttl).getD g.head_ttl
    put_ttl := (first matched put_ttl).getD g.put_ttl
    read_cache_enabled
    write_cache_enabled :=
      (first matched write_cache_enabled).getD g.write_cache_enabled
    compression_enabled := compression_enabled_from_rule.getD g.compression_enabled
    compression_from_rule := compression_enabled_from_rule.isSome
    -- the RAM cache passes by revalidation and the switch of the read cache
    ram_cache_eligible := ram_cache_eligible && get_ttl ≠ 0 && read_cache_enabled
    evaluate_conditions_from_cache :=
      (first matched evaluate_conditions_from_cache).getD
        g.evaluate_conditions_from_cache
    page_widening := (first matched page_widening).getD false
    page_size := (first matched page_size).getD DEFAULT_PAGE_SIZE
    hedging_enabled := (first matched hedging_enabled).getD false
    hedge_trigger_after :=
      (first matched hedge_trigger_after).getD DEFAULT_HEDGE_TRIGGER_AFTER
    hedge_max_per_request :=
      (first matched hedge_max_per_request).getD DEFAULT_HEDGE_MAX_PER_REQUEST
    source }

end RuleSet

/-! ## What validation says -/

/-- The value counts and is out of range. -/
def OutOfRange (past_limit : ℕ → Bool) (v : ℕ) : Prop :=
  v = 0 ∨ past_limit v = true

variable {past_limit : ℕ → Bool}

theorem check_value_eq_nil {enabled : Option Bool} {value : Option ℕ} {zero_error : String}
    {limit_error : ℕ → String} :
    check_value enabled value past_limit zero_error limit_error = [] ↔
      (enabled = some true → ∀ v, value = some v → ¬ OutOfRange past_limit v) := by
  unfold check_value OutOfRange
  by_cases henabled : enabled = some true
  · cases value with
    | none => simp
    | some v =>
      by_cases hzero : v = 0
      · simp [henabled, hzero]
      · by_cases hlimit : past_limit v = true
        all_goals simp [henabled, hzero, hlimit]
  · simp [henabled]

section Validated

variable {ext : Externals} {rules : List CacheRule} {max_rules timeout : ℕ}

/-- A rule that passes does not turn a feature on with a value of its own that is out of range. -/
structure RuleValid (timeout : ℕ) (rule : CacheRule) : Prop where
  page_size : rule.page_widening = some true → ∀ v, rule.page_size = some v →
    ¬ OutOfRange (fun v => RAM_CACHE_ADMISSION_CEILING < v) v
  hedge_trigger : rule.hedging_enabled = some true → ∀ v, rule.hedge_trigger_after = some v →
    ¬ OutOfRange (fun v => timeout ≤ v) v

theorem ruleValid_of_validate (h : validate ext rules max_rules timeout = .ok []) :
    ∀ rule ∈ rules, RuleValid timeout rule := by
  rw [validate, Outcome.bind_eq_ok] at h
  obtain ⟨patterns, -, h⟩ := h
  rw [Outcome.pure_eq, Outcome.ok.injEq, append_eq_nil_iff, append_eq_nil_iff,
    flatMap_eq_nil_iff, flatMap_eq_nil_iff] at h
  intro rule hrule
  obtain ⟨i, hi⟩ := mem_iff_getElem?.mp hrule
  rw [← mk_mem_zipIdx_iff_getElem?] at hi
  exact ⟨check_value_eq_nil.mp (h.1.2 _ hi), check_value_eq_nil.mp (h.2 _ hi)⟩

end Validated

/-! ## Where the settings come from -/

def rule_matches (full_key : List Char) (rule : CacheRule) : Bool :=
  match glob_to_regex rule.pattern with
  | .ok regex => Regex.is_match regex full_key = some true
  | _ => false

def matching (rules : List CacheRule) (full_key : List Char) : List CacheRule :=
  rules.filter (rule_matches full_key)

/-- The rule is the first one that sets the field, and sets it to `v`. -/
def Decides {α : Type} (rules : List CacheRule) (pick : CacheRule → Option α) (rule : CacheRule)
    (v : α) : Prop :=
  ∃ before after, rules = before ++ rule :: after ∧ pick rule = some v ∧
    ∀ r ∈ before, pick r = none

/-- A switch is turned on by one rule, and its value, out of range, comes from another one, which
does not turn it on itself. -/
def Stray (rules : List CacheRule) (switch : CacheRule → Option Bool)
    (value : CacheRule → Option ℕ) (past_limit : ℕ → Bool) : Prop :=
  ∃ enabling source v, Decides rules switch enabling true ∧ Decides rules value source v ∧
    switch source ≠ some true ∧ OutOfRange past_limit v

section Sources

variable {ext : Externals} {rules : List CacheRule} {set : RuleSet}

theorem matched_rules (full_key : List Char) :
    ((set.matched full_key).map fun e => e.1.rule) =
      (set.rules.filter fun e => Regex.is_match e.regex full_key = some true).map
        CompiledRule.rule := by
  have hfst : ((set.matched full_key).map Prod.fst) =
      set.rules.filter fun e => Regex.is_match e.regex full_key = some true := by
    have hmap : set.rules.zipIdx.map Prod.fst = set.rules := zipIdx_map_fst _ _
    conv_rhs => rw [← hmap, List.filter_map]
    rfl
  rw [← hfst, List.map_map]
  rfl

theorem first_eq {α : Type} (hbuild : RuleSet.build ext rules = .ok set) (full_key : List Char)
    (pick : CacheRule → Option α) :
    RuleSet.first (set.matched full_key) pick = (matching rules full_key).findSome? pick := by
  rw [RuleSet.build, Outcome.bind_eq_ok] at hbuild
  obtain ⟨patterns, hpatterns, hset⟩ := hbuild
  have hrules : set.rules = List.zipWith CompiledRule.mk rules patterns := by
    split at hset
    case h_1 => rw [← Outcome.ok.inj hset]
    case h_2 => cases hset
  have hfilter : (set.rules.filter fun e => Regex.is_match e.regex full_key = some true).map
      CompiledRule.rule = matching rules full_key := by
    rw [hrules, matching]
    rw [Outcome.traverse_eq_ok] at hpatterns
    clear hrules hset
    induction hpatterns with
    | nil => rfl
    | @cons rule regex rules patterns hregex hrest ih =>
      have hmatches : rule_matches full_key rule =
          decide (Regex.is_match regex full_key = some true) := by
        rw [rule_matches, hregex]
      rw [zipWith_cons_cons, filter_cons, filter_cons, hmatches]
      split
      case isTrue => rw [map_cons, ih]
      case isFalse => exact ih
  rw [RuleSet.first, ← hfilter, ← matched_rules, List.findSome?_map]
  rfl

theorem decides_iff {α : Type} {pick : CacheRule → Option α} {v : α} :
    rules.findSome? pick = some v ↔ ∃ rule, Decides rules pick rule v := by
  rw [List.findSome?_eq_some_iff]
  constructor
  · rintro ⟨before, rule, after, hrules, hpick, hbefore⟩
    exact ⟨rule, before, after, hrules, hpick, hbefore⟩
  · rintro ⟨rule, before, after, hrules, hpick, hbefore⟩
    exact ⟨before, rule, after, hrules, hpick, hbefore⟩

/-- A switch and its value, where no rule turns the switch on with a value of its own that is out
of range. -/
theorem in_range_iff_not_stray {switch : CacheRule → Option Bool} {value : CacheRule → Option ℕ}
    {past_limit : ℕ → Bool} (fallback : ℕ)
    (hvalid : ∀ r ∈ rules, switch r = some true → ∀ v, value r = some v →
      ¬ OutOfRange past_limit v) :
    ((rules.findSome? switch).getD false = true →
      ¬ OutOfRange past_limit ((rules.findSome? value).getD fallback)) ↔
    ¬ Stray rules switch value past_limit ∧
      ¬ ((∃ rule, Decides rules switch rule true) ∧ (∀ r ∈ rules, value r = none) ∧
        OutOfRange past_limit fallback) := by
  have hswitch : (rules.findSome? switch).getD false = true ↔
      ∃ rule, Decides rules switch rule true := by
    rw [← decides_iff]
    cases rules.findSome? switch with
    | none | some b => simp
  rw [hswitch]
  cases hvalue : rules.findSome? value with
  | none =>
    have hnone := List.findSome?_eq_none_iff.mp hvalue
    have hstray : ¬ Stray rules switch value past_limit := by
      rintro ⟨enabling, source, v, -, hsource, -⟩
      rw [decides_iff.mpr ⟨source, hsource⟩] at hvalue
      cases hvalue
    rw [Option.getD_none, and_iff_right hstray]
    exact ⟨fun h hbad => h hbad.1 hbad.2.2, fun h hon hbad => h ⟨hon, hnone, hbad⟩⟩
  | some v =>
    obtain ⟨source, hsource⟩ := decides_iff.mp hvalue
    have hsome : ¬ ((∃ rule, Decides rules switch rule true) ∧ (∀ r ∈ rules, value r = none) ∧
        OutOfRange past_limit fallback) := by
      rintro ⟨-, hnone, -⟩
      rw [List.findSome?_eq_none_iff.mpr hnone] at hvalue
      cases hvalue
    rw [Option.getD_some, and_iff_left hsome]
    constructor
    · rintro h ⟨enabling, source', v', henabling, hsource', -, hbad⟩
      have hv : v' = v := by
        have hvalue' := decides_iff.mpr ⟨source', hsource'⟩
        rw [hvalue] at hvalue'
        exact (Option.some.inj hvalue').symm
      exact h ⟨enabling, henabling⟩ (hv ▸ hbad)
    · rintro h ⟨enabling, henabling⟩ hbad
      refine h ⟨enabling, source, v, henabling, hsource, fun hon => ?_, hbad⟩
      obtain ⟨before, after, hrules, hpick, -⟩ := hsource
      have hmem : source ∈ rules := by
        rw [hrules]
        exact mem_append_right _ mem_cons_self
      exact hvalid source hmem hon v hpick hbad

end Sources

/-- The settings fit together. -/
def Consistent (settings : ResolvedSettings) (upstream_first_byte_timeout : ℕ) : Prop :=
  (settings.page_widening = true →
    0 < settings.page_size ∧ settings.page_size ≤ RAM_CACHE_ADMISSION_CEILING) ∧
  (settings.hedging_enabled = true →
    0 < settings.hedge_trigger_after ∧ settings.hedge_trigger_after < upstream_first_byte_timeout)

instance (settings : ResolvedSettings) (upstream_first_byte_timeout : ℕ) :
    Decidable (Consistent settings upstream_first_byte_timeout) :=
  inferInstanceAs (Decidable (_ ∧ _))

/-- No value that counts for a key comes from a rule that does not turn its switch on, out of range,
and the default trigger does not count where it is too long. -/
structure NoStray (rules : List CacheRule) (full_key : List Char)
    (upstream_first_byte_timeout : ℕ) : Prop where
  page_size : ¬ Stray (matching rules full_key) page_widening page_size
    (fun v => RAM_CACHE_ADMISSION_CEILING < v)
  hedge_trigger : ¬ Stray (matching rules full_key) hedging_enabled
    hedge_trigger_after (fun v => upstream_first_byte_timeout ≤ v)
  default_trigger : ¬ ((∃ rule, Decides (matching rules full_key) hedging_enabled rule
      true) ∧
    (∀ r ∈ matching rules full_key, r.hedge_trigger_after = none) ∧
    upstream_first_byte_timeout ≤ DEFAULT_HEDGE_TRIGGER_AFTER)

theorem not_outOfRange_iff {v : ℕ} : ¬ OutOfRange past_limit v ↔ 0 < v ∧ past_limit v = false := by
  rw [OutOfRange, not_or, Nat.pos_iff_ne_zero, Bool.not_eq_true]

/-- **For rules that pass validation, the settings of a key are consistent exactly if no value that
counts for it is stray.** -/
theorem resolved_consistent_iff (ext : Externals) (rules : List CacheRule) (max_rules : ℕ)
    (g : GlobalDefaults) (set : RuleSet) (full_key : List Char)
    (hvalid : validate ext rules max_rules g.upstream_first_byte_timeout = .ok [])
    (hbuild : RuleSet.build ext rules = .ok set) :
    Consistent (set.resolve full_key g) g.upstream_first_byte_timeout ↔
      NoStray rules full_key g.upstream_first_byte_timeout := by
  have hrules : ∀ r ∈ matching rules full_key, RuleValid g.upstream_first_byte_timeout r :=
    fun r hr => ruleValid_of_validate hvalid r (mem_of_mem_filter hr)
  have hpage := in_range_iff_not_stray DEFAULT_PAGE_SIZE fun r hr => (hrules r hr).page_size
  have hhedge := in_range_iff_not_stray DEFAULT_HEDGE_TRIGGER_AFTER
    fun r hr => (hrules r hr).hedge_trigger
  rw [← first_eq hbuild, ← first_eq hbuild, not_outOfRange_iff, decide_eq_false_iff_not,
    not_lt] at hpage
  rw [← first_eq hbuild, ← first_eq hbuild, not_outOfRange_iff, decide_eq_false_iff_not,
    not_le] at hhedge
  have hdefault_page : ¬ OutOfRange (fun v => RAM_CACHE_ADMISSION_CEILING < v)
      DEFAULT_PAGE_SIZE := by
    rw [not_outOfRange_iff]
    decide
  have hdefault_trigger : OutOfRange (fun v => g.upstream_first_byte_timeout ≤ v)
      DEFAULT_HEDGE_TRIGGER_AFTER ↔
        g.upstream_first_byte_timeout ≤ DEFAULT_HEDGE_TRIGGER_AFTER := by
    rw [OutOfRange, decide_eq_true_eq]
    exact or_iff_right (by decide)
  rw [hdefault_trigger] at hhedge
  constructor
  · rintro ⟨hwidening, hhedging⟩
    obtain ⟨htrigger, hdefault⟩ := hhedge.mp hhedging
    exact ⟨(hpage.mp hwidening).1, htrigger, hdefault⟩
  · rintro ⟨hsize, htrigger, hdefault⟩
    refine ⟨hpage.mpr ⟨hsize, fun hbad => hdefault_page hbad.2.2⟩, hhedge.mpr ⟨htrigger, hdefault⟩⟩

section Samples

def sample_externals : Externals :=
  ⟨fun _ => true, fun _ => .ok (), fun _ => ""⟩

def sample_defaults : GlobalDefaults :=
  ⟨0, 0, 0, true, true, false, true, true, 5000000000⟩

def split_rules (page_size hedge_trigger_after : ℕ) : List CacheRule :=
  [{ of_pattern ['a', '*'] with
      page_widening := some true, hedging_enabled := some true },
    { of_pattern ['*'] with
      page_size := some page_size, hedge_trigger_after := some hedge_trigger_after }]

def split_set (page_size hedge_trigger_after : ℕ) : RuleSet :=
  ⟨List.zipWith CompiledRule.mk (split_rules page_size hedge_trigger_after)
    [['^', 'a', '[', '^', '/', ']', '*', '$'], ['^', '[', '^', '/', ']', '*', '$']]⟩

theorem consistent_of_values_in_range :
    NoStray (split_rules 4096 100000000) ['a', 'b'] sample_defaults.upstream_first_byte_timeout :=
  (resolved_consistent_iff sample_externals (split_rules 4096 100000000) 10 sample_defaults
    (split_set 4096 100000000) ['a', 'b'] (by decide +kernel) (by decide +kernel)).mp
    (by decide +kernel)

/-- The values of the later rule are out of range, and the rules pass. -/
theorem stray_values_pass_validation :
    validate sample_externals (split_rules 0 9000000000) 10
        sample_defaults.upstream_first_byte_timeout = .ok [] ∧
    RuleSet.build sample_externals (split_rules 0 9000000000) = .ok (split_set 0 9000000000) ∧
    ((split_set 0 9000000000).resolve ['a', 'b'] sample_defaults).page_widening = true ∧
    ((split_set 0 9000000000).resolve ['a', 'b'] sample_defaults).page_size = 0 ∧
    ((split_set 0 9000000000).resolve ['a', 'b'] sample_defaults).hedging_enabled = true ∧
    sample_defaults.upstream_first_byte_timeout <
      ((split_set 0 9000000000).resolve ['a', 'b'] sample_defaults).hedge_trigger_after := by
  decide +kernel

end Samples

end HybridCache.BucketSettings
