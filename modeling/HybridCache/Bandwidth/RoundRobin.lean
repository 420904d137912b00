/-
The deficit round robin of the bandwidth limiter (`bandwidth_limiter.rs`).

A pass goes once through the classes that wait: each gets the quantum on its deficit and is served
from the head of its queue while deficit and tokens cover the request. So what a class has been
granted and its deficit grow together (`TakesTurn`). When the tokens run out, the next pass starts
with the same class again, while the deficit of the others grows without a bound.

The bytes granted are kept beside the state of the task. `burst` is `burst_capacity`, whose
arithmetic is on floats. `try_acquire` and `refund` change the bucket between any two steps of the
task.
-/
import HybridCache.Lib.Directory
import HybridCache.Lib.Outcome
import HybridCache.Lib.Transition
import Mathlib

namespace HybridCache.Bandwidth

open Lib List

/-! ## The model -/

/-- 1 MiB. -/
def LEASE_QUANTUM : ℕ := 1048576

inductive FairnessKey where
  | Caller (value : String)
  | Bucket (name : String)
  | Default
deriving DecidableEq, Repr

structure ClassState where
  deficit : ℕ
  queue : List ℕ
deriving DecidableEq, Repr

def ClassState.new : ClassState :=
  ⟨0, []⟩

structure Service where
  deficit : ℕ
  tokens : ℕ
  queue : List ℕ
  bytes : ℕ
deriving DecidableEq, Repr

def serve_queue (deficit tokens : ℕ) : List ℕ → Service
  | [] => ⟨deficit, tokens, [], 0⟩
  | needed :: rest =>
    if deficit < needed then ⟨deficit, tokens, needed :: rest, 0⟩
    else
      let got := if tokens < needed then 0 else needed
      -- a request of no bytes is taken for one that got no tokens
      if got = 0 then ⟨deficit, tokens, needed :: rest, 0⟩
      else
        let served := serve_queue (deficit - needed) (tokens - needed) rest
        { served with bytes := needed + served.bytes }

/-- The variables of `drr_task`, the token bucket, and the bytes granted so far. -/
structure Scheduler where
  classes : Directory FairnessKey ClassState
  rr_order : List FairnessKey
  available_tokens : ℕ
  failopen_total : ℕ
  granted : FairnessKey → ℕ

open Directory Function

namespace Scheduler

section Task

variable (burst : ℕ → ℕ)

def new (ceiling : ℕ) : Scheduler :=
  ⟨empty, [], burst ceiling, 0, fun _ => 0⟩

def grant (s : Scheduler) (key : FairnessKey) (bytes : ℕ) : Scheduler :=
  { s with granted := update s.granted key (s.granted key + bytes) }

/-- The end of a class's turn: a class that waits goes to the back of the order. -/
def put_back (s : Scheduler) (key : FairnessKey) (served : Service) : Scheduler :=
  { s with
    classes :=
      if served.queue = [] then s.classes.erase key
      else s.classes.put key ⟨served.deficit, served.queue⟩
    rr_order := if served.queue = [] then s.rr_order else s.rr_order ++ [key] }

/-- The burst cap holds again once nobody waits. -/
def reapply_cap (s : Scheduler) (ceiling : ℕ) : Scheduler :=
  { s with
    available_tokens :=
      if s.classes.entries = [] then min s.available_tokens (burst ceiling)
      else s.available_tokens }

/-- The turn of a class that has been taken from the front of the order. -/
def serve_class (s : Scheduler) (ceiling : ℕ) (key : FairnessKey) : Scheduler :=
  match s.classes.get? key with
  | none => { s with classes := s.classes.erase key }
  | some entry =>
    if entry.queue = [] then { s with classes := s.classes.erase key }
    else
      let served := serve_queue (u64_saturating_add entry.deficit LEASE_QUANTUM)
        s.available_tokens entry.queue
      ((({ s with available_tokens := served.tokens }).grant key served.bytes).put_back
        key served).reapply_cap burst ceiling

/-- `n` turns from the front of the order. -/
def serve_turns (ceiling : ℕ) : ℕ → Scheduler → Scheduler
  | 0, s => s
  | n + 1, s =>
    match s.rr_order with
    | [] => s
    | key :: rest =>
      serve_turns ceiling n (({ s with rr_order := rest }).serve_class burst ceiling key)

def serve_waiters (s : Scheduler) (ceiling : ℕ) : Scheduler :=
  serve_turns burst ceiling s.rr_order.length s

/-- Grant everything that waits, without tokens. -/
def drain_all (s : Scheduler) : Scheduler :=
  let count := (s.classes.entries.map fun e => e.2.queue.length).sum
  { s with
    classes := empty
    rr_order := []
    failopen_total := (s.failopen_total + count) % 2 ^ 64
    granted := fun key => s.granted key + (s.classes.get? key).elim 0 fun c => c.queue.sum }

/-- Add the tokens of a tick, up to the burst cap unless requests wait for more. -/
def refill (s : Scheduler) (ceiling : ℕ) : Scheduler :=
  let cap := burst ceiling
  let to_add := burst ceiling
  let has_pending := s.classes.entries.any fun e => !e.2.queue.isEmpty
  { s with
    available_tokens :=
      if has_pending then u64_saturating_add s.available_tokens to_add
      else min (u64_saturating_add s.available_tokens to_add) cap }

def tick (s : Scheduler) (ceiling : ℕ) : Scheduler :=
  if ceiling = 0 then s.drain_all
  else (s.refill burst ceiling).serve_waiters burst ceiling

def enqueue (s : Scheduler) (key : FairnessKey) (bytes : ℕ) : Scheduler :=
  let entry := (s.classes.get? key).getD ClassState.new
  { s with
    classes := s.classes.put key { entry with queue := entry.queue ++ [bytes] }
    rr_order := if entry.queue = [] then s.rr_order ++ [key] else s.rr_order }

def recv (s : Scheduler) (ceiling : ℕ) (key : FairnessKey) (bytes : ℕ) : Scheduler :=
  if ceiling = 0 then s.grant key bytes
  else (s.enqueue key bytes).serve_waiters burst ceiling

def try_acquire (s : Scheduler) (ceiling min_bytes desired : ℕ) : Scheduler :=
  if ceiling = 0 then s
  else if s.available_tokens < min_bytes then s
  else { s with available_tokens := s.available_tokens - min s.available_tokens desired }

def refund (s : Scheduler) (ceiling bytes : ℕ) : Scheduler :=
  if bytes = 0 ∨ ceiling = 0 then s
  else { s with
    available_tokens := min (u64_saturating_add s.available_tokens bytes) (burst ceiling) }

end Task

end Scheduler

/-- What happens to the limiter, with the ceiling that is read. -/
inductive Event where
  | tick (ceiling : ℕ)
  | recv (ceiling : ℕ) (key : FairnessKey) (bytes : ℕ)
  | try_acquire (ceiling min_bytes desired : ℕ)
  | refund (ceiling bytes : ℕ)
deriving DecidableEq, Repr

namespace Event

def request : Event → ℕ
  | recv _ _ bytes => bytes
  | _ => 0

def Enabled : Event → Prop
  | tick ceiling => ceiling ≠ 0
  | recv ceiling _ _ => ceiling ≠ 0
  | _ => True

instance : DecidablePred Enabled
  | tick ceiling => inferInstanceAs (Decidable (ceiling ≠ 0))
  | recv ceiling _ _ => inferInstanceAs (Decidable (ceiling ≠ 0))
  | try_acquire _ _ _ => isTrue trivial
  | refund _ _ => isTrue trivial

/-- What the event adds to the deficit of each class that waits. -/
def quantum : Event → ℕ
  | tick _ => LEASE_QUANTUM
  | recv _ _ _ => LEASE_QUANTUM
  | _ => 0

end Event

namespace Scheduler

section Step

variable (burst : ℕ → ℕ)

def step (s : Scheduler) : Event → Option Scheduler
  | .tick ceiling => some (s.tick burst ceiling)
  | .recv ceiling key bytes => some (s.recv burst ceiling key bytes)
  | .try_acquire ceiling min_bytes desired => some (s.try_acquire ceiling min_bytes desired)
  | .refund ceiling bytes => some (s.refund burst ceiling bytes)

end Step

def Backlogged (s : Scheduler) (key : FairnessKey) : Prop :=
  ∃ c, s.classes.get? key = some c ∧ c.queue ≠ []

def Spent (s : Scheduler) (key : FairnessKey) : Prop :=
  ∀ c, s.classes.get? key = some c → ∀ needed ∈ c.queue.head?, c.deficit < needed

instance (s : Scheduler) (key : FairnessKey) : Decidable (s.Backlogged key) :=
  match h : s.classes.get? key with
  | none => isFalse (by simp [Backlogged, h])
  | some c => decidable_of_iff (c.queue ≠ []) (by simp [Backlogged, h])

instance (s : Scheduler) (key : FairnessKey) : Decidable (s.Spent key) :=
  match h : s.classes.get? key with
  | none => isTrue (by simp [Spent, h])
  | some c => decidable_of_iff (∀ needed ∈ c.queue.head?, c.deficit < needed) (by simp [Spent, h])

end Scheduler

/-! ## Serving one queue -/

section Queue

variable (deficit tokens : ℕ) (queue : List ℕ)

/-- The deficit pays for what is served, no token is made, and what is left was there. -/
theorem serve_queue_spec :
    (serve_queue deficit tokens queue).deficit + (serve_queue deficit tokens queue).bytes =
        deficit ∧
      (serve_queue deficit tokens queue).tokens ≤ tokens ∧
      (serve_queue deficit tokens queue).queue ⊆ queue := by
  fun_induction serve_queue deficit tokens queue with
  | case1 | case2 | case3 => exact ⟨add_zero _, le_rfl, List.Subset.refl _⟩
  | case4 deficit tokens needed rest hcovers got hgot served ih =>
    obtain ⟨hdeficit, htokens, hsubset⟩ := ih
    refine ⟨?_, htokens.trans (Nat.sub_le _ _), subset_cons_of_subset _ hsubset⟩
    rw [add_left_comm, hdeficit]
    omega

theorem serve_queue_stops {needed : ℕ}
    (hhead : needed ∈ (serve_queue deficit tokens queue).queue.head?) (hpos : 0 < needed)
    (htokens : needed ≤ (serve_queue deficit tokens queue).tokens) :
    (serve_queue deficit tokens queue).deficit < needed := by
  fun_induction serve_queue deficit tokens queue with
  | case1 deficit tokens => cases hhead
  | case2 deficit tokens first rest hshort =>
    obtain rfl : first = needed := Option.some.inj hhead
    exact hshort
  | case3 deficit tokens first rest hcovers got hgot =>
    obtain rfl : first = needed := Option.some.inj hhead
    have hpays : ¬ tokens < first := not_lt.mpr htokens
    rw [show got = first from if_neg hpays] at hgot
    omega
  | case4 deficit tokens first rest hcovers got hgot served ih => exact ih hhead htokens

theorem serve_queue_no_tokens : serve_queue deficit 0 queue = ⟨deficit, 0, queue, 0⟩ := by
  cases queue with
  | nil => rfl
  | cons needed rest =>
    rw [serve_queue]
    by_cases hshort : deficit < needed
    · rw [if_pos hshort]
    · have hgot : (if 0 < needed then 0 else needed) = 0 := by
        split_ifs
        · rfl
        · omega
      rw [if_neg hshort]
      exact if_pos hgot

end Queue

/-! ## One turn

`TakesTurn` is all that the rest needs of a turn: it says what is left of a class that still
waits after it. -/

namespace Scheduler

section Turn

variable (burst : ℕ → ℕ)

/-- What a turn does to a class that still waits afterwards. -/
structure TakesTurn (s t : Scheduler) (key : FairnessKey) (before after : ClassState) : Prop where
  waits : after.queue ≠ []
  subset : after.queue ⊆ before.queue
  owed : after.deficit + t.granted key =
    u64_saturating_add before.deficit LEASE_QUANTUM + s.granted key
  granted_le : s.granted key ≤ t.granted key
  stops : ∀ needed ∈ after.queue.head?, 0 < needed → needed ≤ t.available_tokens →
    after.deficit < needed

def SameAt (s t : Scheduler) (key : FairnessKey) : Prop :=
  t.classes.get? key = s.classes.get? key ∧ t.granted key = s.granted key

def Turned (s t : Scheduler) (key : FairnessKey) : Prop :=
  ∀ after, t.classes.get? key = some after →
    ∃ before, s.classes.get? key = some before ∧ TakesTurn s t key before after

variable (s : Scheduler) (ceiling : ℕ) (key : FairnessKey)

theorem reapply_cap_tokens_le :
    (s.reapply_cap burst ceiling).available_tokens ≤ s.available_tokens := by
  rw [reapply_cap]
  split_ifs
  · exact min_le_left _ _
  · exact le_rfl

theorem serve_class_cases :
    s.serve_class burst ceiling key = { s with classes := s.classes.erase key } ∨
      ∃ entry served, s.classes.get? key = some entry ∧
        served = serve_queue (u64_saturating_add entry.deficit LEASE_QUANTUM)
          s.available_tokens entry.queue ∧
        s.serve_class burst ceiling key =
          ((({ s with available_tokens := served.tokens }).grant key served.bytes).put_back
            key served).reapply_cap burst ceiling := by
  rw [serve_class]
  cases hget : s.classes.get? key with
  | none => exact Or.inl rfl
  | some entry =>
    by_cases hidle : entry.queue = []
    · exact Or.inl (if_pos hidle)
    · exact Or.inr ⟨entry, _, rfl, rfl, if_neg hidle⟩

theorem put_back_get?_self (served : Service) :
    (s.put_back key served).classes.get? key =
      if served.queue = [] then none else some ⟨served.deficit, served.queue⟩ := by
  dsimp only [put_back]
  split_ifs
  · rw [get?_erase_self]
  · rw [get?_put_self]

theorem put_back_get?_ne {key k : FairnessKey} (served : Service) (h : k ≠ key) :
    (s.put_back key served).classes.get? k = s.classes.get? k := by
  dsimp only [put_back]
  split_ifs
  · rw [get?_erase_ne _ h]
  · rw [get?_put_ne _ h]

theorem serve_class_sameAt {key k : FairnessKey} (h : k ≠ key) :
    SameAt s (s.serve_class burst ceiling key) k := by
  rcases serve_class_cases burst s ceiling key with hdrop | ⟨entry, served, _, _, hserve⟩
  · rw [hdrop]
    exact ⟨get?_erase_ne _ h, rfl⟩
  · rw [hserve]
    exact ⟨put_back_get?_ne _ served h, update_of_ne h _ _⟩

theorem serve_class_tokens_le :
    (s.serve_class burst ceiling key).available_tokens ≤ s.available_tokens := by
  rcases serve_class_cases burst s ceiling key with hdrop | ⟨entry, served, _, hserved, hserve⟩
  · rw [hdrop]
  · rw [hserve]
    apply (reapply_cap_tokens_le burst _ ceiling).trans
    rw [hserved]
    exact (serve_queue_spec _ _ _).2.1

theorem serve_class_rr_order :
    (s.serve_class burst ceiling key).rr_order =
      s.rr_order ++
        if ((s.serve_class burst ceiling key).classes.get? key).isSome then [key] else [] := by
  rcases serve_class_cases burst s ceiling key with hdrop | ⟨entry, served, _, _, hserve⟩
  · rw [hdrop, get?_erase_self]
    exact (append_nil _).symm
  · have hget : (s.serve_class burst ceiling key).classes.get? key =
        if served.queue = [] then none else some ⟨served.deficit, served.queue⟩ := by
      rw [hserve]
      exact put_back_get?_self _ key served
    have horder : (s.serve_class burst ceiling key).rr_order =
        if served.queue = [] then s.rr_order else s.rr_order ++ [key] := by
      rw [hserve]
      rfl
    rw [hget, horder]
    by_cases hdone : served.queue = []
    · rw [if_pos hdone, if_pos hdone]
      exact (append_nil _).symm
    · rw [if_neg hdone, if_neg hdone]
      rfl

theorem serve_class_turned : Turned s (s.serve_class burst ceiling key) key := by
  intro after hafter
  rcases serve_class_cases burst s ceiling key with hdrop | ⟨entry, served, hget, hserved, hserve⟩
  · rw [hdrop, get?_erase_self] at hafter
    cases hafter
  · rw [hserve] at hafter ⊢
    have hself := put_back_get?_self
      (({ s with available_tokens := served.tokens }).grant key served.bytes) key served
    replace hafter := hself.symm.trans hafter
    split_ifs at hafter with hdone
    rw [Option.some.injEq] at hafter
    have hgranted : update s.granted key (s.granted key + served.bytes) key =
        s.granted key + served.bytes := update_self _ _ _
    have hspent : served.deficit + served.bytes =
        u64_saturating_add entry.deficit LEASE_QUANTUM := by
      rw [hserved]
      exact (serve_queue_spec _ _ _).1
    subst hafter
    refine ⟨entry, hget, hdone, ?_, ?_, ?_, ?_⟩
    · rw [hserved]
      exact (serve_queue_spec _ _ _).2.2
    · change served.deficit + update s.granted key _ key = _
      rw [hgranted, ← hspent]
      omega
    · change s.granted key ≤ update s.granted key _ key
      rw [hgranted]
      exact Nat.le_add_right _ _
    · intro needed hhead hpos htokens
      have hpays := htokens.trans (reapply_cap_tokens_le burst _ ceiling)
      rw [hserved] at hhead hpays ⊢
      exact serve_queue_stops _ _ _ hhead hpos hpays

end Turn

/-! ## One pass

The order is taken apart from the front while classes that still wait are put to its back. So the
induction is on the keys that are still to come, with any list of keys behind them. -/

section Pass

variable (burst : ℕ → ℕ)

/-- What a pass does, by class. -/
structure Passed (s t : Scheduler) (keys : List FairnessKey) : Prop where
  turned : ∀ key ∈ keys, Turned s t key
  sameAt : ∀ key, key ∉ keys → SameAt s t key
  tokens_le : t.available_tokens ≤ s.available_tokens

variable {key : FairnessKey}

theorem Turned.later {s t u : Scheduler} (h : Turned s t key) (hsame : SameAt t u key)
    (htokens : u.available_tokens ≤ t.available_tokens) :
    Turned s u key := by
  intro after hafter
  rw [hsame.1] at hafter
  obtain ⟨before, hbefore, hturn⟩ := h after hafter
  refine ⟨before, hbefore, hturn.waits, hturn.subset, ?_, ?_, ?_⟩
  · rw [hsame.2]
    exact hturn.owed
  · rw [hsame.2]
    exact hturn.granted_le
  · intro needed hhead hpos hpays
    exact hturn.stops needed hhead hpos (hpays.trans htokens)

theorem Turned.earlier {s t u : Scheduler} (hsame : SameAt s t key) (h : Turned t u key) :
    Turned s u key := by
  intro after hafter
  obtain ⟨before, hbefore, hturn⟩ := h after hafter
  refine ⟨before, hsame.1 ▸ hbefore, hturn.waits, hturn.subset, ?_, ?_, hturn.stops⟩
  · rw [← hsame.2]
    exact hturn.owed
  · rw [← hsame.2]
    exact hturn.granted_le

theorem serve_turns_cons {s : Scheduler} {rest : List FairnessKey} (ceiling n : ℕ)
    (h : s.rr_order = key :: rest) :
    serve_turns burst ceiling (n + 1) s =
      serve_turns burst ceiling n
        (({ s with rr_order := rest }).serve_class burst ceiling key) := by
  rw [serve_turns, h]

theorem serve_turns_spec (ceiling : ℕ) (keys back : List FairnessKey) (s : Scheduler)
    (hnodup : keys.Nodup) (horder : s.rr_order = keys ++ back) :
    Passed s (serve_turns burst ceiling keys.length s) keys ∧
      (serve_turns burst ceiling keys.length s).rr_order =
        back ++ keys.filter fun key =>
          ((serve_turns burst ceiling keys.length s).classes.get? key).isSome := by
  induction keys generalizing s back with
  | nil =>
    refine ⟨⟨fun key hkey => (not_mem_nil hkey).elim, fun key _ => ⟨rfl, rfl⟩, le_rfl⟩, ?_⟩
    rw [filter_nil, append_nil]
    exact horder
  | cons key rest ih =>
    rw [nodup_cons] at hnodup
    rw [cons_append] at horder
    rw [length_cons, serve_turns_cons burst ceiling rest.length horder]
    set popped : Scheduler := { s with rr_order := rest ++ back }
    set t := popped.serve_class burst ceiling key with ht
    have htorder := serve_class_rr_order burst popped ceiling key
    rw [← ht, show popped.rr_order = rest ++ back from rfl, append_assoc] at htorder
    obtain ⟨hpassed, hlast⟩ := ih _ t hnodup.2 htorder
    set u := serve_turns burst ceiling rest.length t
    have hkey : SameAt t u key := hpassed.sameAt key hnodup.1
    constructor
    · constructor
      · intro k hk
        rcases mem_cons.mp hk with rfl | hrest
        · have hpopped : SameAt s popped k := ⟨rfl, rfl⟩
          have hturned := serve_class_turned burst popped ceiling k
          exact Turned.earlier hpopped (hturned.later hkey hpassed.tokens_le)
        · have hne : k ≠ key := fun heq => hnodup.1 (heq ▸ hrest)
          exact Turned.earlier (serve_class_sameAt burst popped ceiling hne)
            (hpassed.turned k hrest)
      · intro k hk
        rw [mem_cons, not_or] at hk
        have hfirst := serve_class_sameAt burst popped ceiling hk.1
        have hthen := hpassed.sameAt k hk.2
        exact ⟨hthen.1.trans hfirst.1, hthen.2.trans hfirst.2⟩
      · exact hpassed.tokens_le.trans (serve_class_tokens_le burst popped ceiling key)
    · rw [hlast, filter_cons, hkey.1, append_assoc]
      split_ifs
      · rw [singleton_append]
      · rw [nil_append]

end Pass

/-! ## Every state the task reaches -/

/-- The order lists the classes, each once, and each has requests, of at most `largest` bytes. -/
structure Wf (largest : ℕ) (s : Scheduler) : Prop where
  nodup : s.rr_order.Nodup
  mem_order : ∀ key, key ∈ s.rr_order ↔ (s.classes.get? key).isSome
  waits : ∀ key c, s.classes.get? key = some c → c.queue ≠ []
  request_le : ∀ key c, s.classes.get? key = some c → ∀ needed ∈ c.queue, needed ≤ largest

section Reached

variable (burst : ℕ → ℕ) {largest : ℕ}

theorem new_wf (ceiling : ℕ) : Wf largest (new burst ceiling) := by
  refine ⟨nodup_nil, fun key => ?_, fun key c hget => ?_, fun key c hget => ?_⟩
  · rw [new, get?_empty]
    simp
  all_goals cases hget

theorem Wf.congr {s t : Scheduler} (h : Wf largest s) (hclasses : t.classes = s.classes)
    (horder : t.rr_order = s.rr_order) : Wf largest t := by
  cases s
  cases t
  cases hclasses
  cases horder
  exact ⟨h.nodup, h.mem_order, h.waits, h.request_le⟩

variable {s : Scheduler}

theorem serve_waiters_passed (h : Wf largest s) (ceiling : ℕ) :
    Passed s (s.serve_waiters burst ceiling) s.rr_order :=
  (serve_turns_spec burst ceiling s.rr_order [] s h.nodup (append_nil _).symm).1

theorem serve_waiters_turned (h : Wf largest s) (ceiling : ℕ) (key : FairnessKey) :
    Turned s (s.serve_waiters burst ceiling) key := by
  have hpassed := serve_waiters_passed burst h ceiling
  by_cases hkey : key ∈ s.rr_order
  · exact hpassed.turned key hkey
  · intro after hafter
    rw [(hpassed.sameAt key hkey).1] at hafter
    rw [h.mem_order, hafter] at hkey
    exact (hkey rfl).elim

theorem serve_waiters_wf (h : Wf largest s) (ceiling : ℕ) :
    Wf largest (s.serve_waiters burst ceiling) := by
  have horder := (serve_turns_spec burst ceiling s.rr_order [] s h.nodup
    (append_nil _).symm).2
  rw [nil_append] at horder
  change (s.serve_waiters burst ceiling).rr_order = _ at horder
  refine ⟨?_, ?_, ?_, ?_⟩
  · rw [horder]
    exact h.nodup.filter _
  · intro key
    rw [horder, mem_filter]
    refine ⟨fun hkey => hkey.2, fun hsome => ⟨?_, hsome⟩⟩
    obtain ⟨after, hafter⟩ := Option.isSome_iff_exists.mp hsome
    obtain ⟨before, hbefore, _⟩ := serve_waiters_turned burst h ceiling key after hafter
    rw [h.mem_order, hbefore]
    rfl
  · intro key after hafter
    obtain ⟨before, _, hturn⟩ := serve_waiters_turned burst h ceiling key after hafter
    exact hturn.waits
  · intro key after hafter needed hneeded
    obtain ⟨before, hbefore, hturn⟩ := serve_waiters_turned burst h ceiling key after hafter
    exact h.request_le key before hbefore needed (hturn.subset hneeded)

theorem enqueue_get?_self (key : FairnessKey) (bytes : ℕ) :
    (s.enqueue key bytes).classes.get? key =
      some ⟨((s.classes.get? key).getD ClassState.new).deficit,
        ((s.classes.get? key).getD ClassState.new).queue ++ [bytes]⟩ :=
  get?_put_self

theorem enqueue_get?_ne {key k : FairnessKey} (bytes : ℕ) (h : k ≠ key) :
    (s.enqueue key bytes).classes.get? k = s.classes.get? k :=
  get?_put_ne _ h

theorem enqueue_wf (h : Wf largest s) (key : FairnessKey) {bytes : ℕ} (hbytes : bytes ≤ largest) :
    Wf largest (s.enqueue key bytes) := by
  -- the key is new to the order exactly if its class is new
  have horder : (s.enqueue key bytes).rr_order =
      if key ∈ s.rr_order then s.rr_order else s.rr_order ++ [key] := by
    change (if ((s.classes.get? key).getD ClassState.new).queue = [] then s.rr_order ++ [key]
      else s.rr_order) = _
    cases hget : s.classes.get? key with
    | none =>
      have hkey : key ∉ s.rr_order := by
        rw [h.mem_order, hget]
        exact Bool.false_ne_true
      rw [if_neg hkey]
      exact if_pos rfl
    | some c =>
      have hkey : key ∈ s.rr_order := by
        rw [h.mem_order, hget]
        rfl
      rw [if_pos hkey]
      exact if_neg (h.waits key c hget)
  refine ⟨?_, ?_, ?_, ?_⟩
  · rw [horder]
    split_ifs with hkey
    · exact h.nodup
    · rw [← concat_eq_append]
      exact h.nodup.concat hkey
  · intro k
    have hmem : k ∈ (s.enqueue key bytes).rr_order ↔ k ∈ s.rr_order ∨ k = key := by
      rw [horder]
      split_ifs with hkey
      · exact ⟨Or.inl, fun hk => hk.elim id fun heq => heq ▸ hkey⟩
      · rw [mem_append, mem_singleton]
    rw [hmem]
    by_cases hk : k = key
    · rw [hk, enqueue_get?_self]
      exact ⟨fun _ => rfl, fun _ => Or.inr rfl⟩
    · rw [enqueue_get?_ne bytes hk, ← h.mem_order, or_iff_left hk]
  · intro k c hget
    by_cases hk : k = key
    · rw [hk, enqueue_get?_self, Option.some.injEq] at hget
      rw [← hget]
      exact append_ne_nil_of_right_ne_nil _ (cons_ne_nil _ _)
    · rw [enqueue_get?_ne bytes hk] at hget
      exact h.waits k c hget
  · intro k c hget needed hneeded
    by_cases hk : k = key
    · rw [hk, enqueue_get?_self, Option.some.injEq] at hget
      rw [← hget, mem_append, mem_singleton] at hneeded
      rcases hneeded with hold | hnew
      · cases hentry : s.classes.get? key with
        | none =>
          rw [hentry] at hold
          cases hold
        | some entry =>
          rw [hentry] at hold
          exact h.request_le key entry hentry needed hold
      · rw [hnew]
        exact hbytes
    · rw [enqueue_get?_ne bytes hk] at hget
      exact h.request_le k c hget needed hneeded

theorem drain_all_wf : Wf largest s.drain_all := (new_wf (fun _ => 0) 0).congr rfl rfl

/-- What a step does: a tick and a request lead to a pass if the limiter is on, and the calls
between them change the tokens only. -/
theorem step_cases {s t : Scheduler} {e : Event} (hstep : s.step burst e = some t) :
    (∃ ceiling, e = .tick ceiling ∧
      t = if ceiling = 0 then s.drain_all
        else (s.refill burst ceiling).serve_waiters burst ceiling) ∨
    (∃ ceiling key bytes, e = .recv ceiling key bytes ∧
      t = if ceiling = 0 then s.grant key bytes
        else (s.enqueue key bytes).serve_waiters burst ceiling) ∨
    (e.quantum = 0 ∧ ∃ tokens, t = { s with available_tokens := tokens }) := by
  cases e with
  | tick ceiling => exact .inl ⟨ceiling, rfl, (Option.some.inj hstep).symm⟩
  | recv ceiling key bytes =>
    exact .inr (.inl ⟨ceiling, key, bytes, rfl, (Option.some.inj hstep).symm⟩)
  | try_acquire ceiling min_bytes desired =>
    refine .inr (.inr ⟨rfl, ?_⟩)
    rw [← Option.some.inj hstep, try_acquire]
    split_ifs <;> exact ⟨_, rfl⟩
  | refund ceiling bytes =>
    refine .inr (.inr ⟨rfl, ?_⟩)
    rw [← Option.some.inj hstep, refund]
    split_ifs <;> exact ⟨_, rfl⟩

theorem step_wf {s t : Scheduler} {e : Event} (h : Wf largest s) (hbytes : e.request ≤ largest)
    (hstep : s.step burst e = some t) : Wf largest t := by
  obtain ⟨ceiling, rfl, rfl⟩ | ⟨ceiling, key, bytes, rfl, rfl⟩ | ⟨-, tokens, rfl⟩ :=
    step_cases burst hstep
  · have hrefill : Wf largest (s.refill burst ceiling) := h.congr rfl rfl
    split_ifs
    · exact drain_all_wf
    · exact serve_waiters_wf burst hrefill ceiling
  · split_ifs
    · exact h.congr rfl rfl
    · exact serve_waiters_wf burst (enqueue_wf h key hbytes) ceiling
  · exact h.congr rfl rfl

theorem run_wf {s t : Scheduler} {events : List Event} (h : Wf largest s)
    (hbytes : ∀ e ∈ events, e.request ≤ largest)
    (hrun : run (step burst) s events = some t) : Wf largest t := by
  refine run_invariant (Wf largest) ?_ h (guarded_of_forall hbytes) hrun
  intro u e u' hu hrequest hstep
  exact step_wf burst hu hrequest hstep

end Reached

/-! ## Fairness

What a class has been granted and what it is still owed grow together by the quantum in each pass,
for every class that keeps waiting. -/

def deficit_of (s : Scheduler) (key : FairnessKey) : ℕ :=
  (s.classes.get? key).elim 0 ClassState.deficit

/-- What a class has been granted, with what it is owed. -/
def owed (s : Scheduler) (key : FairnessKey) : ℕ :=
  s.deficit_of key + s.granted key

section Fairness

variable (burst : ℕ → ℕ) {largest : ℕ} {key : FairnessKey} {s : Scheduler}

theorem deficit_of_get? {c : ClassState} (h : s.classes.get? key = some c) :
    s.deficit_of key = c.deficit := by
  rw [deficit_of, h]
  rfl

theorem deficit_lt_of_spent (h : Wf largest s) (hbacklogged : s.Backlogged key)
    (hspent : s.Spent key) : s.deficit_of key < largest := by
  obtain ⟨c, hget, hwaits⟩ := hbacklogged
  rw [deficit_of_get? hget]
  obtain ⟨needed, hhead⟩ := Option.isSome_iff_exists.mp (List.isSome_head?.mpr hwaits)
  have hle := h.request_le key c hget needed (mem_of_mem_head? hhead)
  exact (hspent c hget needed hhead).trans_le hle

theorem serve_waiters_owed (h : Wf largest s) (ceiling : ℕ)
    (hroom : s.deficit_of key + LEASE_QUANTUM ≤ u64_max)
    (hbacklogged : (s.serve_waiters burst ceiling).Backlogged key) :
    (s.serve_waiters burst ceiling).owed key = s.owed key + LEASE_QUANTUM ∧
      s.granted key ≤ (s.serve_waiters burst ceiling).granted key := by
  obtain ⟨after, hafter, _⟩ := hbacklogged
  obtain ⟨before, hbefore, hturn⟩ := serve_waiters_turned burst h ceiling key after hafter
  rw [deficit_of_get? hbefore] at hroom
  have howed := hturn.owed
  rw [u64_saturating_add, min_eq_left hroom] at howed
  refine ⟨?_, hturn.granted_le⟩
  rw [owed, owed, deficit_of_get? hafter, deficit_of_get? hbefore]
  omega

theorem enqueue_deficit_of {k : FairnessKey} (key : FairnessKey) (bytes : ℕ)
    (hbacklogged : s.Backlogged k) :
    (s.enqueue key bytes).deficit_of k = s.deficit_of k := by
  obtain ⟨c, hget, _⟩ := hbacklogged
  by_cases hk : k = key
  · subst hk
    rw [deficit_of_get? (enqueue_get?_self k bytes), deficit_of_get? hget, hget]
    rfl
  · rw [deficit_of, deficit_of, enqueue_get?_ne bytes hk]

/-- **Step lemma.** -/
theorem step_owed {s t : Scheduler} {e : Event} (h : Wf largest s) (hbytes : e.request ≤ largest)
    (henabled : e.Enabled) (hroom : s.deficit_of key + LEASE_QUANTUM ≤ u64_max)
    (hbefore : s.Backlogged key) (hafter : t.Backlogged key) (hstep : s.step burst e = some t) :
    t.owed key = s.owed key + e.quantum ∧ s.granted key ≤ t.granted key := by
  obtain ⟨ceiling, rfl, rfl⟩ | ⟨ceiling, k, bytes, rfl, rfl⟩ | ⟨hquantum, tokens, rfl⟩ :=
    step_cases burst hstep
  · have hrefill : Wf largest (s.refill burst ceiling) := h.congr rfl rfl
    rw [if_neg henabled] at hafter ⊢
    exact serve_waiters_owed burst hrefill ceiling hroom hafter
  · rw [if_neg henabled] at hafter ⊢
    have hdeficit := enqueue_deficit_of k bytes hbefore
    have howed : (s.enqueue k bytes).owed key = s.owed key := by
      rw [owed, hdeficit]
      rfl
    rw [← hdeficit] at hroom
    rw [← howed]
    exact serve_waiters_owed burst (enqueue_wf h k hbytes) ceiling hroom hafter
  · rw [hquantum]
    exact ⟨rfl, le_rfl⟩

def BothBacklogged (i j : FairnessKey) (s : Scheduler) : Prop :=
  s.Backlogged i ∧ s.Backlogged j

/-- The limiter is switched on, and neither class waits with a deficit that covers its first
request. -/
def Unstarved (i j : FairnessKey) (s : Scheduler) (e : Event) : Prop :=
  e.Enabled ∧ s.Spent i ∧ s.Spent j

instance (i j : FairnessKey) (s : Scheduler) : Decidable (BothBacklogged i j s) :=
  inferInstanceAs (Decidable (_ ∧ _))

instance (i j : FairnessKey) (s : Scheduler) (e : Event) : Decidable (Unstarved i j s e) :=
  inferInstanceAs (Decidable (_ ∧ _ ∧ _))

/-- The condition on one of the two classes, with what a run says of the states around a step. -/
structure FairStep (largest : ℕ) (key : FairnessKey) (s : Scheduler) (e : Event) : Prop where
  request_le : e.request ≤ largest
  enabled : e.Enabled
  spent : s.Spent key
  before : s.Backlogged key
  after : ∀ t, s.step burst e = some t → t.Backlogged key

/-- **Run lemma.** Along the interval a class gains one quantum for each pass, and its deficit stays
below the largest request and a quantum. -/
theorem run_owed (hlargest : largest + LEASE_QUANTUM ≤ u64_max) {s t : Scheduler}
    {interval : List Event} (h : Wf largest s) (hsmall : s.deficit_of key ≤ largest + LEASE_QUANTUM)
    (hguard : Guarded (step burst) (FairStep burst largest key) s interval)
    (hrun : run (step burst) s interval = some t) :
    t.owed key = s.owed key + (interval.map Event.quantum).sum ∧
      t.deficit_of key ≤ largest + LEASE_QUANTUM := by
  have hstep : ∀ u e u', Wf largest u → FairStep burst largest key u e →
      u.step burst e = some u' → u.deficit_of key < largest ∧
        u'.owed key = u.owed key + e.quantum ∧ u.granted key ≤ u'.granted key := by
    intro u e u' hu hfair hu'
    have hlt := deficit_lt_of_spent hu hfair.before hfair.spent
    have hroom : u.deficit_of key + LEASE_QUANTUM ≤ u64_max := by omega
    exact ⟨hlt, step_owed burst hu hfair.request_le hfair.enabled hroom hfair.before
      (hfair.after u' hu') hu'⟩
  have hwf : ∀ u e u', Wf largest u → FairStep burst largest key u e →
      u.step burst e = some u' → Wf largest u' :=
    fun u e u' hu hfair hu' => step_wf burst hu hfair.request_le hu'
  constructor
  · refine run_sum (fun u => u.owed key) Event.quantum hwf ?_ h hguard hrun
    exact fun u e u' hu hfair hu' => (hstep u e u' hu hfair hu').2.1
  · have hinv : Wf largest t ∧ t.deficit_of key ≤ largest + LEASE_QUANTUM := by
      refine run_invariant (fun u => Wf largest u ∧ u.deficit_of key ≤ largest + LEASE_QUANTUM)
        ?_ ⟨h, hsmall⟩ hguard hrun
      rintro u e u' ⟨hu, _⟩ hfair hu'
      obtain ⟨hlt, howed, hgranted⟩ := hstep u e u' hu hfair hu'
      have hquantum : e.quantum ≤ LEASE_QUANTUM := by
        cases e with
        | tick ceiling | recv ceiling k bytes => exact le_rfl
        | try_acquire ceiling min_bytes desired | refund ceiling bytes => exact Nat.zero_le _
      refine ⟨hwf u e u' hu hfair hu', ?_⟩
      rw [owed, owed] at howed
      omega
    exact hinv.2

/-- **A pass leaves nothing that it could grant.** After one inside which no other thread refunds
tokens, in any run, the first request of a class that waits is more than the deficit of the class
or more than the tokens that are left. -/
theorem none_payable_waits (ceiling : ℕ) (past : List Event) (e : Event) (key : FairnessKey)
    {s t : Scheduler} {c : ClassState} {needed : ℕ}
    (hpast : run (step burst) (new burst ceiling) past = some s)
    (hstep : s.step burst e = some t) (henabled : e.Enabled) (hserves : e.quantum ≠ 0)
    (hget : t.classes.get? key = some c) (hhead : needed ∈ c.queue.head?) (hpos : 0 < needed) :
    c.deficit < needed ∨ t.available_tokens < needed := by
  have hle : ∀ e' ∈ e :: past, e'.request ≤ ((e :: past).map Event.request).sum :=
    fun e' he => single_le_sum (fun _ _ => Nat.zero_le _) _ (mem_map_of_mem he)
  have hwf := run_wf burst (new_wf burst ceiling) (fun e' he => hle e' (mem_cons_of_mem e he)) hpast
  refine or_iff_not_imp_right.mpr fun hpays => ?_
  obtain ⟨now, rfl, rfl⟩ | ⟨now, key', bytes, rfl, rfl⟩ | ⟨hquantum, -⟩ := step_cases burst hstep
  · rw [if_neg henabled] at hget hpays
    have hrefill : Wf _ (s.refill burst now) := hwf.congr rfl rfl
    obtain ⟨_, -, hturn⟩ := serve_waiters_turned burst hrefill now key c hget
    exact hturn.stops needed hhead hpos (not_lt.mp hpays)
  · rw [if_neg henabled] at hget hpays
    have henqueue := enqueue_wf hwf key' (hle _ mem_cons_self)
    obtain ⟨_, -, hturn⟩ := serve_waiters_turned burst henqueue now key c hget
    exact hturn.stops needed hhead hpos (not_lt.mp hpays)
  · exact absurd hquantum hserves

/-- The bytes that a class is granted from one state to a later one. -/
def granted_over (s t : Scheduler) (key : FairnessKey) : ℤ :=
  t.granted key - s.granted key

/-- Over an interval in which two classes stay backlogged, and are never left with a deficit that
covers their first request, the bytes granted to them differ by at most two requests of the largest
size and one quantum. -/
theorem fair_of_unstarved (ceiling : ℕ) (hlargest : largest + LEASE_QUANTUM ≤ u64_max)
    (i j : FairnessKey) (past interval : List Event) (s t : Scheduler)
    (hrequests : ∀ e ∈ past ++ interval, e.request ≤ largest)
    (hpast : run (step burst) (new burst ceiling) past = some s)
    (hrun : run (step burst) s interval = some t)
    (hbacklogged : ∀ n u, run (step burst) s (interval.take n) = some u → BothBacklogged i j u)
    (hunstarved : Guarded (step burst) (Unstarved i j) s interval) :
    |granted_over s t i - granted_over s t j| ≤ 2 * largest + LEASE_QUANTUM := by
  have hwf : Wf largest s := by
    refine run_wf burst (new_wf burst ceiling) ?_ hpast
    exact fun e he => hrequests e (mem_append_left _ he)
  have hrequest : Guarded (step burst) (fun _ e => e.request ≤ largest) s interval :=
    guarded_of_forall fun e he => hrequests e (mem_append_right _ he)
  have hall := (hrequest.and hunstarved).and (guarded_of_run_forall hbacklogged)
  have hi : Guarded (step burst) (FairStep burst largest i) s interval :=
    hall.mono fun u e h => ⟨h.1.1, h.1.2.1, h.1.2.2.1, h.2.1.1, fun v hv => (h.2.2 v hv).1⟩
  have hj : Guarded (step burst) (FairStep burst largest j) s interval :=
    hall.mono fun u e h => ⟨h.1.1, h.1.2.1, h.1.2.2.2, h.2.1.2, fun v hv => (h.2.2 v hv).2⟩
  cases interval with
  | nil =>
    obtain rfl : s = t := Option.some.inj hrun
    rw [granted_over, granted_over, sub_self, sub_self, sub_self, abs_zero]
    positivity
  | cons e rest =>
    have hdi := deficit_lt_of_spent hwf hi.1.before hi.1.spent
    have hdj := deficit_lt_of_spent hwf hj.1.before hj.1.spent
    obtain ⟨hti, hei⟩ := run_owed burst hlargest hwf (by omega) hi hrun
    obtain ⟨htj, hej⟩ := run_owed burst hlargest hwf (by omega) hj hrun
    rw [owed, owed] at hti htj
    rw [granted_over, granted_over, abs_le]
    constructor <;> omega

/-- `burst_capacity` where the floats are exact. -/
def tenth (ceiling : ℕ) : ℕ :=
  ceiling / 10

def bucket_a : FairnessKey :=
  .Bucket "bucket-a"

def bucket_b : FairnessKey :=
  .Bucket "bucket-b"

/-- Two buckets that ask for 4 MiB at a time, with 10 MiB of tokens for each tick. -/
theorem fair_of_ample_tokens :
    ∃ s t,
      run (step tenth) (new tenth 104857600)
        [.recv 104857600 bucket_a 4194304, .recv 104857600 bucket_b 4194304,
          .recv 104857600 bucket_a 4194304, .recv 104857600 bucket_b 4194304] = some s ∧
      run (step tenth) s [.tick 104857600, .recv 104857600 bucket_b 4194304] = some t ∧
      |granted_over s t bucket_a - granted_over s t bucket_b| ≤
        2 * (4194304 : ℕ) + LEASE_QUANTUM := by
  refine ⟨_, _, rfl, rfl, fair_of_unstarved tenth 104857600 (by decide) bucket_a bucket_b
    [.recv 104857600 bucket_a 4194304, .recv 104857600 bucket_b 4194304,
      .recv 104857600 bucket_a 4194304, .recv 104857600 bucket_b 4194304]
    [.tick 104857600, .recv 104857600 bucket_b 4194304] _ _ (by decide) rfl rfl ?_
    (by decide +kernel)⟩
  intro n u hu
  rcases n with _ | _ | n
  · cases hu
    decide +kernel
  · cases hu
    decide +kernel
  · rw [take_of_length_le (Nat.le_add_left 2 n)] at hu
    cases hu
    decide +kernel

/-- One bucket asks for 4 MiB with 1 MiB of tokens, and another 1 MiB comes. -/
theorem none_payable_of_few_tokens :
    ∃ s t c, run (step tenth) (new tenth 10485760) [.recv 10485760 bucket_a 4194304] = some s ∧
      s.step tenth (.tick 10485760) = some t ∧ t.classes.get? bucket_a = some c ∧
      (c.deficit < 4194304 ∨ t.available_tokens < 4194304) :=
  ⟨_, _, _, rfl, rfl, rfl, none_payable_waits tenth 10485760 [.recv 10485760 bucket_a 4194304]
    (.tick 10485760) bucket_a rfl rfl (by decide) (by decide) rfl rfl (by decide)⟩

end Fairness

/-! ## Two classes, one of them starved

Both classes ask for one quantum at a time, and each tick brings the tokens of one. The first class
of the order takes them and, as its next request is there, keeps its place. -/

section Starved

variable (burst : ℕ → ℕ) {s : Scheduler}

theorem serve_turns_of_waits {key : FairnessKey} {rest : List FairnessKey} {c : ClassState}
    {served : Service} (ceiling n : ℕ) (horder : s.rr_order = key :: rest)
    (hget : s.classes.get? key = some c)
    (hserved : serve_queue (u64_saturating_add c.deficit LEASE_QUANTUM) s.available_tokens c.queue =
      served)
    (hwaits : served.queue ≠ []) :
    serve_turns burst ceiling (n + 1) s =
      serve_turns burst ceiling n { s with
        classes := s.classes.put key ⟨served.deficit, served.queue⟩
        rr_order := rest ++ [key]
        available_tokens := served.tokens
        granted := update s.granted key (s.granted key + served.bytes) } := by
  have hqueue : c.queue ≠ [] := by
    intro hempty
    rw [hempty] at hserved
    rw [← hserved] at hwaits
    exact hwaits rfl
  rw [serve_turns_cons burst ceiling n horder, serve_class]
  rw [hget]
  dsimp only
  rw [if_neg hqueue, hserved, put_back, if_neg hwaits, if_neg hwaits]
  -- a class is stored, so the cap is not applied
  rfl

/-- What a state with two classes, `a` before `b`, has. -/
structure TwoClasses (s : Scheduler) (a b : FairnessKey) (first second : ClassState)
    (tokens : ℕ) : Prop where
  order : s.rr_order = [a, b]
  first : s.classes.get? a = some first
  second : s.classes.get? b = some second
  tokens : s.available_tokens = tokens

theorem TwoClasses.serve_waiters {a b : FairnessKey} {first second : ClassState} {tokens : ℕ}
    (h : TwoClasses s a b first second tokens) (hne : a ≠ b) (ceiling : ℕ)
    {served_a served_b : Service}
    (ha : serve_queue (u64_saturating_add first.deficit LEASE_QUANTUM) tokens first.queue =
      served_a)
    (hb : serve_queue (u64_saturating_add second.deficit LEASE_QUANTUM) served_a.tokens
      second.queue = served_b)
    (ha_waits : served_a.queue ≠ []) (hb_waits : served_b.queue ≠ []) :
    TwoClasses (s.serve_waiters burst ceiling) a b ⟨served_a.deficit, served_a.queue⟩
        ⟨served_b.deficit, served_b.queue⟩ served_b.tokens ∧
      (s.serve_waiters burst ceiling).granted a = s.granted a + served_a.bytes ∧
      (s.serve_waiters burst ceiling).granted b = s.granted b + served_b.bytes := by
  rw [← h.tokens] at ha
  have hget_b : (s.classes.put a ⟨served_a.deficit, served_a.queue⟩).get? b = some second := by
    rw [get?_put_ne _ hne.symm]
    exact h.second
  rw [Scheduler.serve_waiters, h.order]
  rw [length_cons, length_singleton,
    serve_turns_of_waits burst ceiling 1 h.order h.first ha ha_waits,
    serve_turns_of_waits burst ceiling 0 rfl hget_b hb hb_waits, serve_turns]
  refine ⟨⟨rfl, ?_, get?_put_self, rfl⟩, ?_, ?_⟩
  · rw [get?_put_ne _ hne, get?_put_self]
  · dsimp only
    rw [update_of_ne hne, update_self]
  · dsimp only
    rw [update_self, update_of_ne hne.symm]

def Crowded (s : Scheduler) : Prop :=
  ∃ deficit_a deficit_b, TwoClasses s bucket_a bucket_b
    ⟨deficit_a, [LEASE_QUANTUM, LEASE_QUANTUM]⟩ ⟨deficit_b, [LEASE_QUANTUM, LEASE_QUANTUM]⟩ 0

theorem bucket_a_ne_bucket_b : bucket_a ≠ bucket_b := by decide

theorem Crowded.bothBacklogged (h : Crowded s) : BothBacklogged bucket_a bucket_b s := by
  obtain ⟨deficit_a, deficit_b, h⟩ := h
  exact ⟨⟨_, h.first, cons_ne_nil _ _⟩, ⟨_, h.second, cons_ne_nil _ _⟩⟩

theorem serve_queue_one (deficit : ℕ) (h : LEASE_QUANTUM ≤ deficit) :
    serve_queue deficit LEASE_QUANTUM [LEASE_QUANTUM, LEASE_QUANTUM] =
      ⟨deficit - LEASE_QUANTUM, 0, [LEASE_QUANTUM], LEASE_QUANTUM⟩ := by
  have hgot : ¬ (if LEASE_QUANTUM < LEASE_QUANTUM then 0 else LEASE_QUANTUM) = 0 := by decide
  rw [serve_queue, if_neg (not_lt.mpr h)]
  rw [if_neg hgot, Nat.sub_self, serve_queue_no_tokens]
  rfl

theorem Crowded.round (h : Crowded s) :
    ∃ u t, s.step tenth (.tick 10485760) = some u ∧ BothBacklogged bucket_a bucket_b u ∧
      u.step tenth (.recv 10485760 bucket_a LEASE_QUANTUM) = some t ∧ Crowded t ∧
      t.granted bucket_a = s.granted bucket_a + LEASE_QUANTUM ∧
      t.granted bucket_b = s.granted bucket_b := by
  obtain ⟨deficit_a, deficit_b, h⟩ := h
  have hne := bucket_a_ne_bucket_b
  have hrefill : TwoClasses (s.refill tenth 10485760) bucket_a bucket_b
      ⟨deficit_a, [LEASE_QUANTUM, LEASE_QUANTUM]⟩ ⟨deficit_b, [LEASE_QUANTUM, LEASE_QUANTUM]⟩
      LEASE_QUANTUM := by
    refine ⟨h.order, h.first, h.second, ?_⟩
    dsimp only [refill]
    -- both branches of the refill give the tokens of one tick
    rw [h.tokens]
    split_ifs <;> decide
  have hdeficit : LEASE_QUANTUM ≤ u64_saturating_add deficit_a LEASE_QUANTUM :=
    le_min (Nat.le_add_left _ _) (by decide)
  obtain ⟨htick, hgrant_a, hgrant_b⟩ := hrefill.serve_waiters tenth hne 10485760
    (serve_queue_one _ hdeficit) (serve_queue_no_tokens _ _) (cons_ne_nil _ _)
    (cons_ne_nil _ _)
  set u := (s.refill tenth 10485760).serve_waiters tenth 10485760
  have hjoined : TwoClasses (u.enqueue bucket_a LEASE_QUANTUM) bucket_a bucket_b
      ⟨u64_saturating_add deficit_a LEASE_QUANTUM - LEASE_QUANTUM, [LEASE_QUANTUM, LEASE_QUANTUM]⟩
      ⟨u64_saturating_add deficit_b LEASE_QUANTUM, [LEASE_QUANTUM, LEASE_QUANTUM]⟩ 0 := by
    refine ⟨?_, ?_, ?_, htick.tokens⟩
    · dsimp only [enqueue]
      rw [htick.first, ← htick.order]
      rfl
    · rw [enqueue_get?_self, htick.first]
      rfl
    · rw [enqueue_get?_ne _ hne.symm]
      exact htick.second
  obtain ⟨hrecv, hsame_a, hsame_b⟩ := hjoined.serve_waiters tenth hne 10485760
    (serve_queue_no_tokens _ _) (serve_queue_no_tokens _ _) (cons_ne_nil _ _)
    (cons_ne_nil _ _)
  refine ⟨u, _, rfl, ?_, rfl, ⟨_, _, hrecv⟩, ?_, ?_⟩
  · exact ⟨⟨_, htick.first, cons_ne_nil _ _⟩, ⟨_, htick.second, cons_ne_nil _ _⟩⟩
  · exact hsame_a.trans hgrant_a
  · exact hsame_b.trans hgrant_b

/-- `n` ticks, with a new request of the first bucket after each. -/
def rounds : ℕ → List Event
  | 0 => []
  | n + 1 => .tick 10485760 :: .recv 10485760 bucket_a LEASE_QUANTUM :: rounds n

theorem rounds_request (n : ℕ) : ∀ e ∈ rounds n, e.request ≤ LEASE_QUANTUM ∧ e.Enabled := by
  induction n with
  | zero => exact fun e he => (not_mem_nil he).elim
  | succ n ih => exact forall_mem_cons.mpr ⟨by decide, forall_mem_cons.mpr ⟨by decide, ih⟩⟩

theorem Crowded.run_rounds (n : ℕ) (h : Crowded s) :
    ∃ t, run (step tenth) s (rounds n) = some t ∧
      t.granted bucket_a = s.granted bucket_a + n * LEASE_QUANTUM ∧
      t.granted bucket_b = s.granted bucket_b ∧
      ∀ m u, run (step tenth) s ((rounds n).take m) = some u →
        BothBacklogged bucket_a bucket_b u := by
  induction n generalizing s with
  | zero =>
    refine ⟨s, rfl, by rw [Nat.zero_mul, Nat.add_zero], rfl, fun m u hu => ?_⟩
    rw [rounds, take_nil] at hu
    obtain rfl : s = u := Option.some.inj hu
    exact h.bothBacklogged
  | succ n ih =>
    obtain ⟨u, t, hu, hboth, ht, hcrowded, hgrant_a, hgrant_b⟩ := h.round
    obtain ⟨v, hv, hall_a, hall_b, hlater⟩ := ih hcrowded
    refine ⟨v, run_cons.mpr ⟨u, hu, run_cons.mpr ⟨t, ht, hv⟩⟩, ?_, hall_b.trans hgrant_b, ?_⟩
    · rw [hall_a, hgrant_a]
      ring
    · intro m w hw
      rcases m with _ | _ | m
      · obtain rfl : s = w := Option.some.inj hw
        exact h.bothBacklogged
      · obtain ⟨u', hu', hw⟩ := run_cons.mp hw
        obtain rfl : u = u' := Option.some.inj (hu.symm.trans hu')
        obtain rfl : u = w := Option.some.inj hw
        exact hboth
      · obtain ⟨u', hu', hw⟩ := run_cons.mp hw
        obtain rfl : u = u' := Option.some.inj (hu.symm.trans hu')
        obtain ⟨t', ht', hw⟩ := run_cons.mp hw
        obtain rfl : t = t' := Option.some.inj (ht.symm.trans ht')
        exact hlater m w hw

/-- A stream takes the first tokens, and two requests of each bucket come. -/
def crowd : List Event :=
  [.try_acquire 10485760 1 LEASE_QUANTUM, .recv 10485760 bucket_a LEASE_QUANTUM,
    .recv 10485760 bucket_a LEASE_QUANTUM, .recv 10485760 bucket_b LEASE_QUANTUM,
    .recv 10485760 bucket_b LEASE_QUANTUM]

theorem crowd_crowded : ∃ s, run (step tenth) (new tenth 10485760) crowd = some s ∧ Crowded s := by
  refine ⟨_, rfl, 4194304, 2097152, ?_, ?_, ?_, ?_⟩
  all_goals decide +kernel

/-- At 10 MiB/s, with requests of a quantum, no constant bounds the difference of two buckets that
both stay backlogged. -/
theorem later_class_starves :
    ¬ ∃ bound : ℤ, ∀ past interval s t,
      (∀ e ∈ past ++ interval, e.request ≤ LEASE_QUANTUM ∧ e.Enabled) →
      run (step tenth) (new tenth 10485760) past = some s →
      run (step tenth) s interval = some t →
      (∀ n u, run (step tenth) s (interval.take n) = some u →
        BothBacklogged bucket_a bucket_b u) →
      |granted_over s t bucket_a - granted_over s t bucket_b| ≤ bound := by
  rintro ⟨bound, hbound⟩
  obtain ⟨s, hs, hcrowded⟩ := crowd_crowded
  obtain ⟨t, ht, ha, hb, hboth⟩ := hcrowded.run_rounds (bound.toNat + 1)
  have hcrowd : ∀ e ∈ crowd, e.request ≤ LEASE_QUANTUM ∧ e.Enabled := by decide
  have hrequests : ∀ e ∈ crowd ++ rounds (bound.toNat + 1),
      e.request ≤ LEASE_QUANTUM ∧ e.Enabled :=
    forall_mem_append.mpr ⟨hcrowd, rounds_request _⟩
  have hle := hbound crowd (rounds (bound.toNat + 1)) s t hrequests hs ht hboth
  rw [granted_over, granted_over, ha, hb] at hle
  have hbig := (abs_le.mp hle).2
  push_cast at hbig
  rw [show (LEASE_QUANTUM : ℤ) = 1048576 from rfl] at hbig
  omega

end Starved

end Scheduler

end HybridCache.Bandwidth
