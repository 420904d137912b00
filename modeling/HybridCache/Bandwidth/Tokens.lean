/-
The token bucket between its callers (`try_acquire`, `refund`, the refill and `serve_waiters` in
`bandwidth_limiter.rs`).

Every change is one compare-and-swap, but for the clamp at the end of a pass, which loads the
tokens and then stores the burst capacity. A refill goes beyond the burst capacity while requests
wait: `excess` counts what was added so since the last clamp, and `cap` is the largest burst
capacity so far. A disabled limiter, and a pass that drains the queues, grant without tokens.
-/
import HybridCache.Bandwidth.RoundRobin

namespace HybridCache.Bandwidth

open Lib

structure TokenBucket where
  available_tokens : ℕ
  loaded : Option ℕ
  granted : ℕ
  cap : ℕ
  excess : ℕ

inductive BucketEvent where
  | try_acquire (ceiling min_bytes desired : ℕ)
  /-- The task grants a request that waits. -/
  | serve (needed : ℕ)
  | refund (ceiling bytes : ℕ)
  | refill (ceiling : ℕ) (has_pending : Bool)
  | clamp_load
  | clamp_store (ceiling : ℕ)

def BucketEvent.credit (burst : ℕ → ℕ) : BucketEvent → ℕ
  | .refund ceiling bytes => if ceiling = 0 then 0 else bytes
  | .refill ceiling _ => if ceiling = 0 then 0 else burst ceiling
  | _ => 0

open TokenBucket BucketEvent

namespace TokenBucket

def take (s : TokenBucket) (bytes : ℕ) : TokenBucket :=
  { s with available_tokens := s.available_tokens - bytes, granted := s.granted + bytes }

variable (burst : ℕ → ℕ)

def new (ceiling : ℕ) : TokenBucket :=
  ⟨burst ceiling, none, 0, burst ceiling, 0⟩

def set (s : TokenBucket) (ceiling tokens excess : ℕ) : TokenBucket :=
  { s with
    available_tokens := tokens
    cap := max s.cap (burst ceiling)
    excess := excess }

/-- The steps of the task wait for its clamp. -/
def step (s : TokenBucket) : BucketEvent → Option TokenBucket
  | .try_acquire ceiling min_bytes desired =>
    if ceiling = 0 ∨ s.available_tokens < min_bytes then some s
    else some (s.take (min s.available_tokens desired))
  | .serve needed =>
    if s.loaded = none ∧ needed ≤ s.available_tokens then some (s.take needed) else none
  | .refund ceiling bytes =>
    if bytes = 0 ∨ ceiling = 0 then some s
    else some (s.set burst ceiling
      (min (u64_saturating_add s.available_tokens bytes) (burst ceiling)) s.excess)
  | .refill ceiling has_pending =>
    if s.loaded ≠ none then none
    else if ceiling = 0 then some s
    else if has_pending then
      some (s.set burst ceiling (u64_saturating_add s.available_tokens (burst ceiling))
        (s.excess + burst ceiling))
    else
      some (s.set burst ceiling
        (min (u64_saturating_add s.available_tokens (burst ceiling)) (burst ceiling)) s.excess)
  | .clamp_load =>
    if s.loaded = none then some { s with loaded := some s.available_tokens } else none
  | .clamp_store ceiling =>
    s.loaded.map fun cur =>
      { s.set burst ceiling
          (if burst ceiling < cur then burst ceiling else s.available_tokens) 0 with
        loaded := none }

/-- The clamp stores no more than is there. -/
def Settled (s : TokenBucket) : BucketEvent → Prop
  | .clamp_store ceiling =>
    ∀ cur ∈ s.loaded, burst ceiling < cur → burst ceiling ≤ s.available_tokens
  | _ => True

/-- What is granted and there was credited, and what is there exceeds the burst capacity only by
what was added for requests that wait. -/
structure Kept (credited : ℕ) (s : TokenBucket) : Prop where
  conserved : s.granted + s.available_tokens ≤ credited
  bounded : s.available_tokens ≤ s.cap + s.excess
  loaded : ∀ cur, s.loaded = some cur → s.available_tokens ≤ max cur s.cap

variable {burst} {s s' : TokenBucket} {credited : ℕ} {event : BucketEvent}

theorem Kept.take (h : s.Kept credited) {bytes : ℕ} (hle : bytes ≤ s.available_tokens) :
    (s.take bytes).Kept credited := by
  refine ⟨?_, (Nat.sub_le _ _).trans h.bounded, fun cur hcur => ?_⟩
  · have hconserved := h.conserved
    dsimp only [TokenBucket.take]
    omega
  · exact (Nat.sub_le _ _).trans (h.loaded cur hcur)

/-- The tokens become no more than were there and are added, and at most the burst capacity unless
the rest is counted as excess. -/
theorem Kept.set (h : s.Kept credited) {ceiling tokens excess bytes : ℕ}
    (hle : tokens ≤ s.available_tokens + bytes)
    (hcap : tokens ≤ burst ceiling ∨ s.loaded = none ∧ tokens ≤ s.cap + excess) :
    (s.set burst ceiling tokens excess).Kept (credited + bytes) := by
  have hconserved := h.conserved
  refine ⟨?_, ?_, fun cur hcur => ?_⟩
  · dsimp only [TokenBucket.set]
    omega
  · dsimp only [TokenBucket.set]
    omega
  · dsimp only [TokenBucket.set] at hcur ⊢
    rcases hcap with hcap | ⟨hnone, -⟩
    · omega
    · rw [hnone] at hcur
      cases hcur

theorem Kept.step (h : s.Kept credited) (hsettled : s.Settled burst event)
    (hstep : s.step burst event = some s') : s'.Kept (credited + event.credit burst) := by
  cases event with simp only [step] at hstep
  | try_acquire ceiling min_bytes desired =>
    split_ifs at hstep
    · cases hstep
      exact h
    · cases hstep
      exact h.take (min_le_left _ _)
  | serve needed =>
    split_ifs at hstep with hneeded
    cases hstep
    exact h.take hneeded.2
  | refund ceiling bytes =>
    split_ifs at hstep with hnone
    · cases hstep
      rw [credit]
      split_ifs with hzero
      · exact h
      · rw [hnone.resolve_right hzero]
        exact h
    · cases hstep
      rw [not_or] at hnone
      rw [credit, if_neg hnone.2]
      exact h.set ((min_le_left _ _).trans (min_le_left _ _)) (.inl (min_le_right _ _))
  | refill ceiling has_pending =>
    split_ifs at hstep with hloaded hzero hpending
    · cases hstep
      rw [credit, if_pos hzero]
      exact h
    · cases hstep
      have hbounded := h.bounded
      rw [credit, if_neg hzero]
      refine h.set (min_le_left _ _) (.inr ⟨not_not.mp hloaded, (min_le_left _ _).trans ?_⟩)
      omega
    · cases hstep
      rw [credit, if_neg hzero]
      exact h.set ((min_le_left _ _).trans (min_le_left _ _)) (.inl (min_le_right _ _))
  | clamp_load =>
    split_ifs at hstep
    cases hstep
    refine ⟨h.conserved, h.bounded, ?_⟩
    rintro _ ⟨⟩
    exact le_max_left _ _
  | clamp_store ceiling =>
    obtain ⟨cur, hcur, rfl⟩ := Option.map_eq_some_iff.mp hstep
    have hloaded := h.loaded cur hcur
    have hconserved := h.conserved
    have hthere := hsettled cur hcur
    refine ⟨?_, ?_, nofun⟩
    · dsimp only [TokenBucket.set, credit]
      split_ifs <;> omega
    · dsimp only [TokenBucket.set]
      split_ifs <;> omega

end TokenBucket

/-- **The bucket does not grant more than it was given.** -/
theorem granted_within_credit (burst : ℕ → ℕ) (ceiling : ℕ) (events : List BucketEvent)
    (s : TokenBucket) (hrun : run (step burst) (.new burst ceiling) events = some s)
    (hsettled : Guarded (step burst) (TokenBucket.Settled burst) (.new burst ceiling)
      events) :
    s.granted + s.available_tokens ≤ burst ceiling + (events.map (credit burst)).sum ∧
      s.available_tokens ≤ s.cap + s.excess := by
  have hkept : s.Kept (burst ceiling + (events.map (credit burst)).sum) := by
    refine run_invariant_past (fun past s => s.Kept
      (burst ceiling + (past.map (credit burst)).sum)) ?_ ?_ hsettled hrun
    · intro past s event s' h hsettled hstep
      rw [List.map_append, List.sum_append, ← Nat.add_assoc]
      simpa using h.step hsettled hstep
    · exact ⟨(Nat.zero_add _).le, Nat.le_add_right _ _, nofun⟩
  exact ⟨hkept.conserved, hkept.bounded⟩

/-- A request that needs more than the burst capacity waits, and a tick adds to a full bucket. -/
theorem tokens_above_burst :
    ∃ s, run (Scheduler.step fun ceiling => ceiling) (.new (fun ceiling => ceiling) 100)
        [.recv 100 .Default 1000, .tick 100] = some s ∧ s.available_tokens = 200 :=
  ⟨_, rfl, by decide +kernel⟩

theorem granted_within_credit_twice :
    ∃ s, run (step fun ceiling => ceiling) (.new (fun ceiling => ceiling) 100)
        [.refill 100 true, .serve 50, .clamp_load, .clamp_store 100] = some s ∧
      s.available_tokens = 100 ∧ s.granted + s.available_tokens ≤ 200 := by
  refine ⟨_, rfl, by decide, ?_⟩
  refine (granted_within_credit (fun ceiling => ceiling) 100 [.refill 100 true, .serve 50,
    .clamp_load, .clamp_store 100] _ rfl ⟨trivial, ?_⟩).1
  rintro _ ⟨⟩
  refine ⟨trivial, ?_⟩
  rintro _ ⟨⟩
  refine ⟨trivial, ?_⟩
  rintro _ ⟨⟩
  exact ⟨fun _ _ _ => by decide, fun _ _ => trivial⟩

end HybridCache.Bandwidth
