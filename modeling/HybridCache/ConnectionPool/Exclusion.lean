/-
Addresses that are excluded after failures (`IpHealthTracker` and `ConnectionPoolManager` in
`connection_pool.rs`, used in `s3_client.rs` and `https_connector.rs`).

Health belongs to an address, the set that requests are distributed over to an endpoint, and
endpoints may share addresses. A failure, with the removal that it spawns, is one step, and so is
a probe.
-/
import HybridCache.ConnectionPool.Endpoints
import HybridCache.Lib.Directory
import HybridCache.Lib.Transition

namespace HybridCache.ConnectionPool

open Lib List Option Function

structure PoolConfig where
  threshold : ℕ
  max_registered_endpoints : ℕ
  /-- The endpoints that an override covers. -/
  overridden : String → Bool

/-- An endpoint without a distributor has no addresses. -/
structure Pool where
  ip_distributors : String → List IpAddr
  resolved_ips : Directory String (List IpAddr)
  failures : IpAddr → ℕ
  unhealthy : IpAddr → Bool

/-- A request for a host fails; a probe of an address ends, with the endpoint that was found for
it; DNS answers for an endpoint that is refreshed, or registered. -/
inductive PoolEvent where
  | failure (host : String) (ip : IpAddr)
  | probe (ip : IpAddr) (endpoint : Option String) (answers : Bool)
  | refresh (endpoint : String) (new_ip_addresses : List IpAddr)
  | register (endpoint : String) (new_ip_addresses : List IpAddr)

namespace Pool

def forget (pool : Pool) (ip : IpAddr) : Pool :=
  { pool with failures := update pool.failures ip 0, unhealthy := update pool.unhealthy ip false }

def update_ips (pool : Pool) (endpoint : String) (ips : List IpAddr) : Pool :=
  { pool with ip_distributors := update pool.ip_distributors endpoint ips }

def resolved (pool : Pool) (ip : IpAddr) : Bool :=
  pool.resolved_ips.entries.any (ip ∈ ·.2)

variable (config : PoolConfig)

def skips (pool : Pool) (endpoint : String) : Bool :=
  (pool.resolved_ips.get? endpoint).isSome || config.overridden endpoint ||
    decide (config.max_registered_endpoints ≤ pool.resolved_ips.entries.length)

def step (pool : Pool) : PoolEvent → Pool
  | .failure host ip =>
    let count := pool.failures ip + 1
    let pool := { pool with failures := update pool.failures ip count }
    if config.threshold ≤ count then
      { pool.update_ips host ((pool.ip_distributors host).erase ip) with
        unhealthy := update pool.unhealthy ip true }
    else pool
  | .probe ip none _ => pool.forget ip
  | .probe _ (some _) false => pool
  | .probe ip (some endpoint) true =>
    let ips := pool.ip_distributors endpoint
    (pool.forget ip).update_ips endpoint (if ip ∈ ips then ips else ips ++ [ip])
  | .refresh endpoint new_ip_addresses =>
    if (pool.resolved_ips.get? endpoint).isSome then
      let pool := { pool with resolved_ips := pool.resolved_ips.put endpoint new_ip_addresses }
      -- an unhealthy address that no endpoint resolves to any more is forgotten
      let kept ip := pool.unhealthy ip && pool.resolved ip
      { pool.update_ips endpoint (new_ip_addresses.filter fun ip => !kept ip) with
        failures := fun ip => if pool.unhealthy ip && !pool.resolved ip then 0 else pool.failures ip
        unhealthy := kept }
    else pool
  | .register endpoint new_ip_addresses =>
    if pool.skips config endpoint then pool
    else { pool.update_ips endpoint new_ip_addresses with
      resolved_ips := pool.resolved_ips.put endpoint new_ip_addresses }

/-- No endpoint distributes requests over an unhealthy address. -/
def Withheld (pool : Pool) : Prop :=
  ∀ ip, pool.unhealthy ip → ∀ endpoint, ip ∉ pool.ip_distributors endpoint

/-- An address is excluded where it stands once and no other endpoint has it, and an endpoint is
registered with healthy addresses. -/
def Separate (pool : Pool) : PoolEvent → Prop
  | .failure host ip => config.threshold ≤ pool.failures ip + 1 →
    ∀ endpoint, (pool.ip_distributors endpoint).count ip ≤ if endpoint = host then 1 else 0
  | .register endpoint new_ip_addresses =>
    ¬ pool.skips config endpoint → ∀ ip ∈ new_ip_addresses, ¬ pool.unhealthy ip
  | _ => True

variable {pool pool' : Pool}

/-- When the set of one endpoint changes, and no more addresses are unhealthy, only that set
matters. -/
theorem Withheld.update_iff (hpool : pool.Withheld) {endpoint : String} {ips : List IpAddr}
    (hips : pool'.ip_distributors = update pool.ip_distributors endpoint ips)
    (hmark : ∀ ip, pool'.unhealthy ip → pool.unhealthy ip) :
    pool'.Withheld ↔ ∀ ip ∈ ips, ¬ pool'.unhealthy ip := by
  constructor
  · intro h ip hmem hip
    apply h ip hip endpoint
    rwa [hips, update_self]
  · intro h ip hip endpoint' hmem
    rw [hips, update_apply] at hmem
    split at hmem
    · exact h ip hmem hip
    · exact hpool ip (hmark ip hip) endpoint' hmem

theorem Withheld.exclude_iff (hpool : pool.Withheld) {host : String} {ip : IpAddr}
    (hips : pool'.ip_distributors =
      update pool.ip_distributors host ((pool.ip_distributors host).erase ip))
    (hmark : pool'.unhealthy = update pool.unhealthy ip true) :
    pool'.Withheld ↔
      ∀ endpoint, (pool.ip_distributors endpoint).count ip ≤ if endpoint = host then 1 else 0 := by
  have hcount : ∀ endpoint, ip ∉ pool'.ip_distributors endpoint ↔
      (pool.ip_distributors endpoint).count ip ≤ if endpoint = host then 1 else 0 := by
    intro endpoint
    rw [hips, ← count_eq_zero]
    by_cases heq : endpoint = host <;> simp [heq, Nat.sub_eq_zero_iff_le]
  simp only [← hcount]
  constructor
  · intro h
    exact h ip (by rw [hmark, update_self])
  · intro h x hx endpoint hmem
    by_cases heq : x = ip
    · exact h endpoint (heq ▸ hmem)
    · rw [hmark, update_of_ne heq] at hx
      apply hpool x hx endpoint
      rw [hips, update_apply] at hmem
      split at hmem
      · exact ‹endpoint = host› ▸ mem_of_mem_erase hmem
      · exact hmem

theorem Withheld.step_iff (hpool : pool.Withheld) (event : PoolEvent) :
    (step config pool event).Withheld ↔ Separate config pool event := by
  cases event with
  | failure host ip =>
    rw [step, Separate]
    split
    · rename_i hle
      exact Iff.trans (hpool.exclude_iff rfl rfl) ⟨fun h _ => h, fun h => h hle⟩
    · exact iff_of_true hpool fun hle => absurd hle ‹_›
  | probe ip endpoint answers =>
    refine iff_of_true ?_ trivial
    have hmark : ∀ x, (pool.forget ip).unhealthy x → x ≠ ip ∧ pool.unhealthy x := by
      intro x hx
      by_cases heq : x = ip <;> simp_all [forget]
    match endpoint, answers with
    | none, _ => exact fun x hx => hpool x (hmark x hx).2
    | some _, false => exact hpool
    | some endpoint, true =>
      refine Iff.mpr (hpool.update_iff rfl fun x hx => (hmark x hx).2) ?_
      intro x hmem hx
      obtain ⟨hne, hold⟩ := hmark x hx
      apply hpool x hold endpoint
      split at hmem
      · exact hmem
      · exact (mem_append.mp hmem).resolve_right fun h => hne (mem_singleton.mp h)
  | refresh endpoint new_ip_addresses =>
    refine iff_of_true ?_ trivial
    rw [step]
    split
    · refine Iff.mpr (hpool.update_iff rfl fun x hx => (Bool.and_eq_true_iff.mp hx).1) ?_
      intro x hmem hx
      have hnot := (Bool.not_eq_true' _).mp (mem_filter.mp hmem).2
      exact Bool.false_ne_true (hnot.symm.trans hx)
    · exact hpool
  | register endpoint new_ip_addresses =>
    rw [step, Separate]
    split
    · exact iff_of_true hpool fun h => absurd ‹_› h
    · rename_i hskips
      exact Iff.trans (hpool.update_iff rfl fun _ => id) ⟨fun h _ => h, fun h => h hskips⟩

/-- The pool at the start, with the sets that exact overrides give. -/
def init (seeded : String → List IpAddr) : Pool :=
  ⟨seeded, .empty, fun _ => 0, fun _ => false⟩

/-- **Exclusion.** All along a history no endpoint distributes requests over an unhealthy address,
if and only if every step is separate. -/
theorem withheld_iff_separate (seeded : String → List IpAddr) (events : List PoolEvent) :
    (∀ n, ((events.take n).foldl (step config) (init seeded)).Withheld) ↔
      Guarded (fun pool event => some (step config pool event)) (Separate config) (init seeded)
        events := by
  have hstep : ∀ s l s', s.Withheld → some (step config s l) = some s' →
      (s'.Withheld ↔ Separate config s l) := by
    rintro s l _ hs ⟨⟩
    exact hs.step_iff config l
  have h := run_forall_iff_guarded Withheld Withheld (fun _ => id)
    (fun s l s' hs hl hs' => (hstep s l s' hs hs').mpr hl)
    (fun s l s' hs hs' => (hstep s l s' hs hs').mp) (show (init seeded).Withheld from nofun)
    (run_some _ _ events)
  simpa only [run_some, some.injEq, forall_eq'] using h

/-- Two endpoints have one address: excluded for the first, it is distributed by the second,
which is registered then. -/
theorem registered_with_excluded :
    let shared : IpAddr := .V4 1
    let pool := [.register "s3.amazonaws.com" [shared], .failure "s3.amazonaws.com" shared,
      .failure "s3.amazonaws.com" shared, .failure "s3.amazonaws.com" shared,
      .register "s3.us-east-1.amazonaws.com" [shared]].foldl
        (step ⟨3, 10000, fun _ => false⟩) (init fun _ => [])
    pool.unhealthy shared = true ∧ pool.ip_distributors "s3.amazonaws.com" = [] ∧
      pool.ip_distributors "s3.us-east-1.amazonaws.com" = [shared] := by
  decide +kernel

end Pool

end HybridCache.ConnectionPool
