/-
Connections that are pinned to an address (`connection_pool.rs`, `https_connector.rs`).

A request for an endpoint is pinned by writing an address of its distributor into the URI. The
connector has only that address, and looks for the name for TLS among all distributors and then
among the exact overrides, in the order of the maps. Both may have changed since the request was
pinned, and endpoints may share addresses.
-/
import Mathlib.Data.List.Dedup
import Mathlib.Data.List.Perm.Basic
import Mathlib.Data.List.Rotate

namespace HybridCache.ConnectionPool

open List Option

theorem forall_perm_find? {α : Type} {l : List α} {p : α → Bool} {P : Option α → Prop} :
    (∀ l' : List α, l'.Perm l → P (l'.find? p)) ↔
      (∀ a ∈ l, p a = true → P (some a)) ∧ ((∀ a ∈ l, ¬ p a = true) → P none) := by
  constructor
  · intro h
    refine ⟨fun a ha hp => ?_, fun hnone => ?_⟩
    · obtain ⟨before, after, rfl⟩ := append_of_mem ha
      have hfirst := h (a :: (before ++ after)) perm_middle.symm
      rwa [find?_cons_of_pos hp] at hfirst
    · rw [← find?_eq_none.mpr hnone]
      exact h l (.refl _)
  · rintro ⟨hsome, hnone⟩ l' hl
    cases hfind : l'.find? p with
    | some a => exact hsome a (hl.mem_iff.mp (mem_of_find?_eq_some hfind)) (find?_some hfind)
    | none => exact hnone fun a ha => find?_eq_none.mp hfind a (hl.mem_iff.mpr ha)

inductive IpAddr where
  | V4 (octets : BitVec 32)
  | V6 (octets : BitVec 128)
deriving DecidableEq

/-- The maps of the pool, each in the order in which it is iterated: the addresses that the
distributor of an endpoint selects from, and the exact overrides. -/
structure ConnectionPoolManager where
  ip_distributors : List (String × List IpAddr)
  overrides : List (String × List IpAddr)

namespace ConnectionPoolManager

/-- `counter` is what the counter of the distributor was. -/
def get_distributed_ip (pool : ConnectionPoolManager) (counter : ℕ) (endpoint : String) :
    Option IpAddr := do
  let ips ← pool.ip_distributors.lookup endpoint
  ips[counter % ips.length]?

def get_hostname_for_ip (pool : ConnectionPoolManager) (ip : IpAddr) : Option String :=
  ((pool.ip_distributors.find? (ip ∈ ·.2)).or (pool.overrides.find? (ip ∈ ·.2))).map Prod.fst

-- the host of a URI that was rewritten to an address, and whether a name resolves
variable (host : IpAddr → String) (resolves : String → Bool)

/-- The name that a connection to such a URI uses for TLS. -/
def tls_hostname (pool : ConnectionPoolManager) (ip : IpAddr) : Option String :=
  match ip with
  | .V4 _ => some ((pool.get_hostname_for_ip ip).getD (host ip))
  -- the host keeps its brackets, does not parse as an address, and is resolved as a name
  | .V6 _ => if resolves (host ip) then some (host ip) else none

/-- The address stands for no other endpoint. -/
def Identifies (pool : ConnectionPoolManager) (ip : IpAddr) (endpoint : String) : Prop :=
  match ip with
  | .V4 _ =>
    (∀ d ∈ pool.ip_distributors, ip ∈ d.2 → d.1 = endpoint) ∧
      ((∀ d ∈ pool.ip_distributors, ip ∉ d.2) →
        (∀ o ∈ pool.overrides, ip ∈ o.2 → o.1 = endpoint) ∧
          ((∀ o ∈ pool.overrides, ip ∉ o.2) → host ip = endpoint))
  | .V6 _ => resolves (host ip) = true ∧ host ip = endpoint

/-- **The name of a pinned connection.** A request is pinned by one state of the pool, and connects
in a `later` one. In every order in which the maps may be iterated then, the connector uses the
endpoint of the request, if and only if the address identifies it. -/
theorem pinned_name_iff (pool later : ConnectionPoolManager) (endpoint : String) :
    (∀ counter, ∀ ip ∈ pool.get_distributed_ip counter endpoint,
      ∀ distributors : List (String × List IpAddr), distributors.Perm later.ip_distributors →
        ∀ overrides : List (String × List IpAddr), overrides.Perm later.overrides →
          tls_hostname host resolves ⟨distributors, overrides⟩ ip = some endpoint) ↔
      ∀ counter, ∀ ip ∈ pool.get_distributed_ip counter endpoint,
        Identifies host resolves later ip endpoint := by
  refine forall₃_congr fun counter ip _ => ?_
  cases ip with
  | V4 octets =>
    let Names (found : Option (String × List IpAddr)) :=
      (found.map Prod.fst).getD (host (.V4 octets)) = endpoint
    simp only [tls_hostname, get_hostname_for_ip, some.injEq]
    refine (@forall_perm_find? _ _ _ fun found => ∀ overrides : List (String × List IpAddr),
      overrides.Perm later.overrides → Names (found.or (overrides.find? _))).trans ?_
    simp only [decide_eq_true_iff]
    refine and_congr (forall₃_congr fun d _ _ => ?_) (imp_congr_right fun _ => ?_)
    · exact ⟨fun h => h _ (.refl _), fun h _ _ => h⟩
    · refine (@forall_perm_find? _ _ _ Names).trans ?_
      simp only [decide_eq_true_iff]
      rfl
  | V6 octets =>
    simp only [tls_hostname, Identifies, ite_none_right_eq_some, some.injEq]
    exact ⟨fun h => h _ (.refl _) _ (.refl _), fun h _ _ _ _ => h⟩

/-- Two endpoints have an address in common: a request for one is pinned to it, and verified against
the name of the other. -/
theorem shared_address_names_other :
    let pool : ConnectionPoolManager :=
      ⟨[("s3.amazonaws.com", [.V4 1]), ("s3.us-east-1.amazonaws.com", [.V4 1])], []⟩
    pool.get_distributed_ip 0 "s3.us-east-1.amazonaws.com" = some (.V4 1) ∧
      tls_hostname (fun _ => "0.0.0.1") (fun _ => false) pool (.V4 1) =
        some "s3.amazonaws.com" := by
  decide +kernel

/-! ## Several addresses -/

/-- The scan from the position of the counter, round to where it began. -/
def select_ip_excluding (ips : List IpAddr) (counter : ℕ) (exclude : List IpAddr) :
    Option IpAddr :=
  (ips.rotate counter).find? (· ∉ exclude)

def select_more (ips : List IpAddr) (counter : ℕ → ℕ) : ℕ → List IpAddr → List IpAddr
  | 0, result => result
  | n + 1, result =>
    match select_ip_excluding ips (counter n) result with
    | some ip => select_more ips counter n (result ++ [ip])
    | none => result

/-- `counter i` is what the counter was at the pick with `i` more to come: others select in
between. -/
def get_distinct_distributed_ips (pool : ConnectionPoolManager) (counter : ℕ → ℕ) (host : String)
    (n : ℕ) : List IpAddr :=
  match pool.get_distributed_ip (counter (n - 1)) host with
  | none => []
  | some first =>
    select_more ((pool.ip_distributors.lookup host).getD []) counter (n - 1) [first]

/-- Different addresses, as many as there are up to `n`. -/
structure Spread (ips : List IpAddr) (n : ℕ) (picked : List IpAddr) : Prop where
  nodup : picked.Nodup
  subset : picked ⊆ ips
  length : picked.length = min n ips.dedup.length

theorem Spread.select_more {ips picked : List IpAddr} {k : ℕ} (h : Spread ips k picked)
    (counter : ℕ → ℕ) (n : ℕ) :
    Spread ips (n + k) (select_more ips counter n picked) := by
  induction n generalizing k picked with
  | zero =>
    rw [Nat.zero_add]
    exact h
  | succ n ih =>
    rw [ConnectionPoolManager.select_more]
    split
    · rename_i ip hfind
      rw [select_ip_excluding] at hfind
      have hnew := find?_some hfind
      have hmem := mem_rotate.mp (mem_of_find?_eq_some hfind)
      have hnodup : (picked ++ [ip]).Nodup := by
        rw [← concat_eq_append]
        exact Nodup.concat (of_decide_eq_true hnew) h.nodup
      have hsubset : picked ++ [ip] ⊆ ips :=
        append_subset.mpr ⟨h.subset, cons_subset.mpr ⟨hmem, nil_subset _⟩⟩
      have hle := (subperm_of_subset hnodup fun x hx => mem_dedup.mpr (hsubset hx)).length_le
      rw [Nat.add_right_comm, Nat.add_assoc]
      refine ih ⟨hnodup, hsubset, ?_⟩
      rw [length_append, length_singleton, h.length] at hle ⊢
      omega
    · -- every address is picked
      rename_i hfind
      have hall : ips.dedup ⊆ picked := by
        intro ip hip
        have hnot := find?_eq_none.mp hfind ip (mem_rotate.mpr (mem_dedup.mp hip))
        simpa using hnot
      have hle := (subperm_of_subset (nodup_dedup ips) hall).length_le
      refine ⟨h.nodup, h.subset, ?_⟩
      rw [h.length] at hle ⊢
      omega

/-- **The arms of a race go to different addresses of the endpoint, as long as there are any.** -/
theorem distinct_ips_spread (pool : ConnectionPoolManager) (counter : ℕ → ℕ) (host : String)
    (n : ℕ) :
    Spread ((pool.ip_distributors.lookup host).getD []) (max n 1)
      (pool.get_distinct_distributed_ips counter host n) := by
  rw [get_distinct_distributed_ips, get_distributed_ip]
  cases pool.ip_distributors.lookup host with
  | none => exact ⟨nodup_nil, nil_subset _, (Nat.min_zero _).symm⟩
  | some ips =>
    rw [Option.bind_eq_bind, bind_some, getD_some]
    rcases eq_or_ne ips [] with rfl | hne
    · exact ⟨nodup_nil, nil_subset _, (Nat.min_zero _).symm⟩
    · have hlt := Nat.mod_lt (counter (n - 1)) (length_pos_iff.mpr hne)
      have hmem := getElem_mem hlt
      have hpos := length_pos_of_mem (mem_dedup.mpr hmem)
      rw [getElem?_eq_getElem hlt, show max n 1 = n - 1 + 1 by omega]
      refine Spread.select_more ⟨nodup_singleton _, ?_, ?_⟩ counter (n - 1)
      · exact cons_subset.mpr ⟨hmem, nil_subset _⟩
      · rw [length_singleton]
        omega

end ConnectionPoolManager

end HybridCache.ConnectionPool
