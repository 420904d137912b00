/-
A ledger: the amounts posted to a family of accounts, in any order.

The balance of an account is the sum of what was posted to it. If all accounts
but finitely many are balanced, the sum of everything posted is the sum of the
balances of those, so facts about single accounts give the total.
-/
import Mathlib

namespace HybridCache.Lib

abbrev Ledger (α : Type) := List (α × ℤ)

namespace Ledger

variable {α : Type}

def posted (l : Ledger α) : ℤ :=
  (l.map Prod.snd).sum

@[simp] theorem posted_nil : posted ([] : Ledger α) = 0 := rfl

variable {a : α} {l : Ledger α} {n : ℤ}

@[simp] theorem posted_cons : posted ((a, n) :: l) = n + posted l := by
  simp [posted]

variable [DecidableEq α]

def balance (l : Ledger α) (a : α) : ℤ :=
  ((l.filter fun p => p.1 = a).map Prod.snd).sum

@[simp] theorem balance_nil : balance ([] : Ledger α) a = 0 := rfl

@[simp] theorem balance_cons (b : α) :
    balance ((a, n) :: l) b = (if a = b then n else 0) + balance l b := by
  by_cases h : a = b <;> simp [balance, h]

theorem sum_balance_of_subset (accounts : Finset α) (h : ∀ p ∈ l, p.1 ∈ accounts) :
    ∑ a ∈ accounts, balance l a = posted l := by
  induction l with
  | nil => simp
  | cons p rest ih =>
    obtain ⟨b, n⟩ := p
    have hmem : b ∈ accounts := h (b, n) List.mem_cons_self
    have hrest := ih fun p hp => h p (List.mem_cons_of_mem _ hp)
    simp only [balance_cons, posted_cons, Finset.sum_add_distrib, hrest]
    rw [Finset.sum_ite_eq, if_pos hmem]

/-- **Accounts and total.** If every account outside a list without repetitions is balanced,
the balances of the list add up to everything posted. -/
theorem posted_eq_sum_balance {accounts : List α} (hnodup : accounts.Nodup)
    (hzero : ∀ a, a ∉ accounts → balance l a = 0) : posted l = (accounts.map (balance l)).sum := by
  have hall := sum_balance_of_subset (accounts.toFinset ∪ (l.map Prod.fst).toFinset) fun p hp => by
    simp only [Finset.mem_union, List.mem_toFinset]
    exact .inr (List.mem_map_of_mem hp)
  rw [← hall, ← List.sum_toFinset _ hnodup]
  -- the accounts only the ledger names add nothing
  refine (Finset.sum_subset Finset.subset_union_left fun a _ ha => ?_).symm
  exact hzero a fun hmem => ha (List.mem_toFinset.mpr hmem)

end Ledger

end HybridCache.Lib
