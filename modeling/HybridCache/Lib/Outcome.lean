/-
Outcomes of a call, and checked machine arithmetic.

A call returns a value, returns an error value, or panics. Arithmetic on `u64` is on natural
numbers with the bound checked at each operation, as in a build with overflow checks. Proofs peel a
computation apart with `bind_eq_ok` and the two arithmetic inversions.
-/
import Mathlib.Data.List.Forall2
import Mathlib.Data.Nat.Basic
import Mathlib.Tactic.Common

namespace HybridCache.Lib

inductive Outcome (ε α : Type) where
  | ok (a : α)
  | err (e : ε)
  | panic
deriving DecidableEq, Repr

namespace Outcome

variable {ε α β : Type}

/-- Sequencing: the first error or panic is the result of the whole. -/
protected def bind (x : Outcome ε α) (f : α → Outcome ε β) : Outcome ε β :=
  match x with
  | ok a => f a
  | err e => err e
  | panic => panic

instance : Monad (Outcome ε) where
  pure := ok
  bind := Outcome.bind

variable {a : α} {f : α → Outcome ε β} {e : ε} {l : List α}

@[simp] theorem pure_eq : (pure a : Outcome ε α) = ok a := rfl

@[simp] theorem bind_ok : (ok a >>= f) = f a := rfl

@[simp] theorem bind_err : (err e >>= f) = err e := rfl

@[simp] theorem bind_panic : ((panic : Outcome ε α) >>= f) = panic := rfl

variable {f : α → Outcome ε β} {x : Outcome ε α}

/-- **Inversion.** A result of a sequence is a result of both its parts. -/
theorem bind_eq_ok {b : β} : (x >>= f) = ok b ↔ ∃ a, x = ok a ∧ f a = ok b := by
  cases x with
  | ok a | err e | panic => simp

theorem guard_eq_ok {p : Prop} [Decidable p] :
    (if p then err e else x) = ok a ↔ ¬ p ∧ x = ok a := by
  by_cases hp : p <;> simp [hp]

def map_err {ε' : Type} (f : ε → ε') : Outcome ε α → Outcome ε' α
  | ok a => ok a
  | err e => err (f e)
  | panic => panic

@[simp] theorem map_err_eq_ok {ε' : Type} {f : ε → ε'} : x.map_err f = ok a ↔ x = ok a := by
  cases x with
  | ok b | err e | panic => simp [map_err]

/-- A call for each element, in order (`collect` into a result). -/
def traverse (f : α → Outcome ε β) : List α → Outcome ε (List β)
  | [] => ok []
  | a :: rest => do
    let b ← f a
    let bs ← traverse f rest
    pure (b :: bs)

/-- All calls succeed, or the whole does not. -/
theorem traverse_eq_ok {m : List β} :
    traverse f l = ok m ↔ List.Forall₂ (fun a b => f a = ok b) l m := by
  induction l generalizing m with
  | nil =>
    rw [traverse, List.forall₂_nil_left_iff, Outcome.ok.injEq]
    exact eq_comm
  | cons a rest ih =>
    rw [traverse, bind_eq_ok, List.forall₂_cons_left_iff]
    refine exists_congr fun b => ?_
    rw [bind_eq_ok, ← exists_and_left]
    refine exists_congr fun bs => ?_
    rw [ih, pure_eq, Outcome.ok.injEq, @eq_comm _ (b :: bs) m]

theorem bind_eq_panic : (x >>= f) = panic ↔ x = panic ∨ ∃ a, x = ok a ∧ f a = panic := by
  cases x with
  | ok a | err e | panic => simp

theorem traverse_ne_panic (h : ∀ a ∈ l, f a ≠ panic) : traverse f l ≠ panic := by
  induction l with
  | nil => exact nofun
  | cons a rest ih =>
    rw [traverse, Ne, bind_eq_panic, not_or]
    refine ⟨h a List.mem_cons_self, ?_⟩
    rintro ⟨b, -, hrest⟩
    rcases bind_eq_panic.mp hrest with hrest | ⟨bs, -, hpure⟩
    · exact ih (fun c hc => h c (List.mem_cons_of_mem _ hc)) hrest
    · cases hpure

end Outcome

/-! ## Results

Where nothing can panic, an answer is an `Except` of the library. -/

section Results

variable {ε α β : Type} {b : β} {x : Except ε α}

theorem except_bind_eq_ok {f : α → Except ε β} :
    x.bind f = .ok b ↔ ∃ a, x = .ok a ∧ f a = .ok b := by
  cases x with
  | error e | ok a => simp [Except.bind]

theorem except_map_eq_ok {f : α → β} : x.map f = .ok b ↔ ∃ a, x = .ok a ∧ f a = b := by
  cases x with
  | error e | ok a => simp [Except.map]

theorem except_guard_eq_ok {p : Prop} [Decidable p] {e : ε} {a : α} :
    (if p then .error e else x) = .ok a ↔ ¬ p ∧ x = .ok a := by
  by_cases hp : p <;> simp [hp]

end Results

section MapM

open List

variable {α β ε : Type} {g : α → Except ε β} {l : List α}

theorem mapM_eq_ok_iff {r : List β} :
    l.mapM g = .ok r ↔ List.Forall₂ (fun x y => g x = .ok y) l r := by
  induction l generalizing r with
  | nil =>
    rw [forall₂_nil_left_iff]
    exact ⟨fun h => (Except.ok.inj h).symm, fun h => h ▸ rfl⟩
  | cons x l ih =>
    rw [mapM_cons, forall₂_cons_left_iff]
    constructor
    · intro h
      obtain ⟨y, hy, h⟩ := except_bind_eq_ok.mp h
      obtain ⟨ys, hys, h⟩ := except_bind_eq_ok.mp h
      exact ⟨y, ys, hy, ih.mp hys, (Except.ok.inj h).symm⟩
    · rintro ⟨y, ys, hy, hys, rfl⟩
      rw [hy, ih.mpr hys]
      rfl

theorem mapM_eq_ok_map_iff {e : α → β} : l.mapM g = .ok (l.map e) ↔ ∀ x ∈ l, g x = .ok (e x) := by
  rw [mapM_eq_ok_iff, forall₂_map_right_iff, forall₂_same]

theorem mem_of_mapM {r : List β} {x : α} (h : l.mapM g = .ok r) (hx : x ∈ l) :
    ∃ y ∈ r, g x = .ok y := by
  rw [mapM_eq_ok_iff] at h
  induction h with
  | nil => cases hx
  | @cons x' y' l r hhead _ ih =>
    rcases mem_cons.mp hx with rfl | hx
    · exact ⟨y', mem_cons_self, hhead⟩
    · obtain ⟨y, hy, hxy⟩ := ih hx
      exact ⟨y, mem_cons_of_mem y' hy, hxy⟩

/-- A list fails at one of its elements. -/
theorem mapM_eq_error_iff : (∃ e, l.mapM g = .error e) ↔ ∃ x ∈ l, ∃ e, g x = .error e := by
  induction l with
  | nil => simp [pure, Except.pure]
  | cons x l ih =>
    rw [mapM_cons, exists_mem_cons_iff, ← ih]
    cases g x with
    | error e => simp [bind, Except.bind]
    | ok y => cases l.mapM g <;> simp [bind, Except.bind, pure, Except.pure]

end MapM

/-! ## Checked `u64` arithmetic -/

section U64

open Outcome

variable {ε : Type}

def u64_max : ℕ := 18446744073709551615

def u64_add (a b : ℕ) : Outcome ε ℕ :=
  if a + b ≤ u64_max then ok (a + b) else panic

def u64_sub (a b : ℕ) : Outcome ε ℕ :=
  if b ≤ a then ok (a - b) else panic

def u64_saturating_add (a b : ℕ) : ℕ :=
  min (a + b) u64_max

variable {a b c : ℕ}

theorem u64_add_eq_ok : (u64_add a b : Outcome ε ℕ) = ok c ↔ a + b ≤ u64_max ∧ c = a + b := by
  by_cases h : a + b ≤ u64_max <;> simp [u64_add, h, eq_comm]

theorem u64_sub_eq_ok : (u64_sub a b : Outcome ε ℕ) = ok c ↔ b ≤ a ∧ c = a - b := by
  by_cases h : b ≤ a <;> simp [u64_sub, h, eq_comm]

theorem u64_add_of_le (h : a + b ≤ u64_max) : (u64_add a b : Outcome ε ℕ) = ok (a + b) := by
  rw [u64_add_eq_ok]
  exact ⟨h, rfl⟩

theorem u64_sub_of_le (h : b ≤ a) : (u64_sub a b : Outcome ε ℕ) = ok (a - b) := by
  rw [u64_sub_eq_ok]
  exact ⟨h, rfl⟩

/-- `hi - lo + 1`, the number of positions in `lo..=hi`. -/
def inclusive_len (lo hi : ℕ) : Outcome ε ℕ := do
  let d ← u64_sub hi lo
  u64_add d 1

theorem inclusive_len_eq_ok {lo hi n : ℕ} :
    (inclusive_len lo hi : Outcome ε ℕ) = ok n ↔
      lo ≤ hi ∧ hi - lo + 1 ≤ u64_max ∧ n = hi - lo + 1 := by
  unfold inclusive_len
  rw [bind_eq_ok]
  constructor
  · rintro ⟨d, hd, hn⟩
    rw [u64_sub_eq_ok] at hd
    rw [u64_add_eq_ok] at hn
    obtain ⟨hle, rfl⟩ := hd
    exact ⟨hle, hn⟩
  · rintro ⟨hle, hn⟩
    exact ⟨hi - lo, u64_sub_of_le hle, u64_add_eq_ok.mpr hn⟩

end U64

end HybridCache.Lib
