/-
Grouping a list by a key.

Groups stand in the order in which their keys first occur, and the members of a
group in the order of the list, as a map of vectors with a separate list of keys
gives them. Grouping rearranges: the groups together hold every element once.
-/
import Mathlib.Data.List.Perm.Basic

namespace HybridCache.Lib

open List

variable {α κ : Type} [DecidableEq κ] (key : α → κ)

def add_to_group (groups : List (κ × List α)) (a : α) : List (κ × List α) :=
  match groups with
  | [] => [(key a, [a])]
  | (k, members) :: rest =>
    if k = key a then (k, members ++ [a]) :: rest else (k, members) :: add_to_group rest a

def group_by (l : List α) : List (κ × List α) :=
  l.foldl (add_to_group key) []

variable {key} {a : α} {groups : List (κ × List α)} {l : List α}

theorem members_add_to_group :
    ((add_to_group key groups a).flatMap Prod.snd).Perm (groups.flatMap Prod.snd ++ [a]) := by
  induction groups with
  | nil => exact List.Perm.refl _
  | cons g rest ih =>
    obtain ⟨k, members⟩ := g
    rw [add_to_group]
    split_ifs
    · simp only [flatMap_cons, append_assoc]
      exact List.Perm.append_left _ perm_append_comm
    · simp only [flatMap_cons, append_assoc]
      exact List.Perm.append_left _ ih

/-- **Grouping only rearranges.** -/
theorem members_group_by : ((group_by key l).flatMap Prod.snd).Perm l := by
  have hfold : ∀ (groups : List (κ × List α)),
      ((l.foldl (add_to_group key) groups).flatMap Prod.snd).Perm
        (groups.flatMap Prod.snd ++ l) := by
    induction l with
    | nil =>
      intro groups
      rw [foldl_nil, append_nil]
    | cons a rest ih =>
      intro groups
      refine (ih _).trans ?_
      refine (members_add_to_group.append_right rest).trans ?_
      rw [append_assoc, singleton_append]
  exact hfold []

theorem key_add_to_group (h : ∀ g ∈ groups, ∀ b ∈ g.2, key b = g.1) :
    ∀ g ∈ add_to_group key groups a, ∀ b ∈ g.2, key b = g.1 := by
  induction groups with
  | nil =>
    intro g hg b hb
    simp only [add_to_group, mem_singleton] at hg
    subst hg
    rw [mem_singleton.mp hb]
  | cons g₀ rest ih =>
    obtain ⟨k, members⟩ := g₀
    intro g hg b hb
    have hrest : ∀ g ∈ rest, ∀ b ∈ g.2, key b = g.1 := fun g hg => h g (mem_cons_of_mem _ hg)
    rw [add_to_group] at hg
    split_ifs at hg with hk
    · rcases mem_cons.mp hg with rfl | hg
      · rcases mem_append.mp hb with hb | hb
        · exact h _ mem_cons_self b hb
        · rw [mem_singleton.mp hb, hk]
      · exact hrest g hg b hb
    · rcases mem_cons.mp hg with rfl | hg
      · exact h _ mem_cons_self b hb
      · exact ih hrest g hg b hb

theorem key_of_mem_group {g : κ × List α} (hg : g ∈ group_by key l) {b : α} (hb : b ∈ g.2) :
    key b = g.1 := by
  have hfold : ∀ (groups : List (κ × List α)), (∀ g ∈ groups, ∀ b ∈ g.2, key b = g.1) →
      ∀ g ∈ l.foldl (add_to_group key) groups, ∀ b ∈ g.2, key b = g.1 := by
    clear hg
    induction l with
    | nil => exact fun groups h => h
    | cons a rest ih => exact fun groups h => ih _ (key_add_to_group h)
  exact hfold [] (by simp) g hg b hb

variable (key) in
theorem kept_groups_perm (l : List α) (keep : κ → Bool) :
    ((group_by key l).flatMap fun g => if keep g.1 then g.2 else []).Perm
      (l.filter fun a => keep (key a)) := by
  have hfilter : (group_by key l).flatMap (fun g => if keep g.1 then g.2 else []) =
      ((group_by key l).flatMap Prod.snd).filter fun a => keep (key a) := by
    rw [filter_flatMap]
    refine flatMap_congr fun g hg => ?_
    cases hkeep : keep g.1 with
    | true =>
      symm
      rw [if_pos rfl, filter_eq_self]
      intro b hb
      rw [key_of_mem_group hg hb, hkeep]
    | false =>
      symm
      rw [if_neg (by simp), filter_eq_nil_iff]
      intro b hb
      rw [key_of_mem_group hg hb, hkeep]
      simp
  rw [hfilter]
  exact members_group_by.filter _

end HybridCache.Lib
