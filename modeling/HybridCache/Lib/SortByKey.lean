/-
A stable sort by a key, modelled by insertion sort, which can be evaluated. Stability is what
`pairwise_sort_by_key` states: a relation between every earlier and every later element of the
input holds, among elements of equal key, in the output.
-/
import Mathlib.Data.List.Sort
import Mathlib.Order.Defs.LinearOrder

namespace HybridCache.Lib

open List

variable {α κ : Type} [LinearOrder κ]

def sort_by_key (key : α → κ) (l : List α) : List α :=
  l.insertionSort (fun a b => key a ≤ key b)

variable {key : α → κ} {l : List α} {a : α} {R : α → α → Prop}

@[simp] theorem mem_sort_by_key : a ∈ sort_by_key key l ↔ a ∈ l := mem_insertionSort _

theorem sort_by_key_perm (key : α → κ) (l : List α) : (sort_by_key key l).Perm l :=
  perm_insertionSort _ l

@[simp] theorem length_sort_by_key : (sort_by_key key l).length = l.length :=
  length_insertionSort _ l

@[simp] theorem sort_by_key_eq_nil : sort_by_key key l = [] ↔ l = [] := by
  rw [← length_eq_zero_iff, length_sort_by_key, length_eq_zero_iff]

/-! ## Stability -/

/-- Before, by key, and among equal keys by the relation `R`. -/
def KeyThen (key : α → κ) (R : α → α → Prop) (a b : α) : Prop :=
  key a < key b ∨ (key a = key b ∧ R a b)

theorem pairwise_orderedInsert (hl : l.Pairwise (KeyThen key R)) (ha : ∀ b ∈ l, R a b) :
    (l.orderedInsert (fun a b => key a ≤ key b) a).Pairwise (KeyThen key R) := by
  induction l with
  | nil => exact pairwise_singleton _ _
  | cons b rest ih =>
    obtain ⟨hb, hrest⟩ := pairwise_cons.mp hl
    rw [orderedInsert_cons]
    split
    case isTrue hle =>
      refine pairwise_cons.mpr ⟨fun c hc => ?_, hl⟩
      have hbc : key b ≤ key c := by
        rcases mem_cons.mp hc with rfl | hc
        · exact le_rfl
        · rcases hb c hc with hlt | ⟨heq, -⟩
          · exact hlt.le
          · exact heq.le
      rcases (hle.trans hbc).lt_or_eq with hlt | heq
      · exact Or.inl hlt
      · exact Or.inr ⟨heq, ha c hc⟩
    case isFalse hgt =>
      refine pairwise_cons.mpr ⟨fun c hc => ?_, ih hrest fun c hc => ha c (mem_cons_of_mem _ hc)⟩
      rcases (mem_orderedInsert _).mp hc with rfl | hc
      · exact Or.inl (lt_of_not_ge hgt)
      · exact hb c hc

/-- **The sort is stable.** -/
theorem pairwise_sort_by_key (hl : l.Pairwise R) :
    (sort_by_key key l).Pairwise (KeyThen key R) := by
  induction l with
  | nil => exact List.Pairwise.nil
  | cons a rest ih =>
    obtain ⟨ha, hrest⟩ := pairwise_cons.mp hl
    exact pairwise_orderedInsert (ih hrest) fun b hb => ha b (mem_sort_by_key.mp hb)

theorem sort_by_key_ascending (key : α → κ) (l : List α) :
    (sort_by_key key l).Pairwise fun a b => key a ≤ key b := by
  have htriv : l.Pairwise fun _ _ => True := pairwise_of_forall fun _ _ => trivial
  refine (pairwise_sort_by_key htriv).imp fun {a b} h => ?_
  rcases h with hlt | ⟨heq, -⟩
  · exact hlt.le
  · exact heq.le

theorem map_sort_by_key {β : Type} {key' : β → κ} {f : α → β} (hf : ∀ a, key' (f a) = key a)
    (l : List α) :
    (sort_by_key key l).map f = sort_by_key key' (l.map f) :=
  map_insertionSort _ _ f l fun a _ b _ => by rw [hf, hf]

/-- **What follows what in the sorted list, read off the input.** Every element of
the sorted list that satisfies `P` has a later one related to it by `Q` exactly
when the same holds of the positions of the input, "later" being by key and then
by position. The proof sorts the list with its positions attached. -/
theorem sort_by_key_followed_iff {P : α → Prop} {Q : α → α → Prop} :
    (∀ l₁ a l₂, sort_by_key key l = l₁ ++ a :: l₂ → P a → ∃ b ∈ l₂, Q a b) ↔
      ∀ (i : ℕ) (a : α), l[i]? = some a → P a →
        ∃ (j : ℕ) (b : α), l[j]? = some b ∧ (key a < key b ∨ (key a = key b ∧ i < j)) ∧ Q a b := by
  set tagged := sort_by_key (fun p : α × ℕ => key p.1) l.zipIdx with htagged
  have hmem : ∀ a i, (a, i) ∈ tagged ↔ l[i]? = some a := fun a i => by
    rw [htagged, mem_sort_by_key, mem_zipIdx_iff_getElem?]
  have hfst : tagged.map Prod.fst = sort_by_key key l := by
    rw [htagged, map_sort_by_key fun _ => rfl, zipIdx_map_fst]
  have hpair : tagged.Pairwise (KeyThen (fun p => key p.1) fun p q => p.2 < q.2) := by
    refine pairwise_sort_by_key (pairwise_map.mp ?_)
    rw [zipIdx_map_snd]
    exact pairwise_lt_range'
  constructor
  · intro h i a hi hP
    obtain ⟨s₁, s₂, hs⟩ := append_of_mem ((hmem a i).mpr hi)
    rw [hs, map_append, map_cons] at hfst
    obtain ⟨b, hb, hQ⟩ := h _ _ _ hfst.symm hP
    obtain ⟨⟨b, j⟩, hj, rfl⟩ := List.mem_map.mp hb
    have hin : (b, j) ∈ tagged := by
      rw [hs]
      exact mem_append_right _ (mem_cons_of_mem _ hj)
    rw [hs] at hpair
    have hafter := (pairwise_cons.mp (pairwise_append.mp hpair).2.1).1 _ hj
    exact ⟨j, b, (hmem b j).mp hin, hafter, hQ⟩
  · intro h l₁ a l₂ hl hP
    rw [hl, map_eq_append_iff] at hfst
    obtain ⟨s₁, s', hs, rfl, hs'⟩ := hfst
    obtain ⟨⟨a, i⟩, s₂, rfl, rfl, rfl⟩ := map_eq_cons_iff.mp hs'
    have hin : (a, i) ∈ tagged := by
      rw [hs]
      exact mem_append_right _ mem_cons_self
    obtain ⟨j, b, hj, hafter, hQ⟩ := h i a ((hmem a i).mp hin) hP
    refine ⟨b, List.mem_map.mpr ⟨(b, j), ?_, rfl⟩, hQ⟩
    have hjin : (b, j) ∈ s₁ ++ (a, i) :: s₂ := hs ▸ (hmem b j).mpr hj
    rw [hs, pairwise_append] at hpair
    -- neither `i` itself nor anything the sort puts before it comes after `i`
    rcases mem_append.mp hjin with hj | hj
    · exfalso
      rcases hpair.2.2 _ hj _ mem_cons_self with hlt | ⟨heq, hlt⟩
      · rcases hafter with hlt' | ⟨heq', -⟩
        · exact lt_asymm hlt hlt'
        · exact hlt.ne heq'.symm
      · rcases hafter with hlt' | ⟨-, hlt'⟩
        · exact hlt'.ne heq.symm
        · exact lt_asymm hlt hlt'
    · rcases mem_cons.mp hj with heq | hj
      · cases heq
        rcases hafter with hlt | ⟨-, hlt⟩ <;> exact absurd hlt (lt_irrefl _)
      · exact hj

end HybridCache.Lib
