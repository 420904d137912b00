/-
Lists of rows with a key: a row is looked up by scanning for the first one with its key, replaced
in place, appended, or filtered out.

The last section is the rule for reading a fold over a table at one key: if every step acts on a
reading as a step of its own, so does the whole fold.
-/
import Mathlib.Data.List.Nodup
import Mathlib.Tactic.Common

namespace HybridCache.Lib

open List Option

section Keyed

variable {α κ : Type} [DecidableEq κ] (key : α → κ)

def lookup (rows : List α) (k : κ) : Option α :=
  rows.find? fun row => key row = k

def update_first (k : κ) (f : α → α) : List α → List α
  | [] => []
  | row :: rest => if key row = k then f row :: rest else row :: update_first k f rest

/-- Put a row in the place of the one with its key, or at the end. -/
def insert_row (rows : List α) (row : α) : List α :=
  if (lookup key rows (key row)).isSome then update_first key (key row) (fun _ => row) rows
  else rows ++ [row]

variable {key}

/-! ## Looking up -/

theorem lookup_cons_self (row : α) (rows : List α) :
    lookup key (row :: rows) (key row) = some row := by
  rw [lookup, List.find?_cons_of_pos (by simp)]

variable {rows : List α} {row : α} {k : κ}

theorem lookup_cons_ne (h : key row ≠ k) : lookup key (row :: rows) k = lookup key rows k := by
  rw [lookup, List.find?_cons_of_neg (by simpa using h)]
  rfl

theorem lookup_eq_none : lookup key rows k = none ↔ ∀ row ∈ rows, key row ≠ k := by
  simp [lookup, List.find?_eq_none]

theorem mem_of_lookup (h : lookup key rows k = some row) :
    row ∈ rows :=
  List.mem_of_find?_eq_some h

theorem key_of_lookup (h : lookup key rows k = some row) : key row = k := by
  simpa using List.find?_some h

omit [DecidableEq κ] in
/-- In a table with distinct keys, no later row has the key of the first. -/
theorem nodup_map_key_cons (hnodup : ((row :: rows).map key).Nodup) :
    (∀ row' ∈ rows, key row' ≠ key row) ∧ (rows.map key).Nodup := by
  rw [map_cons, nodup_cons] at hnodup
  exact ⟨fun row' hrow' heq => hnodup.1 (heq ▸ List.mem_map_of_mem hrow'), hnodup.2⟩

/-- Where keys are distinct, every row is found. -/
theorem lookup_of_mem (hnodup : (rows.map key).Nodup) (h : row ∈ rows) :
    lookup key rows (key row) = some row := by
  induction rows with
  | nil => cases h
  | cons head rest ih =>
    obtain ⟨hne, hnodup⟩ := nodup_map_key_cons hnodup
    rcases mem_cons.mp h with rfl | hrest
    · exact lookup_cons_self _ _
    · rw [lookup_cons_ne (hne row hrest).symm]
      exact ih hnodup hrest

theorem lookup_append_singleton :
    lookup key (rows ++ [row]) k =
      (lookup key rows k).or (if key row = k then some row else none) := by
  rw [lookup, List.find?_append, List.find?_singleton]
  simp only [decide_eq_true_eq]
  rfl

theorem lookup_append (rows' : List α) :
    lookup key (rows ++ rows') k = (lookup key rows k).or (lookup key rows' k) := by
  rw [lookup, List.find?_append]
  rfl

/-! ## Changing a row -/

section Update

variable {k : κ} {f : α → α}

section

variable (hf : ∀ row, key row = k → key (f row) = k)

include hf

theorem map_key_update_first (rows : List α) :
    (update_first key k f rows).map key = rows.map key := by
  induction rows with
  | nil => rfl
  | cons row rest ih =>
    unfold update_first
    split
    · rename_i hk
      rw [map_cons, map_cons, hf row hk, hk]
    · rw [map_cons, map_cons, ih]

theorem lookup_update_first_self (rows : List α) :
    lookup key (update_first key k f rows) k = (lookup key rows k).map f := by
  induction rows with
  | nil => rfl
  | cons row rest ih =>
    unfold update_first
    by_cases hk : key row = k
    · have hfk := hf row hk
      simp [lookup, hk, hfk]
    · rw [if_neg hk, lookup_cons_ne hk, lookup_cons_ne hk, ih]

theorem lookup_update_first_ne {k' : κ} (h : k' ≠ k) (rows : List α) :
    lookup key (update_first key k f rows) k' = lookup key rows k' := by
  induction rows with
  | nil => rfl
  | cons row rest ih =>
    unfold update_first
    by_cases hk : key row = k
    · have hfk := hf row hk
      rw [if_pos hk, lookup_cons_ne (by rw [hfk]; exact h.symm),
        lookup_cons_ne (by rw [hk]; exact h.symm)]
    · rw [if_neg hk]
      by_cases hk' : key row = k'
      · rw [← hk', lookup_cons_self, lookup_cons_self]
      · rw [lookup_cons_ne hk', lookup_cons_ne hk', ih]

end

theorem mem_update_first {rows : List α} {row : α} (h : row ∈ update_first key k f rows) :
    row ∈ rows ∨ ∃ row' ∈ rows, key row' = k ∧ row = f row' := by
  induction rows with
  | nil => cases h
  | cons head rest ih =>
    unfold update_first at h
    split at h
    · rename_i hk
      rcases mem_cons.mp h with rfl | h
      · exact .inr ⟨head, mem_cons_self, hk, rfl⟩
      · exact .inl (mem_cons_of_mem _ h)
    · rcases mem_cons.mp h with rfl | h
      · exact .inl mem_cons_self
      · rcases ih h with h | ⟨row', hrow', hk, rfl⟩
        · exact .inl (mem_cons_of_mem _ h)
        · exact .inr ⟨row', mem_cons_of_mem _ hrow', hk, rfl⟩

end Update

variable {rows : List α}

/-! ## Inserting -/

theorem mem_insert_row {row row' : α} (h : row' ∈ insert_row key rows row) :
    row' = row ∨ row' ∈ rows := by
  unfold insert_row at h
  split at h
  · rcases mem_update_first h with h | ⟨_, -, -, rfl⟩
    · exact .inr h
    · exact .inl rfl
  · rcases mem_append.mp h with h | h
    · exact .inr h
    · exact .inl (mem_singleton.mp h)

variable {row : α} {k : κ}

theorem lookup_insert_row_ne (h : key row ≠ k) :
    lookup key (insert_row key rows row) k = lookup key rows k := by
  unfold insert_row
  split
  · exact lookup_update_first_ne (fun _ _ => rfl) (Ne.symm h) rows
  · rw [lookup_append_singleton, if_neg h, or_none]

theorem lookup_insert_row_self : lookup key (insert_row key rows row) (key row) = some row := by
  unfold insert_row
  split
  · rename_i hsome
    obtain ⟨_, hfound⟩ := isSome_iff_exists.mp hsome
    rw [lookup_update_first_self (fun _ _ => rfl), hfound, map_some]
  · rename_i hnone
    rw [lookup_append_singleton, not_isSome_iff_eq_none.mp hnone, if_pos rfl, none_or]

theorem insert_row_of_new (h : ∀ row' ∈ rows, key row' ≠ key row) :
    insert_row key rows row = rows ++ [row] := by
  unfold insert_row
  rw [lookup_eq_none.mpr h]
  rfl

theorem update_first_of_lookup (h : lookup key rows (key row) = some row) :
    update_first key (key row) (fun _ => row) rows = rows := by
  induction rows with
  | nil => rfl
  | cons head rest ih =>
    unfold update_first
    by_cases hk : key head = key row
    · rw [← hk, lookup_cons_self] at h
      rw [if_pos hk, Option.some.inj h]
    · rw [lookup_cons_ne hk] at h
      rw [if_neg hk, ih h]

theorem insert_row_of_lookup (h : lookup key rows (key row) = some row) :
    insert_row key rows row = rows := by
  unfold insert_row
  rw [if_pos (by rw [h]; rfl), update_first_of_lookup h]

theorem lookup_foldl_insert_row_ne (h : ∀ row ∈ rows, key row ≠ k) (base : List α) :
    lookup key (rows.foldl (insert_row key) base) k = lookup key base k := by
  induction rows generalizing base with
  | nil => rfl
  | cons row rest ih =>
    rw [foldl_cons, ih fun row hrow => h row (mem_cons_of_mem _ hrow),
      lookup_insert_row_ne (h row mem_cons_self)]

/-- Rows that are inserted stand before those that were there. -/
theorem lookup_foldl_insert_row (hnodup : (rows.map key).Nodup) (base : List α) (k : κ) :
    lookup key (rows.foldl (insert_row key) base) k =
      (lookup key rows k).or (lookup key base k) := by
  induction rows generalizing base with
  | nil => rfl
  | cons row rest ih =>
    obtain ⟨hne, hnodup⟩ := nodup_map_key_cons hnodup
    rw [foldl_cons]
    by_cases hk : key row = k
    · subst hk
      rw [lookup_foldl_insert_row_ne hne, lookup_insert_row_self, lookup_cons_self, some_or]
    · rw [ih hnodup, lookup_insert_row_ne hk, lookup_cons_ne hk]

/-! ## Filtering, and tables with distinct keys -/

theorem lookup_filter_of_key {p : α → Bool} (h : ∀ row ∈ rows, key row = k → p row = true) :
    lookup key (rows.filter p) k = lookup key rows k := by
  induction rows with
  | nil => rfl
  | cons row rest ih =>
    have ih := ih fun row hrow => h row (mem_cons_of_mem _ hrow)
    by_cases hk : key row = k
    · subst hk
      rw [filter_cons_of_pos (h row mem_cons_self rfl), lookup_cons_self, lookup_cons_self]
    · rw [lookup_cons_ne hk, ← ih, filter_cons]
      split
      · exact lookup_cons_ne hk
      · rfl

theorem lookup_filter (hnodup : (rows.map key).Nodup) (p : α → Bool) (k : κ) :
    lookup key (rows.filter p) k = (lookup key rows k).filter p := by
  induction rows with
  | nil => rfl
  | cons row rest ih =>
    obtain ⟨hne, hnodup⟩ := nodup_map_key_cons hnodup
    by_cases hk : key row = k
    · subst hk
      rw [lookup_cons_self]
      by_cases hp : p row = true
      · rw [filter_cons_of_pos hp, lookup_cons_self]
        simp [Option.filter, hp]
      · have hnone : lookup key (rest.filter p) (key row) = none :=
          lookup_eq_none.mpr fun row' hrow' => hne row' (mem_of_mem_filter hrow')
        rw [filter_cons_of_neg hp, hnone]
        simp [Option.filter, hp]
    · rw [lookup_cons_ne hk]
      by_cases hp : p row = true
      · rw [filter_cons_of_pos hp, lookup_cons_ne hk, ih hnodup]
      · rw [filter_cons_of_neg hp, ih hnodup]

/-- A fold that only minds one key is one step, with its row. -/
theorem foldl_eq_lookup {β : Type} {step : β → α → β} (hnodup : (rows.map key).Nodup)
    (hne : ∀ s row, key row ≠ k → step s row = s) (s : β) :
    rows.foldl step s = (lookup key rows k).elim s (step s) := by
  have hskip : ∀ rows : List α, (∀ row ∈ rows, key row ≠ k) → ∀ s, rows.foldl step s = s := by
    intro rows h s
    induction rows with
    | nil => rfl
    | cons row rest ih =>
      rw [foldl_cons, hne s row (h row mem_cons_self)]
      exact ih fun row hrow => h row (mem_cons_of_mem _ hrow)
  induction rows with
  | nil => rfl
  | cons row rest ih =>
    obtain ⟨hlater, hnodup⟩ := nodup_map_key_cons hnodup
    rw [foldl_cons]
    by_cases hk : key row = k
    · subst hk
      rw [lookup_cons_self, elim_some]
      exact hskip rest hlater _
    · rw [hne s row hk, lookup_cons_ne hk, ih hnodup]

omit [DecidableEq κ] in
theorem nodup_map_key_filter (hnodup : (rows.map key).Nodup) (p : α → Bool) :
    ((rows.filter p).map key).Nodup :=
  (filter_sublist.map _).nodup hnodup

omit [DecidableEq κ] in
theorem nodup_map_key_append_singleton (hnodup : (rows.map key).Nodup)
    (h : ∀ row' ∈ rows, key row' ≠ key row) : ((rows ++ [row]).map key).Nodup := by
  rw [map_append, map_singleton, nodup_append]
  refine ⟨hnodup, nodup_singleton _, ?_⟩
  intro k hk k' hk'
  obtain ⟨row', hrow', rfl⟩ := List.mem_map.mp hk
  rw [mem_singleton.mp hk']
  exact h row' hrow'

theorem nodup_map_key_insert_row (hnodup : (rows.map key).Nodup) (row : α) :
    ((insert_row key rows row).map key).Nodup := by
  unfold insert_row
  split
  · rw [map_key_update_first fun _ _ => rfl]
    exact hnodup
  · rename_i hnone
    exact nodup_map_key_append_singleton hnodup
      (lookup_eq_none.mp (not_isSome_iff_eq_none.mp hnone))

end Keyed

/-! ## Reading a fold -/

section Reading

variable {σ β ε : Type}

/-- **Reading a fold.** If each step keeps an invariant and is seen by a reading of the state as
a step of its own, the fold is seen as the fold of those steps. -/
theorem read_foldl (Inv : σ → Prop) (read : σ → β) (step : σ → ε → σ) (step' : β → ε → β)
    (entries : List ε) (s : σ) (hs : Inv s) (hinv : ∀ s, ∀ e ∈ entries, Inv s → Inv (step s e))
    (hread : ∀ s, ∀ e ∈ entries, Inv s → read (step s e) = step' (read s) e) :
    Inv (entries.foldl step s) ∧ read (entries.foldl step s) = entries.foldl step' (read s) := by
  induction entries generalizing s with
  | nil => exact ⟨hs, rfl⟩
  | cons e rest ih =>
    rw [foldl_cons, foldl_cons, ← hread s e mem_cons_self hs]
    apply ih
    · exact hinv s e mem_cons_self hs
    · intro s' e' he'
      exact hinv s' e' (mem_cons_of_mem _ he')
    · intro s' e' he'
      exact hread s' e' (mem_cons_of_mem _ he')

end Reading

end HybridCache.Lib
