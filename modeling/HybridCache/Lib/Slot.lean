/-
A slot that a sequence of timed writes goes over in order.

An add fills the slot only if it is empty, an update replaces what is there, a remove clears what
was made no later than the remove. So the first add after the last remove wins, overwritten by the
last update that follows. The last section compares this with the law that the newest write wins.

`γ` is what a slot holds, and `stamp` says when it was made.
-/
import Mathlib.Data.List.DropRight
import Mathlib.Tactic.Common

namespace HybridCache.Lib.Slot

open List

inductive Write (γ : Type) where
  | add (c : γ)
  | update (c : γ)
  | remove
deriving DecidableEq

structure Timed (γ : Type) where
  time : ℕ
  write : Write γ
deriving DecidableEq

variable {γ : Type}

def Write.content? : Write γ → Option γ
  | .add c => some c
  | .update c => some c
  | .remove => none

def Write.update? : Write γ → Option γ
  | .update c => some c
  | _ => none

def step (stamp : γ → ℕ) (s : Option γ) (e : Timed γ) : Option γ :=
  match e.write with
  | .add c => s.or (some c)
  | .update c => s.map fun _ => c
  | .remove => s.filter fun c => stamp c > e.time

def publications (es : List (Timed γ)) : List (ℕ × γ) :=
  es.filterMap fun e => e.write.content?.map fun c => (e.time, c)

/-- The second publication if it is newer than the first, else the first. -/
def later (p q : ℕ × γ) : ℕ × γ :=
  if q.1 > p.1 then q else p

def newer (best : Option (ℕ × γ)) (p : ℕ × γ) : Option (ℕ × γ) :=
  some (best.elim p fun b => later b p)

/-- The first of the newest publications. -/
def newest (pubs : List (ℕ × γ)) : Option (ℕ × γ) :=
  pubs.foldl newer none

def updates (es : List (Timed γ)) : List γ :=
  es.filterMap fun e => e.write.update?

def is_remove (e : Timed γ) : Bool :=
  match e.write with
  | .remove => true
  | _ => false

/-- The writes up to the last remove. -/
def until_remove (es : List (Timed γ)) : List (Timed γ) :=
  es.rdropWhile fun e => !is_remove e

/-- The writes after the last remove. -/
def since_remove (es : List (Timed γ)) : List (Timed γ) :=
  es.rtakeWhile fun e => !is_remove e

/-- What an empty slot holds after writes without a remove: the first add, or the last update
after it. -/
def kept : List (Timed γ) → Option γ
  | [] => none
  | e :: rest =>
    match e.write with
    | .add c => some ((updates rest).getLastD c)
    | _ => kept rest

/-- No remove reaches what is in the slot, and no update comes before one. -/
def Held (stamp : γ → ℕ) (s : Option γ) (es : List (Timed γ)) : Prop :=
  ∃ c ∈ s, (∀ e ∈ es, is_remove e = true → e.time < stamp c) ∧ updates (until_remove es) = []

instance [DecidableEq γ] (stamp : γ → ℕ) (s : Option γ) (es : List (Timed γ)) :
    Decidable (Held stamp s es) :=
  match s with
  | none => isFalse (by rintro ⟨c, hc, -⟩; cases hc)
  | some c => decidable_of_iff
      ((∀ e ∈ es, is_remove e = true → e.time < stamp c) ∧ updates (until_remove es) = [])
      (by simp [Held])

/-! ## One write, and writes without a remove -/

section Writes

variable {stamp : γ → ℕ} {s : Option γ} {e : Timed γ} {es : List (Timed γ)}

theorem is_remove_iff : is_remove e = true ↔ e.write = .remove := by
  unfold is_remove
  cases e.write <;> simp

variable {c : γ} {time : ℕ}

theorem update?_eq_some {w : Write γ} : w.update? = some c ↔ w = .update c := by
  cases w <;> simp [Write.update?]

theorem updates_cons_of_ne (h : e.write.update? = none) : updates (e :: es) = updates es := by
  simp [updates, h]

theorem updates_append (es' : List (Timed γ)) : updates (es ++ es') = updates es ++ updates es' :=
  filterMap_append

theorem updates_cons_update (h : e.write = .update c) : updates (e :: es) = c :: updates es := by
  simp [updates, h, Write.update?]

theorem foldl_step_some (h : ∀ e ∈ es, is_remove e = false) (c : γ) :
    es.foldl (step stamp) (some c) = some ((updates es).getLastD c) := by
  induction es generalizing c with
  | nil => rfl
  | cons e rest ih =>
    have hrest : ∀ e ∈ rest, is_remove e = false := fun e he => h e (mem_cons_of_mem _ he)
    rw [foldl_cons]
    cases hw : e.write with
    | add c' =>
      rw [updates_cons_of_ne (by rw [hw]; rfl), ← ih hrest c, step, hw]
      rfl
    | update c' =>
      rw [updates_cons_update hw, getLastD_cons, ← ih hrest c', step, hw]
      rfl
    | remove =>
      have := h e mem_cons_self
      rw [is_remove_iff.mpr hw] at this
      cases this

theorem foldl_step_none (h : ∀ e ∈ es, is_remove e = false) :
    es.foldl (step stamp) none = kept es := by
  induction es with
  | nil => rfl
  | cons e rest ih =>
    have hrest : ∀ e ∈ rest, is_remove e = false := fun e he => h e (mem_cons_of_mem _ he)
    rw [foldl_cons, kept]
    cases hw : e.write with
    | add c =>
      rw [step, hw]
      exact foldl_step_some hrest c
    | update c | remove =>
      rw [step, hw]
      exact ih hrest

theorem foldl_step_unreached (hupdates : updates es = [])
    (h : ∀ e ∈ es, is_remove e = true → e.time < stamp c) :
    es.foldl (step stamp) (some c) = some c := by
  induction es with
  | nil => rfl
  | cons e rest ih =>
    rw [foldl_cons]
    have hhead : step stamp (some c) e = some c := by
      unfold step
      cases hw : e.write with
      | add c' => rfl
      | update c' =>
        rw [updates_cons_update hw] at hupdates
        cases hupdates
      | remove =>
        have := h e mem_cons_self (is_remove_iff.mpr hw)
        simp [Option.filter, this]
    rw [hhead]
    rw [← singleton_append, updates_append, append_eq_nil_iff] at hupdates
    exact ih hupdates.2 fun e he => h e (mem_cons_of_mem _ he)

/-- The slot holds nothing made after `time`. -/
def MadeBy (stamp : γ → ℕ) (time : ℕ) (s : Option γ) : Prop :=
  ∀ c ∈ s, stamp c ≤ time

theorem madeBy_step (hs : MadeBy stamp time s) (he : ∀ c ∈ e.write.content?, stamp c ≤ time) :
    MadeBy stamp time (step stamp s e) := by
  intro c hc
  unfold step at hc
  cases hw : e.write with
  | add c' =>
    rw [hw] at hc he
    cases s with
    | none => exact he c hc
    | some c'' => exact hs c hc
  | update c' =>
    rw [hw] at hc he
    cases s with
    | none => cases hc
    | some c'' => exact he c hc
  | remove =>
    rw [hw] at hc
    exact hs c (Option.eq_some_of_filter_eq_some hc)

theorem madeBy_foldl (hs : MadeBy stamp time s)
    (hes : ∀ e ∈ es, ∀ c ∈ e.write.content?, stamp c ≤ time) :
    MadeBy stamp time (es.foldl (step stamp) s) := by
  induction es generalizing s with
  | nil => exact hs
  | cons e rest ih =>
    apply ih
    · exact madeBy_step hs (hes e mem_cons_self)
    · exact fun e he => hes e (mem_cons_of_mem _ he)

theorem step_remove_of_madeBy (hs : MadeBy stamp e.time s) (he : e.write = .remove) :
    step stamp s e = none := by
  rw [step, he]
  cases s with
  | none => rfl
  | some c =>
    have := hs c rfl
    simp [Option.filter, this]

end Writes

/-! ## A whole sequence -/

/-- Writes in the order of their times, each of something made before it was issued. -/
structure Ordered (stamp : γ → ℕ) (es : List (Timed γ)) : Prop where
  ascending : es.Pairwise fun a b => a.time ≤ b.time
  stamped : ∀ e ∈ es, ∀ c ∈ e.write.content?, stamp c ≤ e.time

section Sequence

variable {stamp : γ → ℕ} {es : List (Timed γ)}

theorem until_remove_append_since_remove (es : List (Timed γ)) :
    until_remove es ++ since_remove es = es :=
  rdropWhile_append_rtakeWhile ..

theorem not_is_remove_since_remove : ∀ e ∈ since_remove es, is_remove e = false := by
  intro e he
  simpa using mem_rtakeWhile_imp he

theorem mem_until_remove {e : Timed γ} (he : e ∈ es) (hr : is_remove e = true) :
    e ∈ until_remove es := by
  rw [← until_remove_append_since_remove es] at he
  refine (mem_append.mp he).resolve_right fun hsince => ?_
  rw [not_is_remove_since_remove e hsince] at hr
  cases hr

theorem until_remove_eq_concat (h : until_remove es ≠ []) :
    ∃ init last, until_remove es = init ++ [last] ∧ last.write = .remove := by
  refine ⟨_, _, (dropLast_append_getLast h).symm, ?_⟩
  have hlast := rdropWhile_last_not _ _ h
  rw [Bool.not_eq_true, Bool.not_eq_false'] at hlast
  exact is_remove_iff.mp hlast

/-- Whatever was in the slot, after the last remove it is empty unless what was there is held. -/
theorem foldl_until_remove (hes : Ordered stamp es) (s : Option γ) (hheld : ¬ Held stamp s es) :
    (until_remove es).foldl (step stamp) s = none := by
  by_cases hnil : until_remove es = []
  · -- no remove at all: then only an empty slot is not held
    rw [hnil]
    cases s with
    | none => rfl
    | some c =>
      refine absurd ⟨c, rfl, fun e he hr => ?_, by rw [hnil]; rfl⟩ hheld
      have hmem := mem_until_remove he hr
      rw [hnil] at hmem
      cases hmem
  · obtain ⟨init, last, hconcat, hlast⟩ := until_remove_eq_concat hnil
    have hes' : init ++ [last] ++ since_remove es = es := by
      rw [← hconcat, until_remove_append_since_remove]
    have hbefore : ∀ e ∈ init, e.time ≤ last.time := by
      intro e he
      have hasc := hes.ascending
      rw [← hes', append_assoc, pairwise_append] at hasc
      exact hasc.2.2 e he last (by simp)
    have hmade : ∀ e ∈ init, ∀ c ∈ e.write.content?, stamp c ≤ last.time := by
      intro e he c hc
      have hmem : e ∈ es := by rw [← hes']; simp [he]
      exact (hes.stamped e hmem c hc).trans (hbefore e he)
    rw [hconcat, foldl_append, foldl_cons, foldl_nil]
    apply step_remove_of_madeBy _ hlast
    cases s with
    | none => exact madeBy_foldl nofun hmade
    | some c =>
      by_cases hc : stamp c ≤ last.time
      · exact madeBy_foldl (fun c' hc' => by cases hc'; exact hc) hmade
      · -- no remove reaches `c`, so an update comes before the last remove and replaces it
        have hupdate : updates init ≠ [] := by
          intro hnone
          refine hheld ⟨c, rfl, fun e he hr => ?_, ?_⟩
          · have hmem := mem_until_remove he hr
            rw [hconcat] at hmem
            rcases mem_append.mp hmem with he | he
            · have := hbefore e he
              omega
            · rw [mem_singleton.mp he]
              omega
          · have hlastnone : updates [last] = [] := updates_cons_of_ne (by rw [hlast]; rfl)
            rw [hconcat, updates_append, hnone, hlastnone, append_nil]
        obtain ⟨u, hu⟩ := exists_mem_of_ne_nil _ hupdate
        obtain ⟨e, he, hue⟩ := mem_filterMap.mp hu
        obtain ⟨front, back, rfl⟩ := append_of_mem he
        have hwrite := update?_eq_some.mp hue
        rw [foldl_append, foldl_cons]
        apply madeBy_foldl
        · intro c' hc'
          rw [step, hwrite] at hc'
          obtain ⟨_, -, rfl⟩ := Option.map_eq_some_iff.mp hc'
          exact hmade e he u (by rw [hwrite]; rfl)
        · exact fun e' he' => hmade e' (mem_append_right _ (mem_cons_of_mem _ he'))

/-- **The slot after a sequence.** What is held stays, under the last update after the last
remove; otherwise the slot holds what the writes after the last remove put in an empty one. -/
theorem foldl_step_eq (hes : Ordered stamp es) (s : Option γ) :
    (Held stamp s es → es.foldl (step stamp) s =
      s.map fun c => (updates (since_remove es)).getLastD c) ∧
    (¬ Held stamp s es → es.foldl (step stamp) s = kept (since_remove es)) := by
  have hsplit : es.foldl (step stamp) s = (since_remove es).foldl (step stamp)
      ((until_remove es).foldl (step stamp) s) := by
    rw [← foldl_append, until_remove_append_since_remove]
  constructor
  · rintro ⟨c, hc, hreach, hupdates⟩
    obtain rfl := hc
    rw [hsplit, foldl_step_unreached hupdates, foldl_step_some not_is_remove_since_remove]
    · rfl
    · intro e he
      have hpart : until_remove es <+: es := rdropWhile_prefix _ _
      exact hreach e (hpart.subset he)
  · intro hheld
    rw [hsplit, foldl_until_remove hes s hheld, foldl_step_none not_is_remove_since_remove]

end Sequence

/-! ## The newest write wins -/

/-- `c` was published last; of several published at one time, any. -/
def IsNewest (pubs : List (ℕ × γ)) (c : γ) : Prop :=
  ∃ p ∈ pubs, p.2 = c ∧ ∀ q ∈ pubs, q.1 ≤ p.1

/-- A remove is later than everything published. -/
def RemovedLast (pubs : List (ℕ × γ)) (es : List (Timed γ)) : Prop :=
  ∃ e ∈ es, is_remove e = true ∧ ∀ p ∈ pubs, p.1 < e.time

/-- The newest write won: a filled slot holds what was published last and no remove is later; an
empty one had nothing published, or a remove is later than all of it. -/
def NewestWins (pubs : List (ℕ × γ)) (es : List (Timed γ)) : Option γ → Prop
  | some c => IsNewest pubs c ∧ ¬ RemovedLast pubs es
  | none => pubs = [] ∨ RemovedLast pubs es

instance [DecidableEq γ] (pubs : List (ℕ × γ)) (c : γ) : Decidable (IsNewest pubs c) :=
  inferInstanceAs (Decidable (∃ p ∈ pubs, p.2 = c ∧ ∀ q ∈ pubs, q.1 ≤ p.1))

instance (pubs : List (ℕ × γ)) (es : List (Timed γ)) : Decidable (RemovedLast pubs es) :=
  inferInstanceAs (Decidable (∃ e ∈ es, is_remove e = true ∧ ∀ p ∈ pubs, p.1 < e.time))

variable {p : ℕ × γ} {pubs : List (ℕ × γ)}

theorem later_assoc (q r : ℕ × γ) : later (later p q) r = later p (later q r) := by
  unfold later
  grind

theorem newest_cons : newest (p :: pubs) = some ((newest pubs).elim p (later p)) := by
  induction pubs generalizing p with
  | nil => rfl
  | cons q rest ih =>
    show newest (later p q :: rest) = some ((newest (q :: rest)).elim p (later p))
    rw [ih, ih]
    cases newest rest with
    | none => rfl
    | some w => exact congrArg some (later_assoc q w)

theorem newest_spec (h : newest pubs = some p) : p ∈ pubs ∧ ∀ q ∈ pubs, q.1 ≤ p.1 := by
  induction pubs generalizing p with
  | nil => cases h
  | cons head rest ih =>
    rw [newest_cons, Option.some.injEq] at h
    cases hrest : newest rest with
    | none =>
      have hnil : rest = [] := by
        cases rest with
        | nil => rfl
        | cons q qs => rw [newest_cons] at hrest; cases hrest
      rw [hrest, Option.elim_none] at h
      subst hnil h
      exact ⟨mem_cons_self, fun q hq => by rw [mem_singleton.mp hq]⟩
    | some w =>
      obtain ⟨hw, hmax⟩ := ih hrest
      rw [hrest, Option.elim_some, later] at h
      split at h
      · rename_i hgt
        subst h
        refine ⟨mem_cons_of_mem _ hw, fun q hq => ?_⟩
        rcases mem_cons.mp hq with rfl | hq
        · exact Nat.le_of_lt hgt
        · exact hmax q hq
      · rename_i hle
        subst h
        refine ⟨mem_cons_self, fun q hq => ?_⟩
        rcases mem_cons.mp hq with rfl | hq
        · exact Nat.le_refl _
        · exact (hmax q hq).trans (Nat.le_of_not_lt hle)

theorem isNewest_of_newest (h : newest pubs = some p) : IsNewest pubs p.2 :=
  ⟨p, (newest_spec h).1, rfl, (newest_spec h).2⟩

section NewestWins

variable {stamp : γ → ℕ} {es : List (Timed γ)} {pubs : List (ℕ × γ)}

theorem mem_publications {e : Timed γ} {c : γ} (he : e ∈ es) (hc : c ∈ e.write.content?) :
    (e.time, c) ∈ publications es :=
  mem_filterMap.mpr ⟨e, he, Option.map_eq_some_iff.mpr ⟨c, hc, rfl⟩⟩

theorem exists_of_kept {c : γ} (h : kept es = some c) : ∃ e ∈ es, c ∈ e.write.content? := by
  induction es with
  | nil => cases h
  | cons e rest ih =>
    rw [kept] at h
    split at h
    · rename_i c' hw
      cases h
      cases hu : updates rest with
      | nil => exact ⟨e, mem_cons_self, by rw [hw]; rfl⟩
      | cons u us =>
        have hmem : (u :: us).getLastD c' ∈ updates rest := by
          rw [hu, getLastD_cons]
          exact getLastD_mem_cons
        obtain ⟨e', he', hue'⟩ := mem_filterMap.mp hmem
        exact ⟨e', mem_cons_of_mem _ he', by rw [update?_eq_some.mp hue']; rfl⟩
    · obtain ⟨e', he', hc⟩ := ih h
      exact ⟨e', mem_cons_of_mem _ he', hc⟩

/-- **When the newest write wins.** The slot starts with something published last, or empty.
If that is held, the newest wins exactly if the last update after the last remove, where there is
one, is of something published last. If not, it wins exactly if what the writes after the last
remove put in an empty slot was published last, or they put nothing there and rightly so. -/
theorem newestWins_foldl_iff (hes : Ordered stamp es) {s : Option γ}
    (hs : ∀ c ∈ s, IsNewest pubs c) (hstamp : ∀ p ∈ pubs, stamp p.2 ≤ p.1)
    (hpubs : ∀ p ∈ publications es, p ∈ pubs) :
    NewestWins pubs es (es.foldl (step stamp) s) ↔
      (Held stamp s es → ∀ c ∈ (updates (since_remove es)).getLast?, IsNewest pubs c) ∧
      (¬ Held stamp s es → (∀ c ∈ kept (since_remove es), IsNewest pubs c) ∧
        (kept (since_remove es) = none → pubs = [] ∨ RemovedLast pubs es)) := by
  by_cases hheld : Held stamp s es
  · rw [(foldl_step_eq hes s).1 hheld]
    obtain ⟨c, hc, hreach, hupdates⟩ := id hheld
    obtain rfl := hc
    obtain ⟨p, hp, rfl, -⟩ := hs c rfl
    -- a remove reaches nothing that is held, so none is later than everything published
    have hnotlast : ¬ RemovedLast pubs es := by
      rintro ⟨e, he, hr, hlast⟩
      have hlt := hreach e he hr
      have hle := hstamp p hp
      have := hlast p hp
      omega
    have hnewest : IsNewest pubs ((updates (since_remove es)).getLastD p.2) ↔
        ∀ c ∈ (updates (since_remove es)).getLast?, IsNewest pubs c := by
      rw [getLastD_eq_getLast?]
      cases (updates (since_remove es)).getLast? with
      | none => simpa using hs p.2 rfl
      | some u => simp
    simp only [Option.map_some, NewestWins, hnotlast, not_false_eq_true, and_true, hheld,
      true_imp_iff, not_true_eq_false, false_imp_iff]
    exact hnewest
  · rw [(foldl_step_eq hes s).2 hheld]
    simp only [hheld, not_false_eq_true, true_imp_iff, false_imp_iff, true_and]
    cases hkept : kept (since_remove es) with
    | none => simp [NewestWins]
    | some c =>
      obtain ⟨e, he, hc⟩ := exists_of_kept hkept
      have hmem : e ∈ es := (rtakeWhile_suffix _ _).subset he
      -- it was published after the last remove
      have hnotlast : ¬ RemovedLast pubs es := by
        rintro ⟨r, hr, hremove, hlast⟩
        have hlt := hlast _ (hpubs _ (mem_publications hmem hc))
        have hasc := hes.ascending
        rw [← until_remove_append_since_remove es, pairwise_append] at hasc
        have := hasc.2.2 r (mem_until_remove hr hremove) e he
        omega
      simp [NewestWins, hnotlast]

end NewestWins

end HybridCache.Lib.Slot
