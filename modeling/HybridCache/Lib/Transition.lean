/-
Runs of a system that moves by labelled steps.

`step s l` is what the label `l` does in state `s`, or `none` if `l` cannot happen there. A run is
a list of labels. The rules are the inductions every result about all interleavings needs.
-/
import Mathlib.Algebra.BigOperators.Group.List.Basic
import Mathlib.Algebra.BigOperators.Pi
import Mathlib.Algebra.BigOperators.Group.Finset.Basic
import Mathlib.Tactic.Abel

namespace HybridCache.Lib

open List

section Run

variable {S L : Type}

/-- Perform the labels in order. -/
def run (step : S → L → Option S) (s : S) : List L → Option S
  | [] => some s
  | l :: rest => (step s l).bind fun s' => run step s' rest

/-- Every step the run takes meets the condition in the state it is taken from. -/
def Guarded (step : S → L → Option S) (guard : S → L → Prop) (s : S) : List L → Prop
  | [] => True
  | l :: rest => guard s l ∧ ∀ s', step s l = some s' → Guarded step guard s' rest

variable {step : S → L → Option S} {guard : S → L → Prop}

instance decidableGuarded [∀ s l, Decidable (guard s l)] :
    ∀ (s : S) (labels : List L), Decidable (Guarded step guard s labels)
  | _, [] => isTrue trivial
  | s, l :: rest =>
    match h : step s l with
    | none => decidable_of_iff (guard s l) (by simp [Guarded, h])
    | some s' =>
      have := decidableGuarded s' rest
      decidable_of_iff (guard s l ∧ Guarded step guard s' rest) (by simp [Guarded, h])

variable {l : L} {rest labels : List L} {s s' : S} {guard' : S → L → Prop}

theorem run_cons :
    run step s (l :: rest) = some s' ↔ ∃ s₁, step s l = some s₁ ∧ run step s₁ rest = some s' := by
  simp only [run, Option.bind_eq_some_iff]

theorem run_some (f : S → L → S) (s : S) (labels : List L) :
    run (fun s l => some (f s l)) s labels = some (labels.foldl f s) := by
  induction labels generalizing s with
  | nil => rfl
  | cons l rest ih => exact ih (f s l)

theorem guarded_cons (h : step s l = some s') :
    Guarded step guard s (l :: rest) ↔ guard s l ∧ Guarded step guard s' rest := by
  simp [Guarded, h]

/-- **History rule.** What holds at the start and is kept by every step that meets the guard holds
after every guarded run. The invariant may speak of the labels performed so far. -/
theorem run_invariant_past (Inv : List L → S → Prop)
    (hstep : ∀ past s l s', Inv past s → guard s l → step s l = some s' → Inv (past ++ [l]) s')
    {s s' : S} {labels : List L} (hinit : Inv [] s) (hguard : Guarded step guard s labels)
    (hrun : run step s labels = some s') : Inv labels s' := by
  suffices h : ∀ past, Inv past s → Inv (past ++ labels) s' from h [] hinit
  clear hinit
  induction labels generalizing s with
  | nil =>
    simp only [run, Option.some.injEq] at hrun
    intro past hpast
    rw [append_nil]
    exact hrun ▸ hpast
  | cons l rest ih =>
    obtain ⟨s₁, hs₁, hrest⟩ := run_cons.mp hrun
    intro past hpast
    rw [append_cons]
    exact ih (hguard.2 s₁ hs₁) hrest _ (hstep past s l s₁ hpast hguard.1 hs₁)

/-- **Invariant rule**, for an invariant of the state alone. -/
theorem run_invariant (Inv : S → Prop)
    (hstep : ∀ s l s', Inv s → guard s l → step s l = some s' → Inv s')
    {s s' : S} {labels : List L} (hinit : Inv s) (hguard : Guarded step guard s labels)
    (hrun : run step s labels = some s') : Inv s' :=
  run_invariant_past (fun _ => Inv) (fun _ => hstep) hinit hguard hrun

/-- **Sum rule.** A quantity that every step moves by the weight of its label has,
after a run, moved by the sum of the weights. -/
theorem run_sum {M : Type} [AddCommMonoid M] {Inv : S → Prop} (quantity : S → M) (weight : L → M)
    (hinv : ∀ s l s', Inv s → guard s l → step s l = some s' → Inv s')
    (hstep : ∀ s l s', Inv s → guard s l → step s l = some s' → quantity s' = quantity s + weight l)
    {s s' : S} {labels : List L} (hinit : Inv s) (hguard : Guarded step guard s labels)
    (hrun : run step s labels = some s') :
    quantity s' = quantity s + (labels.map weight).sum := by
  refine (run_invariant_past
    (fun past s' => Inv s' ∧ quantity s' = quantity s + (past.map weight).sum)
    (fun past s₁ l s₂ h hg hs₂ => ⟨hinv s₁ l s₂ h.1 hg hs₂, ?_⟩) ⟨hinit, by simp⟩ hguard hrun).2
  rw [hstep s₁ l s₂ h.1 hg hs₂, h.2, map_append, sum_append, add_assoc]
  simp

theorem Guarded.take (h : Guarded step guard s labels) (n : ℕ) :
    Guarded step guard s (labels.take n) := by
  induction labels generalizing s n with
  | nil => rwa [take_nil]
  | cons l rest ih =>
    cases n with
    | zero => trivial
    | succ n => exact ⟨h.1, fun s' hs' => ih (h.2 s' hs') n⟩

/-- **Exact guard rule, with the history.** If, from a state of the invariant, a step keeps the
invariant when it meets the guard and breaks the property when it does not, then the property
holds all along a run exactly if every step of it meets the guard. Both may speak of the labels
performed so far. -/
theorem run_forall_iff_guarded_past (Inv P : List L → S → Prop)
    (hP : ∀ past s, Inv past s → P past s)
    (hkeep : ∀ past s l s', Inv past s → guard s l → step s l = some s' → Inv (past ++ [l]) s')
    (hbreak : ∀ past s l s', Inv past s → step s l = some s' → P (past ++ [l]) s' → guard s l)
    (hinit : Inv [] s) (hrun : run step s labels = some s') :
    (∀ n s₁, run step s (labels.take n) = some s₁ → P (labels.take n) s₁) ↔
      Guarded step guard s labels := by
  refine ⟨?_, fun hguard n s₁ hs₁ =>
    hP _ _ (run_invariant_past Inv hkeep hinit (hguard.take n) hs₁)⟩
  suffices h : ∀ past, Inv past s →
      (∀ n s₁, run step s (labels.take n) = some s₁ → P (past ++ labels.take n) s₁) →
        Guarded step guard s labels from h [] hinit
  clear hinit
  induction labels generalizing s with
  | nil => exact fun _ _ _ => trivial
  | cons l rest ih =>
    intro past hpast hall
    obtain ⟨s₁, hs₁, hrest⟩ := run_cons.mp hrun
    have hnext : ∀ n s₂, run step s₁ (rest.take n) = some s₂ →
        P (past ++ [l] ++ rest.take n) s₂ := by
      intro n s₂ hs₂
      rw [← append_cons]
      exact hall (n + 1) s₂ (run_cons.mpr ⟨s₁, hs₁, hs₂⟩)
    have hfirst : P (past ++ [l]) s₁ := by
      have h := hnext 0 s₁ rfl
      rwa [take_zero, append_nil] at h
    have hguard : guard s l := hbreak past s l s₁ hpast hs₁ hfirst
    rw [guarded_cons hs₁]
    exact ⟨hguard, ih hrest _ (hkeep past s l s₁ hpast hguard hs₁) hnext⟩

/-- **Exact guard rule**, for an invariant and a property of the state alone. -/
theorem run_forall_iff_guarded (Inv P : S → Prop) (hP : ∀ s, Inv s → P s)
    (hkeep : ∀ s l s', Inv s → guard s l → step s l = some s' → Inv s')
    (hbreak : ∀ s l s', Inv s → step s l = some s' → P s' → guard s l) (hinit : Inv s)
    (hrun : run step s labels = some s') :
    (∀ n s₁, run step s (labels.take n) = some s₁ → P s₁) ↔ Guarded step guard s labels :=
  run_forall_iff_guarded_past (fun _ => Inv) (fun _ => P) (fun _ => hP) (fun _ => hkeep)
    (fun _ => hbreak) hinit hrun

/-- **Exact guard rule for steps.** If a step has a property exactly if it meets the guard, then
every step of a run has it exactly if the run is guarded. -/
theorem run_steps_iff_guarded (Q : S → L → S → Prop)
    (hstep : ∀ s l s', step s l = some s' → (Q s l s' ↔ guard s l))
    (hrun : run step s labels = some s') :
    (∀ n l s₁ s₂, run step s (labels.take n) = some s₁ → labels[n]? = some l →
      step s₁ l = some s₂ → Q s₁ l s₂) ↔ Guarded step guard s labels := by
  induction labels generalizing s with
  | nil =>
    refine ⟨fun _ => trivial, fun _ n l s₁ s₂ _ hl => ?_⟩
    cases hl
  | cons l rest ih =>
    obtain ⟨s₁, hs₁, hrest⟩ := run_cons.mp hrun
    rw [guarded_cons hs₁, ← ih hrest, ← hstep s l s₁ hs₁]
    constructor
    · intro hall
      refine ⟨hall 0 l s s₁ rfl rfl hs₁, fun n l' s₂ s₃ hs₂ hl' hs₃ => ?_⟩
      exact hall (n + 1) l' s₂ s₃ (run_cons.mpr ⟨s₁, hs₁, hs₂⟩) hl' hs₃
    · rintro ⟨hfirst, hlater⟩ n l' s₂ s₃ hs₂ hl' hs₃
      cases n with
      | zero =>
        obtain rfl : s = s₂ := Option.some.inj hs₂
        obtain rfl : l = l' := Option.some.inj hl'
        obtain rfl : s₁ = s₃ := Option.some.inj (hs₁.symm.trans hs₃)
        exact hfirst
      | succ n =>
        obtain ⟨s₁', hs₁', hs₂⟩ := run_cons.mp hs₂
        obtain rfl : s₁ = s₁' := Option.some.inj (hs₁.symm.trans hs₁')
        exact hlater n l' s₂ s₃ hs₂ hl' hs₃

theorem guarded_of_forall {allowed : L → Prop} (h : ∀ l ∈ labels, allowed l) :
    Guarded step (fun _ l => allowed l) s labels := by
  induction labels generalizing s with
  | nil => trivial
  | cons l rest ih =>
    exact ⟨h l mem_cons_self, fun s' _ => ih fun l hl => h l (mem_cons_of_mem _ hl)⟩

theorem Guarded.mono (himp : ∀ s l, guard s l → guard' s l) (h : Guarded step guard s labels) :
    Guarded step guard' s labels := by
  induction labels generalizing s with
  | nil => trivial
  | cons l rest ih => exact ⟨himp s l h.1, fun s' hs' => ih (h.2 s' hs')⟩

theorem Guarded.and (h : Guarded step guard s labels) (h' : Guarded step guard' s labels) :
    Guarded step (fun s l => guard s l ∧ guard' s l) s labels := by
  induction labels generalizing s with
  | nil => trivial
  | cons l rest ih => exact ⟨⟨h.1, h'.1⟩, fun s' hs' => ih (h.2 s' hs') (h'.2 s' hs')⟩

theorem guarded_of_run_forall {P : S → Prop}
    (h : ∀ n s₁, run step s (labels.take n) = some s₁ → P s₁) :
    Guarded step (fun s l => P s ∧ ∀ s', step s l = some s' → P s') s labels := by
  induction labels generalizing s with
  | nil => trivial
  | cons l rest ih =>
    have hlater : ∀ s', step s l = some s' →
        ∀ n s₁, run step s' (rest.take n) = some s₁ → P s₁ := by
      intro s' hs' n s₁ hs₁
      exact h (n + 1) s₁ (run_cons.mpr ⟨s', hs', hs₁⟩)
    refine ⟨⟨h 0 s rfl, fun s' hs' => ?_⟩, fun s' hs' => ih (hlater s' hs')⟩
    exact hlater s' hs' 0 s' rfl

end Run

/-! ## Sums over the parties of a system -/

section Update

variable {ι α M : Type} [Fintype ι] [DecidableEq ι] [AddCommGroup M]

theorem sum_update (f : ι → α) (i : ι) (a : α) (w : α → M) :
    ∑ j, w (Function.update f i a j) = ∑ j, w (f j) - w (f i) + w a := by
  have hsplit : ∀ g : ι → α, ∑ j, w (g j) = w (g i) + ∑ j ∈ Finset.univ.erase i, w (g j) :=
    fun g => (Finset.add_sum_erase _ _ (Finset.mem_univ i)).symm
  have hrest : ∑ j ∈ Finset.univ.erase i, w (Function.update f i a j) =
      ∑ j ∈ Finset.univ.erase i, w (f j) := by
    refine Finset.sum_congr rfl fun j hj => ?_
    rw [Function.update_of_ne (Finset.ne_of_mem_erase hj)]
  rw [hsplit (Function.update f i a), hsplit f, hrest, Function.update_self]
  abel

end Update

end HybridCache.Lib
