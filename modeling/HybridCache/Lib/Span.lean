/-
Lists of closed intervals of natural numbers: what they cover, joining what is close together, and
the gaps that are left.

`coalesce t` runs over a list sorted by start and joins an interval to the current one when at most
`t` points lie between them. `gaps` lists what a separated list leaves uncovered of a range. Both
are described by what they cover and by where their results start and end.
-/
import Mathlib.Data.List.Chain
import Mathlib.Data.List.Pairwise
import Mathlib.Data.Nat.Find
import Mathlib.Order.MinMax

namespace HybridCache.Lib

open List

structure Span where
  start : ℕ
  end_ : ℕ
deriving DecidableEq, Repr

namespace Span

def Contains (a : Span) (x : ℕ) : Prop :=
  a.start ≤ x ∧ x ≤ a.end_

instance (a : Span) (x : ℕ) : Decidable (a.Contains x) :=
  inferInstanceAs (Decidable (_ ∧ _))

def Covers (l : List Span) (x : ℕ) : Prop :=
  ∃ a ∈ l, a.Contains x

instance (l : List Span) (x : ℕ) : Decidable (Covers l x) :=
  inferInstanceAs (Decidable (∃ a ∈ l, _))

def Proper (l : List Span) : Prop :=
  ∀ a ∈ l, a.start ≤ a.end_

/-- Ascending, with more than `t` points between any two intervals. -/
def Separated (t : ℕ) (l : List Span) : Prop :=
  l.Pairwise fun a b => a.end_ + t + 1 < b.start

def Ascending (l : List Span) : Prop :=
  l.Pairwise fun a b => a.start ≤ b.start

variable {x p : ℕ} {l₁ l₂ : List Span} {r g : Span}

@[simp] theorem covers_nil (x : ℕ) : ¬ Covers [] x := by
  simp [Covers]

@[simp] theorem covers_cons (a : Span) (l : List Span) :
    Covers (a :: l) x ↔ a.Contains x ∨ Covers l x := by
  simp [Covers]

@[simp] theorem covers_append : Covers (l₁ ++ l₂) x ↔ Covers l₁ x ∨ Covers l₂ x := by
  simp only [Covers, mem_append, or_and_right, exists_or]

theorem Covers.perm (h : l₁.Perm l₂) (x : ℕ) : Covers l₁ x ↔ Covers l₂ x := by
  simp only [Covers, h.mem_iff]

variable {l : List Span} {t : ℕ} {a b : Span}

theorem Separated.trichotomy (h : Separated t l) (ha : a ∈ l) (hb : b ∈ l) :
    a = b ∨ a.end_ + t + 1 < b.start ∨ b.end_ + t + 1 < a.start := by
  induction l with
  | nil => cases ha
  | cons c rest ih =>
    obtain ⟨hc, hrest⟩ := pairwise_cons.mp h
    rcases mem_cons.mp ha with rfl | ha' <;> rcases mem_cons.mp hb with rfl | hb'
    · exact Or.inl rfl
    · exact Or.inr (Or.inl (hc b hb'))
    · exact Or.inr (Or.inr (hc a ha'))
    · exact ih hrest ha' hb'

/-! ## Lists without gaps -/

/-- A list that ascends by start and stays below `E` reaches `E` without a gap
exactly when everything that ends before `E` is followed by something that
starts no later than one past its end. -/
theorem chain_iff_followed {E : ℕ} (hasc : Ascending l) (hproper : Proper l)
    (hE : ∀ a ∈ l, a.end_ ≤ E) :
    (l.IsChain (fun a b => b.start ≤ a.end_ + 1) ∧ ∀ a ∈ l.getLast?, a.end_ = E) ↔
      ∀ l₁ a l₂, l = l₁ ++ a :: l₂ → a.end_ < E → ∃ b ∈ l₂, b.start ≤ a.end_ + 1 := by
  induction l with
  | nil => simp
  | cons a rest ih =>
    obtain ⟨ha, hrest⟩ := pairwise_cons.mp hasc
    have hae := hE a mem_cons_self
    have ih := ih hrest (fun b hb => hproper b (mem_cons_of_mem _ hb))
      (fun b hb => hE b (mem_cons_of_mem _ hb))
    -- a split of `a :: rest` is at `a` or in `rest`
    have hsplit : (∀ l₁ c l₂, a :: rest = l₁ ++ c :: l₂ → c.end_ < E →
          ∃ b ∈ l₂, b.start ≤ c.end_ + 1) ↔
        (a.end_ < E → ∃ b ∈ rest, b.start ≤ a.end_ + 1) ∧
        ∀ l₁ c l₂, rest = l₁ ++ c :: l₂ → c.end_ < E → ∃ b ∈ l₂, b.start ≤ c.end_ + 1 := by
      constructor
      · intro h
        exact ⟨h [] a rest rfl, fun l₁ c l₂ hl => h (a :: l₁) c l₂ (by rw [hl]; rfl)⟩
      · rintro ⟨hhead, htail⟩ l₁ c l₂ hl
        cases l₁ with
        | nil =>
          obtain ⟨rfl, rfl⟩ : a = c ∧ rest = l₂ := by simpa using hl
          exact hhead
        | cons d l₁ =>
          obtain ⟨-, hl⟩ : a = d ∧ rest = l₁ ++ c :: l₂ := by simpa using hl
          exact htail l₁ c l₂ hl
    rw [hsplit, ← ih]
    cases rest with
    | nil =>
      constructor
      · rintro ⟨-, hlast⟩
        exact ⟨fun hlt => absurd (hlast a rfl) hlt.ne, .nil, by simp⟩
      · rintro ⟨hhead, -⟩
        refine ⟨.singleton a, fun c hc => ?_⟩
        obtain rfl : a = c := by simpa using hc
        by_contra hne
        obtain ⟨b, hb, -⟩ := hhead (by omega)
        cases hb
    | cons b rest =>
      have hbp := hproper b (mem_cons_of_mem _ mem_cons_self)
      have hbE := hE b (mem_cons_of_mem _ mem_cons_self)
      -- the next interval has the least start of all that follow
      have hnext : b.start ≤ a.end_ + 1 ↔
          (a.end_ < E → ∃ c ∈ b :: rest, c.start ≤ a.end_ + 1) := by
        constructor
        · intro hb _
          exact ⟨b, mem_cons_self, hb⟩
        · intro h
          by_cases hlt : a.end_ < E
          · obtain ⟨c, hc, hcs⟩ := h hlt
            rcases mem_cons.mp hc with rfl | hc
            · exact hcs
            · exact ((pairwise_cons.mp hrest).1 c hc).trans hcs
          · omega
      rw [isChain_cons_cons, List.getLast?_cons_cons, hnext, and_assoc]

/-! ## Joining intervals that are close together -/

/-- Join each interval to the current one while at most `t` points lie between. -/
def coalesce (t : ℕ) (current : Span) : List Span → List Span
  | [] => [current]
  | r :: rest =>
    if r.start ≤ current.end_ + 1 + t then
      coalesce t ⟨current.start, max current.end_ r.end_⟩ rest
    else
      current :: coalesce t r rest

theorem Ascending.join {current : Span} {rest : List Span} (h : Ascending (current :: r :: rest))
    (e : ℕ) : Ascending (⟨current.start, e⟩ :: rest) := by
  obtain ⟨hcur, hrest⟩ := pairwise_cons.mp h
  refine pairwise_cons.mpr ⟨fun b hb => ?_, (pairwise_cons.mp hrest).2⟩
  exact hcur b (mem_cons_of_mem _ hb)

variable {current : Span}

theorem Ascending.tail (h : Ascending (current :: l)) :
    Ascending l :=
  (pairwise_cons.mp h).2

theorem Ascending.start_le {current : Span} (h : Ascending (current :: l)) (hr : r ∈ l) :
    current.start ≤ r.start :=
  (pairwise_cons.mp h).1 r hr

theorem Ascending.head_start_le (h : Ascending l) (ha : a ∈ l.head?) (hb : b ∈ l) :
    a.start ≤ b.start := by
  cases l with
  | nil => cases hb
  | cons c rest =>
    obtain rfl : c = a := by simpa using ha
    rcases mem_cons.mp hb with rfl | hb
    · exact le_rfl
    · exact h.start_le hb

variable {x : ℕ}

theorem Ascending.start_le_of_covers (h : Ascending (current :: l)) (hx : Covers l x) :
    current.start ≤ x := by
  obtain ⟨b, hb, hbx⟩ := hx
  exact (h.start_le hb).trans hbx.1

theorem endpoints_of_mem_coalesce {f : Span} (hf : f ∈ coalesce t current l) :
    (∃ a ∈ current :: l, a.start = f.start) ∧ ∃ a ∈ current :: l, a.end_ = f.end_ := by
  induction l generalizing current with
  | nil =>
    obtain rfl := mem_singleton.mp hf
    exact ⟨⟨f, mem_singleton_self f, rfl⟩, ⟨f, mem_singleton_self f, rfl⟩⟩
  | cons r rest ih =>
    rw [coalesce] at hf
    split at hf
    case isTrue hjoin =>
      obtain ⟨⟨a, ha, hastart⟩, ⟨b, hb, hbend⟩⟩ := ih hf
      constructor
      · rcases mem_cons.mp ha with rfl | ha
        · exact ⟨current, mem_cons_self, hastart⟩
        · exact ⟨a, mem_cons_of_mem _ (mem_cons_of_mem _ ha), hastart⟩
      · rcases mem_cons.mp hb with rfl | hb
        · rcases max_choice current.end_ r.end_ with hmax | hmax
          · exact ⟨current, mem_cons_self, by rw [← hbend, hmax]⟩
          · exact ⟨r, mem_cons_of_mem _ mem_cons_self, by rw [← hbend, hmax]⟩
        · exact ⟨b, mem_cons_of_mem _ (mem_cons_of_mem _ hb), hbend⟩
    case isFalse hapart =>
      rcases mem_cons.mp hf with rfl | hf
      · exact ⟨⟨f, mem_cons_self, rfl⟩, ⟨f, mem_cons_self, rfl⟩⟩
      · obtain ⟨⟨a, ha, hastart⟩, ⟨b, hb, hbend⟩⟩ := ih hf
        exact ⟨⟨a, mem_cons_of_mem _ ha, hastart⟩, ⟨b, mem_cons_of_mem _ hb, hbend⟩⟩

theorem coalesce_proper (hproper : Proper (current :: l)) : Proper (coalesce t current l) := by
  induction l generalizing current with
  | nil => exact hproper
  | cons r rest ih =>
    obtain ⟨hpc, hpr⟩ := forall_mem_cons.mp hproper
    rw [coalesce]
    split
    · have hrest := (forall_mem_cons.mp hpr).2
      exact ih (forall_mem_cons.mpr ⟨hpc.trans (le_max_left _ _), hrest⟩)
    · exact forall_mem_cons.mpr ⟨hpc, ih hpr⟩

variable (hasc : Ascending (current :: l))

include hasc

theorem coalesce_pairwise :
    (coalesce t current l).Pairwise fun f g => f.start ≤ g.start ∧ f.end_ + t + 1 < g.start := by
  induction l generalizing current with
  | nil => exact pairwise_singleton _ _
  | cons r rest ih =>
    rw [coalesce]
    split
    case isTrue hjoin => exact ih (hasc.join _)
    case isFalse hapart =>
      refine pairwise_cons.mpr ⟨fun f hf => ?_, ih hasc.tail⟩
      obtain ⟨⟨a, ha, hstart⟩, -⟩ := endpoints_of_mem_coalesce hf
      have hnext := hasc.start_le mem_cons_self
      have hle := hasc.tail.head_start_le rfl ha
      omega

theorem coalesce_separated : Separated t (coalesce t current l) :=
  (coalesce_pairwise hasc).imp And.right

theorem coalesce_ascending : Ascending (coalesce t current l) :=
  (coalesce_pairwise hasc).imp And.left

theorem exists_mem_coalesce_around {a : Span} (ha : a ∈ current :: l) :
    ∃ f ∈ coalesce t current l, f.start ≤ a.start ∧ a.end_ ≤ f.end_ := by
  induction l generalizing current a with
  | nil =>
    obtain rfl := mem_singleton.mp ha
    exact ⟨a, mem_singleton_self a, le_rfl, le_rfl⟩
  | cons r rest ih =>
    rw [coalesce]
    split
    case isTrue hjoin =>
      have hcr : current.start ≤ r.start := hasc.start_le mem_cons_self
      have hjoined := hasc.join (max current.end_ r.end_)
      obtain ⟨f, hf, hstart, hend⟩ := ih hjoined mem_cons_self
      rcases mem_cons.mp ha with rfl | ha
      · exact ⟨f, hf, hstart, (le_max_left _ _).trans hend⟩
      · rcases mem_cons.mp ha with rfl | ha
        · exact ⟨f, hf, hstart.trans hcr, (le_max_right _ _).trans hend⟩
        · exact ih hjoined (mem_cons_of_mem _ ha)
    case isFalse hapart =>
      rcases mem_cons.mp ha with rfl | ha
      · exact ⟨a, mem_cons_self, le_rfl, le_rfl⟩
      · obtain ⟨f, hf, hbounds⟩ := ih hasc.tail ha
        exact ⟨f, mem_cons_of_mem _ hf, hbounds⟩

theorem covers_coalesce_of_covers (hx : Covers (current :: l) x) :
    Covers (coalesce t current l) x := by
  obtain ⟨a, ha, hlo, hhi⟩ := hx
  obtain ⟨f, hf, hstart, hend⟩ := exists_mem_coalesce_around hasc ha
  exact ⟨f, hf, hstart.trans hlo, hhi.trans hend⟩

omit hasc

theorem length_coalesce_le (t : ℕ) (current : Span) (l : List Span) :
    (coalesce t current l).length ≤ (current :: l).length := by
  induction l generalizing current with
  | nil => exact le_rfl
  | cons r rest ih =>
    rw [coalesce]
    split
    case isTrue hjoin =>
      have hrest := ih ⟨current.start, max current.end_ r.end_⟩
      simp only [length_cons] at hrest ⊢
      omega
    case isFalse hapart =>
      have hrest := ih r
      simp only [length_cons] at hrest ⊢
      omega

/-- A run of points in no interval of the list, from just past the end of one to just before the
start of another. -/
structure Hole (l : List Span) (g : Span) : Prop where
  proper : g.start ≤ g.end_
  after : ∃ a ∈ l, a.end_ + 1 = g.start
  before : ∃ b ∈ l, b.start = g.end_ + 1
  uncovered : ∀ x, g.Contains x → ¬ Covers l x

theorem Hole.perm (h : l₁.Perm l₂) (hg : Hole l₁ g) : Hole l₂ g where
  proper := hg.proper
  after := by
    obtain ⟨a, ha, hend⟩ := hg.after
    exact ⟨a, h.mem_iff.mp ha, hend⟩
  before := by
    obtain ⟨b, hb, hstart⟩ := hg.before
    exact ⟨b, h.mem_iff.mp hb, hstart⟩
  uncovered := fun x hx hcov => hg.uncovered x hx ((Covers.perm h x).mpr hcov)

/-- A point in no interval that lies between the end of one and the start of another is in a hole
no wider than the distance of the two. The hole runs from the last end before the point to the
first start after it. -/
theorem exists_hole (ha : a ∈ l) (hb : b ∈ l) (hax : a.end_ < x) (hxb : x < b.start)
    (hx : ¬ Covers l x) :
    ∃ g, Hole l g ∧ g.Contains x ∧ a.end_ < g.start ∧ g.end_ < b.start := by
  have hstarts : ∃ n, x < n ∧ ∃ c ∈ l, c.start = n := ⟨b.start, hxb, b, hb, rfl⟩
  set lo := Nat.findGreatest (fun n => n < x ∧ ∃ c ∈ l, c.end_ = n) x with hlo
  set hi := Nat.find hstarts with hhi
  obtain ⟨hlox, c, hc, hcend⟩ : lo < x ∧ ∃ c ∈ l, c.end_ = lo :=
    Nat.findGreatest_spec (P := fun n => n < x ∧ ∃ c ∈ l, c.end_ = n) hax.le ⟨hax, a, ha, rfl⟩
  obtain ⟨hxhi, d, hd, hdstart⟩ := Nat.find_spec hstarts
  have hlast : ∀ e ∈ l, e.end_ < x → e.end_ ≤ lo := fun e he hex =>
    Nat.le_findGreatest hex.le ⟨hex, e, he, rfl⟩
  have hfirst : ∀ e ∈ l, x < e.start → hi ≤ e.start := fun e he hxe =>
    Nat.find_min' hstarts ⟨hxe, e, he, rfl⟩
  have halo := hlast a ha hax
  have hhib := hfirst b hb hxb
  refine ⟨⟨lo + 1, hi - 1⟩, ⟨?_, ⟨c, hc, by rw [hcend]⟩, ⟨d, hd, ?_⟩, ?_⟩, ⟨?_, ?_⟩, ?_, ?_⟩
  · dsimp only
    omega
  · dsimp only
    omega
  · rintro y ⟨hy₁, hy₂⟩ ⟨e, he, hey₁, hey₂⟩
    dsimp only at hy₁ hy₂
    -- an interval with a point of the run ends or starts on the other side of `x`
    by_cases hstart : x < e.start
    · have := hfirst e he hstart
      omega
    · by_cases hend : e.end_ < x
      · have := hlast e he hend
        omega
      · exact hx ⟨e, he, by omega, by omega⟩
  all_goals
    dsimp only
    omega

/-- A point of the result that is not in the input lies between two intervals of the input that are
close together. The current interval of the loop is no interval of the input any more, so the
induction keeps of it only whose end it has and that its points are accounted for. -/
theorem close_of_covers_coalesce {t x : ℕ} {input l : List Span}
    (hcur : current.Contains x → Covers input x ∨
      ∃ a ∈ input, ∃ b ∈ input, a.end_ < x ∧ x < b.start ∧ b.start ≤ a.end_ + 1 + t)
    (hend : ∃ a ∈ input, a.end_ = current.end_) (hl : ∀ r ∈ l, r ∈ input)
    (hx : Covers (coalesce t current l) x) :
    Covers input x ∨
      ∃ a ∈ input, ∃ b ∈ input, a.end_ < x ∧ x < b.start ∧ b.start ≤ a.end_ + 1 + t := by
  induction l generalizing current with
  | nil =>
    rw [coalesce, covers_cons] at hx
    exact hx.elim hcur fun h => absurd h (covers_nil x)
  | cons r rest ih =>
    have hr : r ∈ input := hl r mem_cons_self
    have hrest : ∀ s ∈ rest, s ∈ input := fun s hs => hl s (mem_cons_of_mem _ hs)
    obtain ⟨a, ha, haend⟩ := hend
    rw [coalesce] at hx
    split at hx
    case isTrue hjoin =>
      refine ih ?_ ?_ hrest hx
      · rintro ⟨hlo, hhi⟩
        dsimp only at hlo hhi
        by_cases hold : x ≤ current.end_
        · exact hcur ⟨hlo, hold⟩
        · by_cases hnew : r.start ≤ x
          · exact .inl ⟨r, hr, hnew, by omega⟩
          · exact .inr ⟨a, ha, r, hr, by omega, by omega, by omega⟩
      · rcases max_choice current.end_ r.end_ with hmax | hmax
        · exact ⟨a, ha, by rw [haend, hmax]⟩
        · exact ⟨r, hr, hmax.symm⟩
    case isFalse hapart =>
      rw [covers_cons] at hx
      rcases hx with hx | hx
      · exact hcur hx
      · exact ih (fun hin => .inl ⟨r, hr, hin⟩) ⟨r, hr, rfl⟩ hrest hx

/-- **What joining adds**: the points of holes of at most `t` points. -/
theorem covers_or_hole_of_covers_coalesce {t x : ℕ} (hx : Covers (coalesce t current l) x) :
    Covers (current :: l) x ∨
      ∃ g, Hole (current :: l) g ∧ g.Contains x ∧ g.end_ - g.start + 1 ≤ t := by
  by_cases hcov : Covers (current :: l) x
  · exact .inl hcov
  · refine .inr ?_
    have hclose := close_of_covers_coalesce (fun h => .inl ⟨current, mem_cons_self, h⟩)
      ⟨current, mem_cons_self, rfl⟩ (fun r hr => mem_cons_of_mem current hr) hx
    obtain ⟨a, ha, b, hb, hax, hxb, hab⟩ := hclose.resolve_left hcov
    obtain ⟨g, hg, hgx, hlo, hhi⟩ := exists_hole ha hb hax hxb hcov
    exact ⟨g, hg, hgx, by omega⟩

include hasc

theorem covers_coalesce_zero (x : ℕ) :
    Covers (coalesce 0 current l) x ↔ Covers (current :: l) x := by
  refine ⟨fun hx => ?_, covers_coalesce_of_covers hasc⟩
  rcases covers_or_hole_of_covers_coalesce hx with hcov | ⟨g, -, -, hwide⟩
  · exact hcov
  · omega

/-- A point with more than `t` uncovered points before it starts an interval of
the result. `cov` is what the whole input covers: the current interval may
already contain joined holes, so the induction cannot speak of its points. -/
theorem exists_start_coalesce {cov : ℕ → Prop} (hproper : Proper l) (hcur : cov current.end_)
    (hl : ∀ x, Covers l x → cov x) (hfar : ∀ h, cov h → h < p → h + t + 1 < p)
    (hp : p = current.start ∨ (current.end_ < p ∧ Covers l p)) :
    ∃ f ∈ coalesce t current l, f.start = p := by
  -- the point just below `p` is not covered, so `p` can only be where its interval starts
  have hstart : ∀ r : Span, (∀ x, r.Contains x → cov x) → r.Contains p → p = r.start := by
    intro r hr hin
    obtain ⟨hlo, hhi⟩ := hin
    by_contra hne
    have hbelow := hfar (p - 1) (hr (p - 1) ⟨by omega, by omega⟩) (by omega)
    omega
  induction l generalizing current with
  | nil =>
    rcases hp with rfl | ⟨-, hp⟩
    · exact ⟨current, mem_singleton_self _, rfl⟩
    · exact absurd hp (covers_nil p)
  | cons r rest ih =>
    have hr : ∀ x, r.Contains x → cov x := fun x hx => hl x (by simp [hx])
    have hrest : ∀ x, Covers rest x → cov x := fun x hx => hl x (by simp [hx])
    have hrend : cov r.end_ := hr _ ⟨hproper r mem_cons_self, le_rfl⟩
    have hproper' : Proper rest := fun a ha => hproper a (mem_cons_of_mem _ ha)
    have hafter : Covers rest p → ¬ r.Contains p → r.end_ < p := by
      intro hp hout
      have hge := hasc.tail.start_le_of_covers hp
      simp only [Contains] at hout
      omega
    rw [coalesce]
    split
    case isTrue hjoin =>
      refine ih (hasc.join _) hproper' ?_ hrest ?_
      · rcases max_choice current.end_ r.end_ with hmax | hmax
        · rw [hmax]; exact hcur
        · rw [hmax]; exact hrend
      · rcases hp with rfl | ⟨hgt, hp⟩
        · exact Or.inl rfl
        · -- `r` is too close to the current interval for `p` to be its start
          have hout : ¬ r.Contains p := by
            intro hin
            have hps := hstart r hr hin
            have hclose := hfar current.end_ hcur hgt
            omega
          rw [covers_cons] at hp
          have hp := hp.resolve_left hout
          exact Or.inr ⟨max_lt hgt (hafter hp hout), hp⟩
    case isFalse hapart =>
      rcases hp with rfl | ⟨-, hp⟩
      · exact ⟨current, mem_cons_self, rfl⟩
      · rw [covers_cons] at hp
        have hnext : p = r.start ∨ (r.end_ < p ∧ Covers rest p) := by
          by_cases hin : r.Contains p
          · exact Or.inl (hstart r hr hin)
          · have hp := hp.resolve_left hin
            exact Or.inr ⟨hafter hp hin, hp⟩
        obtain ⟨f, hf, hfp⟩ := ih hasc.tail hproper' hrend hrest hnext
        exact ⟨f, mem_cons_of_mem _ hf, hfp⟩

/-- **Where the joined intervals start**: at the covered points that have more
than `t` uncovered points before them. -/
theorem exists_start_coalesce_iff {t : ℕ} (hproper : Proper (current :: l)) :
    (∃ f ∈ coalesce t current l, f.start = p) ↔
      Covers (current :: l) p ∧ ∀ h, Covers (current :: l) h → h < p → h + t + 1 < p := by
  have hrest : Proper l := fun a ha => hproper a (mem_cons_of_mem _ ha)
  constructor
  · rintro ⟨f, hf, rfl⟩
    obtain ⟨⟨a, ha, hastart⟩, -⟩ := endpoints_of_mem_coalesce hf
    refine ⟨⟨a, ha, hastart.le, hastart ▸ hproper a ha⟩, fun h hcov hlt => ?_⟩
    obtain ⟨g, hg, hglo, hghi⟩ := covers_coalesce_of_covers (t := t) hasc hcov
    have hfend : f.start ≤ f.end_ := coalesce_proper hproper f hf
    -- the interval that contains `h` lies before `f`
    rcases (coalesce_separated hasc).trichotomy hg hf with rfl | hbefore | hafter <;> omega
  · rintro ⟨hp, hfar⟩
    refine exists_start_coalesce hasc hrest
      ⟨current, mem_cons_self, hproper current mem_cons_self, le_rfl⟩
      (fun x hx => by simp [hx]) hfar ?_
    rw [covers_cons] at hp
    by_cases hin : current.Contains p
    · left
      by_contra hne
      obtain ⟨hlo, hhi⟩ := hin
      have hbelow := hfar (p - 1) (by simp only [covers_cons, Contains]; omega) (by omega)
      omega
    · have hp := hp.resolve_left hin
      have hge := hasc.start_le_of_covers hp
      simp only [Contains] at hin
      exact Or.inr ⟨by omega, hp⟩

omit hasc

/-! ## What is left uncovered -/

/-- The parts of `pos..=hi` between the intervals of an ascending list. -/
def gaps (hi pos : ℕ) : List Span → List Span
  | [] => if pos ≤ hi then [⟨pos, hi⟩] else []
  | c :: rest =>
    (if pos < c.start then [⟨pos, c.start - 1⟩] else []) ++ gaps hi (max pos (c.end_ + 1)) rest

variable {hi pos : ℕ}

theorem start_le_of_mem_gaps (hg : g ∈ gaps hi pos l) : pos ≤ g.start ∧ g.start ≤ g.end_ := by
  induction l generalizing pos with
  | nil =>
    rw [gaps] at hg
    split at hg
    case isTrue hle =>
      obtain rfl := mem_singleton.mp hg
      exact ⟨le_rfl, hle⟩
    case isFalse => cases hg
  | cons c rest ih =>
    rw [gaps, mem_append] at hg
    rcases hg with hg | hg
    · split at hg
      case isTrue hlt =>
        obtain rfl := mem_singleton.mp hg
        exact ⟨le_rfl, by dsimp only; omega⟩
      case isFalse => cases hg
    · obtain ⟨hlo, hle⟩ := ih hg
      exact ⟨(le_max_left _ _).trans hlo, hle⟩

/-- **The gaps cover what the list leaves uncovered** up to `hi`, and up to the start of an
interval that lies past `hi`. -/
theorem covers_gaps_iff (hsep : Separated 0 l) (hproper : Proper l) (x : ℕ) :
    Covers (gaps hi pos l) x ↔ pos ≤ x ∧ (x ≤ hi ∨ ∃ a ∈ l, x < a.start) ∧ ¬ Covers l x := by
  induction l generalizing pos with
  | nil =>
    rw [gaps]
    split
    case isTrue hle => simp [Contains]
    case isFalse hgt =>
      simp only [covers_nil, not_mem_nil, false_and, exists_false, or_false,
        not_false_eq_true, and_true, false_iff]
      omega
  | cons c rest ih =>
    obtain ⟨hc, hrest⟩ := pairwise_cons.mp hsep
    have hpc := hproper c mem_cons_self
    have hfirst : Covers (if pos < c.start then [⟨pos, c.start - 1⟩] else []) x ↔
        pos ≤ x ∧ x < c.start := by
      split
      case isTrue hlt =>
        simp only [covers_cons, covers_nil, or_false, Contains]
        omega
      case isFalse hge =>
        simp only [covers_nil, false_iff]
        omega
    -- whatever the rest of the list covers lies past the end of its first interval
    have hlater : Covers rest x → c.end_ + 1 < x := by
      rintro ⟨b, hb, hlo, -⟩
      have := hc b hb
      omega
    rw [gaps, covers_append, hfirst, ih hrest fun a ha => hproper a (mem_cons_of_mem _ ha),
      covers_cons, exists_mem_cons_iff]
    simp only [Contains]
    by_cases hcov : Covers rest x
    · have := hlater hcov
      simp only [hcov, not_true_eq_false, and_false, or_false, or_true, iff_false]
      omega
    · by_cases hbefore : ∃ a ∈ rest, x < a.start
      · simp only [hcov, hbefore, not_false_eq_true, and_true, true_and, or_true, or_false]
        omega
      · simp only [hcov, hbefore, not_false_eq_true, and_true, or_false]
        omega

theorem separated_gaps (hproper : Proper l) : Separated 0 (gaps hi pos l) := by
  induction l generalizing pos with
  | nil =>
    rw [gaps]
    split
    · exact pairwise_singleton _ _
    · exact List.Pairwise.nil
  | cons c rest ih =>
    have hproper' : Proper rest := fun a ha => hproper a (mem_cons_of_mem _ ha)
    have hpc := hproper c mem_cons_self
    rw [gaps]
    split
    case isTrue hlt =>
      refine pairwise_cons.mpr ⟨fun g hg => ?_, ih hproper'⟩
      have hge := (start_le_of_mem_gaps hg).1
      dsimp only
      omega
    case isFalse => exact ih hproper'

theorem Separated.not_covers_before (h : Separated 0 l) (hproper : Proper l) {a : Span} (ha : a ∈ l)
    (hpos : 0 < a.start) : ¬ Covers l (a.start - 1) := by
  rintro ⟨b, hb, hlo, hhi⟩
  have hpa := hproper a ha
  rcases h.trichotomy ha hb with rfl | hafter | hbefore <;> omega

theorem covers_gaps_exact_iff (hsep : Separated 0 l) (hproper : Proper l) (hpos : pos ≤ hi) :
    (∀ x, Covers (gaps hi pos l) x ↔ (pos ≤ x ∧ x ≤ hi) ∧ ¬ Covers l x) ↔
      ∀ a ∈ l, a.start ≤ hi + 1 := by
  constructor
  · intro hexact a ha
    by_contra hfar
    have hfree := hsep.not_covers_before hproper ha (by omega)
    have hgap : Covers (gaps hi pos l) (a.start - 1) :=
      (covers_gaps_iff hsep hproper _).mpr ⟨by omega, Or.inr ⟨a, ha, by omega⟩, hfree⟩
    obtain ⟨⟨-, hle⟩, -⟩ := (hexact _).mp hgap
    omega
  · intro hnear x
    have hpast : (∃ a ∈ l, x < a.start) → x ≤ hi := by
      rintro ⟨a, ha, hlt⟩
      have := hnear a ha
      omega
    rw [covers_gaps_iff hsep hproper, or_iff_left_of_imp hpast, and_assoc]

theorem Separated.ascending (h : Separated t l) (hproper : Proper l) : Ascending l := by
  refine List.Pairwise.imp_of_mem ?_ h
  intro a b ha _ hab
  have := hproper a ha
  omega

end Span

end HybridCache.Lib
