/-
The bytes of each class (`TopKTracker` in `bandwidth_limiter.rs`).

A class that comes when all `cap` places are taken gets the place of the one with the least bytes
and goes on from its count, which is added to the residual as well. So the counts alone add up to
the bytes recorded, and the residual is the sum of the counts replaced, as far as 64 bits hold it.
No count is above the bytes recorded, so the counts have no bound in the model. A call is given the
order in which it meets the classes.
-/
import HybridCache.Lib.Directory
import HybridCache.Lib.Transition
import Mathlib.Data.List.MinMax

namespace HybridCache.Bandwidth

open Lib

structure TopKTracker where
  cap : ℕ
  classes : Directory String ℕ
  residual : UInt64

structure RecordCall where
  label : String
  bytes : ℕ
  order : List (String × ℕ)

open Directory

namespace TopKTracker

def new (cap : ℕ) : TopKTracker :=
  ⟨max cap 1, .empty, 0⟩

def record (t : TopKTracker) (call : RecordCall) : TopKTracker :=
  match t.classes.get? call.label with
  | some count => { t with classes := t.classes.put call.label (count + call.bytes) }
  | none =>
    if t.classes.entries.length < t.cap then
      { t with classes := t.classes.put call.label call.bytes }
    else
      match call.order.argmin Prod.snd with
      | some (min_key, min_count) =>
        { t with
          residual := t.residual + .ofNat min_count
          classes := (t.classes.erase min_key).put call.label (min_count + call.bytes) }
      | none => { t with residual := t.residual + .ofNat call.bytes }

def step (t : TopKTracker) (call : RecordCall) : Option TopKTracker :=
  if call.order.Perm t.classes.entries then some (t.record call) else none

def counted (t : TopKTracker) : ℕ :=
  t.classes.total id

/-- The counts replaced along a run: a new class that finds no place takes the least one. -/
def replaced (t : TopKTracker) : List RecordCall → List ℕ
  | [] => []
  | call :: calls =>
    let rest := (t.record call).replaced calls
    if t.classes.get? call.label = none ∧ t.cap ≤ t.classes.entries.length then
      (t.classes.entries.map Prod.snd).min?.getD 0 :: rest
    else rest

/-- The classes fit their places, and there is one. -/
structure Fits (t : TopKTracker) : Prop where
  pos : 0 < t.cap
  length_le : t.classes.entries.length ≤ t.cap

section Record

variable {t t' : TopKTracker} {call : RecordCall}

theorem min?_of_argmin {entries order : List (String × ℕ)} {entry : String × ℕ}
    (horder : order.Perm entries) (hmin : order.argmin Prod.snd = some entry) :
    (entries.map Prod.snd).min? = some entry.2 := by
  refine List.min?_eq_some_iff.mpr ⟨?_, fun n hn => ?_⟩
  · exact List.mem_map_of_mem (horder.subset (List.argmin_mem hmin))
  · obtain ⟨other, hother, rfl⟩ := List.mem_map.mp hn
    exact List.le_of_mem_argmin (horder.symm.subset hother) hmin

theorem record_cases (ht : t.Fits) (h : t.step call = some t') :
    (∃ count, t.classes.get? call.label = some count ∧
      t' = { t with classes := t.classes.put call.label (count + call.bytes) }) ∨
    t.classes.get? call.label = none ∧
      ((t.classes.entries.length < t.cap ∧
        t' = { t with classes := t.classes.put call.label call.bytes }) ∨
      (t.cap ≤ t.classes.entries.length ∧ ∃ min_key min_count,
        t.classes.get? min_key = some min_count ∧
        (t.classes.entries.map Prod.snd).min? = some min_count ∧
        t' = { t with
          residual := t.residual + .ofNat min_count
          classes := (t.classes.erase min_key).put call.label (min_count + call.bytes) })) := by
  unfold step at h
  split_ifs at h with horder
  cases h
  unfold record
  cases hget : t.classes.get? call.label with
  | some count => exact .inl ⟨count, rfl, rfl⟩
  | none =>
    by_cases hroom : t.classes.entries.length < t.cap
    · exact .inr ⟨rfl, .inl ⟨hroom, if_pos hroom⟩⟩
    · refine .inr ⟨rfl, .inr ⟨Nat.le_of_not_lt hroom, ?_⟩⟩
      rw [if_neg hroom]
      cases hmin : call.order.argmin Prod.snd with
      | none =>
        -- the table is full, so it is not empty
        rw [List.argmin_eq_none] at hmin
        have hlength := horder.length_eq
        rw [hmin, List.length_nil] at hlength
        have := ht.pos
        omega
      | some entry =>
        have hmem : entry ∈ t.classes.entries := horder.subset (List.argmin_mem hmin)
        exact ⟨entry.1, entry.2, get?_of_mem hmem, min?_of_argmin horder hmin, rfl⟩

theorem length_put_of_none {d : Directory String ℕ} {label : String} (h : d.get? label = none)
    (n : ℕ) : (d.put label n).entries.length = d.entries.length + 1 := by
  have hkeys := congrArg List.length (keys_put_of_none h n)
  rwa [keys, List.length_map, List.length_cons, keys, List.length_map] at hkeys

theorem get?_erase_of_none {d : Directory String ℕ} {label : String} (h : d.get? label = none)
    (key : String) : (d.erase key).get? label = none := by
  rw [get?_erase, h, ite_self]

theorem Fits.step (ht : t.Fits) (h : t.step call = some t') : t'.Fits := by
  refine ⟨?_, ?_⟩
  · rcases record_cases ht h with ⟨_, _, rfl⟩ |
      ⟨_, ⟨_, rfl⟩ | ⟨_, _, _, _, _, rfl⟩⟩ <;> exact ht.pos
  · rcases record_cases ht h with ⟨count, hget, rfl⟩ |
      ⟨hget, ⟨hroom, rfl⟩ | ⟨_, key, n, hkey, _, rfl⟩⟩
    · have hkeys := (keys_put_perm (by rw [hget]; rfl) (count + call.bytes)).length_eq
      rw [keys, List.length_map, keys, List.length_map] at hkeys
      exact hkeys.trans_le ht.length_le
    · exact (length_put_of_none hget _).trans_le hroom
    · rw [length_put_of_none (get?_erase_of_none hget key)]
      exact (length_erase_lt hkey).trans_le ht.length_le

theorem counted_step (ht : t.Fits) (h : t.step call = some t') :
    t'.counted = t.counted + call.bytes := by
  unfold counted
  rcases record_cases ht h with ⟨count, hget, rfl⟩ | ⟨hget, ⟨_, rfl⟩ | ⟨_, key, n, hkey, _, rfl⟩⟩
  · have hput := total_put id t.classes call.label (count + call.bytes)
    rw [measure_of_get? id hget, id, id] at hput
    dsimp only
    omega
  · have hput := total_put id t.classes call.label call.bytes
    rw [measure_of_none id hget] at hput
    exact hput
  · have hput := total_put id (t.classes.erase key) call.label (n + call.bytes)
    have herase := total_erase id t.classes key
    rw [measure_of_none id (get?_erase_of_none hget key), id] at hput
    rw [measure_of_get? id hkey, id] at herase
    dsimp only
    omega

theorem residual_step (ht : t.Fits) (h : t.step call = some t') (calls : List RecordCall) :
    t'.residual + .ofNat (t'.replaced calls).sum =
      t.residual + .ofNat (t.replaced (call :: calls)).sum := by
  have hrecord : t.record call = t' := by
    unfold step at h
    split_ifs at h
    exact Option.some.inj h
  rw [replaced, hrecord]
  rcases record_cases ht h with ⟨count, hget, rfl⟩ |
    ⟨hget, ⟨hroom, rfl⟩ | ⟨hfull, _, n, _, hn, rfl⟩⟩
  · simp [hget]
  · simp [hroom.not_ge]
  · simp [hget, hfull, hn, UInt64.ofNat_add, UInt64.add_assoc]

end Record

theorem fits_new (cap : ℕ) : (new cap).Fits := ⟨lt_max_of_lt_right Nat.one_pos, Nat.zero_le _⟩

theorem residual_run {t t' : TopKTracker} (ht : t.Fits) {calls : List RecordCall}
    (hrun : run step t calls = some t') :
    t'.residual = t.residual + .ofNat (t.replaced calls).sum := by
  induction calls generalizing t with
  | nil =>
    cases hrun
    exact (UInt64.add_zero _).symm
  | cons call calls ih =>
    obtain ⟨t₁, hstep, hrest⟩ := Option.bind_eq_some_iff.mp hrun
    rw [ih (ht.step hstep) hrest, residual_step ht hstep]

/-- **The counts add up to the bytes recorded**, and the residual to the counts replaced. -/
theorem counted_eq_recorded (cap : ℕ) (calls : List RecordCall) (t : TopKTracker)
    (hrun : run step (new cap) calls = some t) :
    t.counted = (calls.map RecordCall.bytes).sum ∧
      t.residual = .ofNat ((new cap).replaced calls).sum := by
  have hcounted := @run_sum _ _ step (fun _ _ => True) _ _ Fits counted RecordCall.bytes
    (fun _ _ _ ht _ h => ht.step h) (fun _ _ _ ht _ h => counted_step ht h) _ _ _ (fits_new cap)
    (guarded_of_forall fun _ _ => trivial) hrun
  rw [show (new cap).counted = 0 from rfl, Nat.zero_add] at hcounted
  exact ⟨hcounted, (residual_run (fits_new cap) hrun).trans (UInt64.zero_add _)⟩

/-- Three classes for two places. -/
def three_classes : List RecordCall :=
  [⟨"a", 1000, []⟩, ⟨"b", 2000, [("a", 1000)]⟩, ⟨"c", 3000, [("b", 2000), ("a", 1000)]⟩]

/-- The first class is replaced, and its bytes are counted twice. -/
theorem replaced_bytes_counted_twice :
    ∃ t, run step (new 2) three_classes = some t ∧
      (three_classes.map RecordCall.bytes).sum = 6000 ∧ t.counted = 6000 ∧ t.residual = 1000 ∧
      t.counted + t.residual.toNat ≠ (three_classes.map RecordCall.bytes).sum := by
  refine ⟨_, rfl, by decide, ?_, ?_, ?_⟩ <;> decide +kernel

theorem counted_eq_recorded_three :
    ∃ t, run step (new 2) three_classes = some t ∧ (new 2).replaced three_classes = [1000] ∧
      t.counted = (three_classes.map RecordCall.bytes).sum ∧
      t.residual = .ofNat ((new 2).replaced three_classes).sum :=
  ⟨_, rfl, by decide +kernel, counted_eq_recorded 2 three_classes _ rfl⟩

end TopKTracker

end HybridCache.Bandwidth
