/-
Windows of a list.

`l.extract lo hi` is the half-open window `lo..hi` of `l`. Two facts are all a
cursor loop needs: adjacent windows concatenate, and a window of a window is a
window of the whole.
-/
import Mathlib.Data.List.Basic
import Mathlib.Tactic.Common

namespace HybridCache.Lib

open List

variable {α : Type} {hi lo : ℕ} {l : List α}

theorem length_extract : (l.extract lo hi).length = min (hi - lo) (l.length - lo) := by
  simp only [extract_eq_take_drop, length_take, length_drop]

theorem extract_self : l.extract lo lo = [] := by
  simp only [extract_eq_take_drop, Nat.sub_self, take_zero]

theorem extract_append_extract {mid : ℕ} (hlo : lo ≤ mid) (hhi : mid ≤ hi) :
    l.extract lo mid ++ l.extract mid hi = l.extract lo hi := by
  simp only [extract_eq_take_drop]
  have hsplit : hi - lo = (mid - lo) + (hi - mid) := by omega
  have hdrop : l.drop mid = (l.drop lo).drop (mid - lo) := by
    rw [drop_drop]
    congr 1
    omega
  rw [hsplit, hdrop, take_add]

theorem extract_extract {a b i j : ℕ} (hj : a + j ≤ b) :
    (l.extract a b).extract i j = l.extract (a + i) (a + j) := by
  simp only [extract_eq_take_drop]
  rw [drop_take, take_take, drop_drop]
  congr 1
  omega

end HybridCache.Lib
