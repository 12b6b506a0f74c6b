import Mathlib

/-!
# Windows of a list

The elements whose positions lie between two bounds, in list order. The bounds
are integers and need not be positions of the list; a position may be counted
from the end.
-/

namespace Window

variable {α : Type}

/-- Negative positions count from the end of `n` elements. -/
def fromEnd (n : ℕ) (i : ℤ) : ℤ := if i < 0 then n + i else i

/-- The elements at the positions from `first` to `last`. -/
def window (items : List α) (first last : ℤ) : List α :=
  (items.zipIdx.filter fun e => first ≤ e.2 ∧ (e.2 : ℤ) ≤ last).map Prod.fst

theorem zipIdx_window (items : List α) (first last : ℤ) (k : ℕ) :
    ((items.zipIdx k).filter fun e => first ≤ e.2 ∧ (e.2 : ℤ) ≤ last).map Prod.fst =
      (items.drop (first - k).toNat).take (last + 1 - max first k).toNat := by
  induction items generalizing k with
  | nil => simp
  | cons x items ih =>
    rw [List.zipIdx_cons, List.filter_cons]
    by_cases hfirst : first ≤ k
    · have hdrop : (first - k).toNat = 0 := by omega
      have hdrop' : (first - (k + 1 : ℕ)).toNat = 0 := by omega
      have hmax : max first k = k := max_eq_right hfirst
      have hmax' : max first (k + 1 : ℕ) = (k + 1 : ℕ) := max_eq_right (by omega)
      rw [hdrop, hmax, List.drop_zero]
      by_cases hlast : (k : ℤ) ≤ last
      · have htake : (last + 1 - k).toNat = (last + 1 - (k + 1 : ℕ)).toNat + 1 := by omega
        rw [if_pos (decide_eq_true ⟨hfirst, hlast⟩), List.map_cons, ih, hdrop', hmax',
          List.drop_zero, htake, List.take_succ_cons]
      · have htake : (last + 1 - k).toNat = 0 := by omega
        have htake' : (last + 1 - (k + 1 : ℕ)).toNat = 0 := by omega
        rw [if_neg (by simp [hlast]), ih, hdrop', hmax', htake, htake', List.take_zero,
          List.take_zero]
    · have hdrop : (first - k).toNat = (first - (k + 1 : ℕ)).toNat + 1 := by omega
      have hmax : max first k = max first (k + 1 : ℕ) := by omega
      rw [if_neg (by simp [hfirst]), ih, hdrop, hmax, List.drop_succ_cons]

theorem window_eq (items : List α) (first last : ℤ) :
    window items first last =
      (items.drop first.toNat).take (last + 1 - max first 0).toNat := by
  rw [window, zipIdx_window, Nat.cast_zero, sub_zero]

theorem map_window {β : Type} (f : α → β) (items : List α) (first last : ℤ) :
    (window items first last).map f = window (items.map f) first last := by
  rw [window_eq, window_eq, List.map_take, List.map_drop]

theorem window_all (items : List α) : window items 0 (items.length - 1) = items := by
  rw [window_eq]
  apply List.take_of_length_le
  simp

theorem window_clamp (items : List α) (first last : ℤ) :
    window items first (min last (items.length - 1)) = window items first last := by
  rw [window_eq, window_eq, List.take_eq_take_iff, List.length_drop]
  omega

theorem window_eq_nil_iff (items : List α) (first last : ℤ) :
    window items first last = [] ↔ last < max first 0 ∨ items.length ≤ max first 0 := by
  rw [window_eq, List.take_eq_nil_iff, List.drop_eq_nil_iff]
  omega

end Window
