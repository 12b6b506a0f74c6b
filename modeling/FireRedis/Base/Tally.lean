import Mathlib.Data.Set.Card
import Mathlib.Logic.Function.Basic

/-!
# How many of a family

Finitely many members of a family pass a test, and one of them changes at a time.
-/

namespace Tally
open Function

variable {ι σ : Type} {p : σ → Bool} {f : ι → σ} {a : σ}

def within (p : σ → Bool) (f : ι → σ) : Set ι := {c | p (f c) = true}

noncomputable def tally (p : σ → Bool) (f : ι → σ) : ℕ := (within p f).ncard

theorem within_const (h : p a = false) : within p (fun _ : ι => a) = ∅ := by
  ext c
  simp [within, h]

theorem tally_const (h : p a = false) : tally p (fun _ : ι => a) = 0 := by
  rw [tally, within_const h, Set.ncard_empty]

theorem finite_const (h : p a = false) : (within p fun _ : ι => a).Finite := by
  rw [within_const h]
  exact Set.finite_empty

/-- One member apart from all the others. -/
theorem tally_split (hfin : (within p f).Finite) (c : ι) :
    tally p f = (within p f \ {c}).ncard + (p (f c)).toNat := by
  cases hc : p (f c) with
  | true => exact (Set.ncard_sdiff_singleton_add_one (a := c) hc hfin).symm
  | false =>
    have hnot : c ∉ within p f := by simp [within, hc]
    rw [Set.sdiff_singleton_eq_self hnot]
    rfl

variable [DecidableEq ι]

theorem finite_update (hfin : (within p f).Finite) (c : ι) (a : σ) :
    (within p (update f c a)).Finite := by
  refine (hfin.insert c).subset fun c' hc' => ?_
  by_cases hne : c' = c
  · exact .inl hne
  · refine .inr ?_
    have hp : p (update f c a c') = true := hc'
    rwa [update_of_ne hne] at hp

theorem within_update_diff (c : ι) (a : σ) :
    within p (update f c a) \ {c} = within p f \ {c} := by
  ext c'
  by_cases hne : c' = c
  · simp [hne]
  · simp [within, hne]

/-- A member that changes leaves the tally with what it was and enters it with
what it becomes. -/
theorem tally_update (hfin : (within p f).Finite) (c : ι) (a : σ) :
    tally p (update f c a) + (p (f c)).toNat = tally p f + (p a).toNat := by
  have hsplit := tally_split (finite_update hfin c a) c
  rw [within_update_diff, update_self] at hsplit
  rw [hsplit, tally_split hfin c]
  omega

end Tally
