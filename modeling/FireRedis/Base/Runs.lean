import Mathlib.Logic.Relation

/-!
# Guarded runs

A system takes a labelled step or refuses it. A guard says which labels a run
may take, so that a condition on the steps of a run is a condition on the states
before them.
-/

namespace System

variable {σ A : Type} (step : σ → A → Option σ) (guard : σ → A → Prop)

def Step (s s' : σ) : Prop := ∃ a, guard s a ∧ step s a = some s'

abbrev Runs (s s' : σ) : Prop := Relation.ReflTransGen (Step step guard) s s'

variable {step guard}

theorem runs_induction {I : σ → Prop} {s s' : σ} (hinit : I s)
    (hstep : ∀ s a s', I s → guard s a → step s a = some s' → I s') (h : Runs step guard s s') :
    I s' := by
  induction h with
  | refl => exact hinit
  | tail _ hlast ih =>
    obtain ⟨a, hguard, ha⟩ := hlast
    exact hstep _ a _ ih hguard ha

/-! ### A run given by its labels -/

variable (step guard)

def follow : List A → σ → Option σ
  | [], s => some s
  | a :: as, s => (step s a).bind (follow as)

/-- The guard lets every label of the list pass. -/
def Allowed : List A → σ → Prop
  | [], _ => True
  | a :: as, s => guard s a ∧
    match step s a with
    | some s' => Allowed as s'
    | none => True

variable {step guard}

theorem allowed_all (as : List A) (s : σ) : Allowed step (fun _ _ => True) as s := by
  induction as generalizing s with
  | nil => trivial
  | cons a as ih =>
    refine ⟨trivial, ?_⟩
    cases step s a with
    | some s' => exact ih s'
    | none => trivial

theorem runs_follow {as : List A} {s s' : σ} (hallowed : Allowed step guard as s)
    (h : follow step as s = some s') : Runs step guard s s' := by
  induction as generalizing s with
  | nil => exact Option.some.inj h ▸ .refl
  | cons a as ih =>
    obtain ⟨s₁, hfirst, hrest⟩ := Option.bind_eq_some_iff.mp h
    obtain ⟨hguard, hlater⟩ := hallowed
    rw [hfirst] at hlater
    exact .head ⟨a, hguard, hfirst⟩ (ih hlater hrest)

theorem eq_of_follow {B : Type} {f : σ → B} {b : B} {as : List A} {s s' : σ}
    (h : follow step as s = some s') (hf : (follow step as s).map f = some b) : f s' = b := by
  rw [h] at hf
  exact Option.some.inj hf

end System
