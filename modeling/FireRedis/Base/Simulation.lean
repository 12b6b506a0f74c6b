import Mathlib.Order.Defs.PartialOrder

/-!
# Machines whose events a specification allows

A machine takes labels at non-decreasing times; a step may show an event. A
specification says from which state to which an event leads, and does not see
steps that show nothing. A relation between the two that steps keep explains the
events of every run.
-/

namespace Simulation

variable {σ τ L E T : Type}

/-- The events that a list of labels shows, and the state it leads to. -/
def events (step : σ → L → Option E × σ) : List L → σ → List E × σ
  | [], s => ([], s)
  | l :: ls, s =>
    let rest := events step ls (step s l).2
    ((step s l).1.toList ++ rest.1, rest.2)

/-- Every event is shown by a step of one of the labels. -/
theorem label_of_mem {step : σ → L → Option E × σ} {ls : List L} {s : σ} {e : E}
    (h : e ∈ (events step ls s).1) : ∃ l ∈ ls, ∃ s', (step s' l).1 = some e := by
  induction ls generalizing s with
  | nil => cases h
  | cons l ls ih =>
    rcases List.mem_append.mp h with h | h
    · exact ⟨l, List.mem_cons_self .., s, Option.mem_toList.mp h⟩
    · obtain ⟨k, hk, hstep⟩ := ih h
      exact ⟨k, List.mem_cons_of_mem _ hk, hstep⟩

/-- The condition holds of every label and the state that it meets. -/
def Along (step : σ → L → Option E × σ) (ok : σ → L → Prop) : List L → σ → Prop
  | [], _ => True
  | l :: ls, s => ok s l ∧ Along step ok ls (step s l).2

theorem along_of_forall {step : σ → L → Option E × σ} {ok : σ → L → Prop} {ls : List L}
    (h : ∀ l ∈ ls, ∀ s, ok s l) (s : σ) : Along step ok ls s := by
  induction ls generalizing s with
  | nil => trivial
  | cons l ls ih =>
    exact ⟨h l (List.mem_cons_self ..) s, ih (fun k hk => h k (List.mem_cons_of_mem _ hk)) _⟩

inductive Allows (spec : τ → E → τ → Prop) : τ → List E → τ → Prop
  | nil (x : τ) : Allows spec x [] x
  | cons {x y z : τ} {e : E} {es : List E} (h : spec x e y) (hs : Allows spec y es z) :
    Allows spec x (e :: es) z

theorem Allows.append {spec : τ → E → τ → Prop} {x y z : τ} {es fs : List E}
    (h : Allows spec x es y) (h' : Allows spec y fs z) : Allows spec x (es ++ fs) z := by
  induction h with
  | nil x => exact h'
  | cons hfirst _ ih => exact .cons hfirst (ih h')

/-- What a specification computes from the events alone. -/
theorem Allows.both {ρ : Type} {spec : τ → E → τ → Prop} {f : ρ → E → ρ} {x y : τ × ρ}
    {es : List E} (h : Allows (fun x e y => spec x.1 e y.1 ∧ y.2 = f x.2 e) x es y) :
    Allows spec x.1 es y.1 ∧ y.2 = es.foldl f x.2 := by
  induction h with
  | nil x => exact ⟨.nil x.1, rfl⟩
  | cons hfirst _ ih =>
    obtain ⟨hallows, hfold⟩ := ih
    refine ⟨.cons hfirst.1 hallows, ?_⟩
    rw [List.foldl_cons, ← hfirst.2]
    exact hfold

theorem Allows.withFold {ρ : Type} {spec : τ → E → τ → Prop} {f : ρ → E → ρ} {x y : τ}
    {es : List E} (h : Allows spec x es y) (r : ρ) :
    Allows (fun x e y => spec x.1 e y.1 ∧ y.2 = f x.2 e) (x, r) es (y, es.foldl f r) := by
  induction h generalizing r with
  | nil x => exact .nil (x, r)
  | @cons _ y₁ _ e _ hfirst _ ih => exact .cons (y := (y₁, f r e)) ⟨hfirst, rfl⟩ (ih (f r e))

section Steps

variable {step : σ → L → Option E × σ} {ok : σ → L → Prop} {spec : τ → E → τ → Prop} [Preorder T]
  {time : L → T} {R : T → σ → τ → Prop}

/-- `R t s x`: from `t` on, the state `s` is one of the specification's `x`. -/
theorem allows_along {ls : List L}
    (hstep : ∀ l ∈ ls, ∀ t s x, ok s l → R t s x → t ≤ time l → ∃ x',
      Allows spec x (step s l).1.toList x' ∧ R (time l) (step s l).2 x')
    (hmono : ls.Pairwise fun l l' => time l ≤ time l') {t : T} (ht : ∀ l ∈ ls, t ≤ time l) {s : σ}
    (hok : Along step ok ls s) {x : τ} (hR : R t s x) :
    ∃ x', Allows spec x (events step ls s).1 x' ∧
      ∃ t', (t' = t ∨ ∃ l ∈ ls, t' = time l) ∧ R t' (events step ls s).2 x' := by
  induction ls generalizing t s x with
  | nil => exact ⟨x, .nil x, t, Or.inl rfl, hR⟩
  | cons l ls ih =>
    obtain ⟨hfirst, hothers⟩ := hok
    obtain ⟨hlater, htail⟩ := List.pairwise_cons.mp hmono
    obtain ⟨hhead, hrest⟩ := List.forall_mem_cons.mp hstep
    obtain ⟨y, hfirst, hR'⟩ := hhead t s x hfirst hR (ht l (List.mem_cons_self ..))
    obtain ⟨z, hallows, t', ht', hend⟩ := ih hrest htail hlater hothers hR'
    refine ⟨z, hfirst.append hallows, t', Or.inr ?_, hend⟩
    rcases ht' with rfl | ⟨k, hk, rfl⟩
    · exact ⟨l, List.mem_cons_self .., rfl⟩
    · exact ⟨k, List.mem_cons_of_mem _ hk, rfl⟩

theorem allows_events {ls : List L}
    (hstep : ∀ l ∈ ls, ∀ t s x, R t s x → t ≤ time l → ∃ x',
      Allows spec x (step s l).1.toList x' ∧ R (time l) (step s l).2 x')
    (hmono : ls.Pairwise fun l l' => time l ≤ time l') {t : T} (ht : ∀ l ∈ ls, t ≤ time l) {s : σ}
    {x : τ} (hR : R t s x) : ∃ x', Allows spec x (events step ls s).1 x' ∧
      ∃ t', (t' = t ∨ ∃ l ∈ ls, t' = time l) ∧ R t' (events step ls s).2 x' :=
  allows_along (fun l hl t s x _ => hstep l hl t s x) hmono ht
    (along_of_forall (fun _ _ _ => trivial) s) hR

end Steps

end Simulation
