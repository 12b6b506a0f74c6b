import Mathlib

/-!
# Folds that count what they change

A fold goes through a list of changes to a state and counts those that hit it:
insertions of something new, removals of something present.
-/

namespace Counted

variable {α β κ σ τ : Type}

/-- How many of the changes hit, and the state after them. -/
def counted (hit : σ → α → Bool) (step : σ → α → σ) (items : List α) (s : σ) : ℕ × σ :=
  items.foldl (fun r a => (if hit r.2 a then r.1 + 1 else r.1, step r.2 a)) (0, s)

section Fold

variable (hit : σ → α → Bool) (step : σ → α → σ)

/-- The same changes of wrapped states, with any way of counting up. -/
theorem foldl_wrap (wrap : σ → τ) (f : α → τ → Bool × τ)
    (h : ∀ a s, f a (wrap s) = (hit s a, wrap (step s a))) (inc : β → β) (items : List α)
    (b : β) (s : σ) :
    items.foldl (fun r a => (if (f a r.2).1 then inc r.1 else r.1, (f a r.2).2)) (b, wrap s) =
      (inc^[(counted hit step items s).1] b, wrap (counted hit step items s).2) := by
  -- The count is carried as a number of turns of `inc` already taken.
  have hturns : ∀ (n : ℕ) (s : σ), items.foldl
      (fun r a => (if (f a r.2).1 then inc r.1 else r.1, (f a r.2).2)) (inc^[n] b, wrap s) =
      let r := items.foldl (fun r a => (if hit r.2 a then r.1 + 1 else r.1, step r.2 a)) (n, s)
      (inc^[r.1] b, wrap r.2) := by
    induction items with
    | nil => exact fun n s => rfl
    | cons a items ih =>
      intro n s
      rw [List.foldl_cons, List.foldl_cons, h]
      cases hit s a with
      | true =>
        have hinc : inc (inc^[n] b) = inc^[n + 1] b := (Function.iterate_succ_apply' inc n b).symm
        rw [if_pos rfl, if_pos rfl, hinc]
        exact ih (n + 1) (step s a)
      | false => exact ih n (step s a)
  exact hturns 0 s

theorem foldl_counted (inc : β → β) (items : List α) (b : β) (s : σ) :
    items.foldl (fun r a => (if hit r.2 a then inc r.1 else r.1, step r.2 a)) (b, s) =
      (inc^[(counted hit step items s).1] b, (counted hit step items s).2) :=
  foldl_wrap hit step id (fun a s => (hit s a, step s a)) (fun _ _ => rfl) inc items b s

theorem counted_nil (s : σ) : counted hit step [] s = (0, s) := rfl

theorem counted_cons (a : α) (items : List α) (s : σ) :
    counted hit step (a :: items) s =
      ((if hit s a then 1 else 0) + (counted hit step items (step s a)).1,
        (counted hit step items (step s a)).2) := by
  rw [counted, List.foldl_cons, foldl_counted hit step Nat.succ]
  dsimp only
  rw [Nat.succ_iterate, Nat.zero_add]

theorem counted_append (xs ys : List α) (s : σ) :
    counted hit step (xs ++ ys) s =
      ((counted hit step xs s).1 + (counted hit step ys (counted hit step xs s).2).1,
        (counted hit step ys (counted hit step xs s).2).2) := by
  induction xs generalizing s with
  | nil => simp [counted_nil]
  | cons a xs ih => rw [List.cons_append, counted_cons, counted_cons, ih, Nat.add_assoc]

theorem counted_snd (items : List α) (s : σ) :
    (counted hit step items s).2 = items.foldl step s := by
  induction items generalizing s with
  | nil => rfl
  | cons a items ih => rw [counted_cons, List.foldl_cons, ih]

theorem counted_fixed {items : List α} {s : σ}
    (h : ∀ a ∈ items, hit s a = false ∧ step s a = s) : counted hit step items s = (0, s) := by
  induction items with
  | nil => rfl
  | cons a items ih =>
    obtain ⟨hmiss, hsame⟩ := h a (List.mem_cons_self ..)
    rw [counted_cons, hmiss, hsame, ih fun b hb => h b (List.mem_cons_of_mem _ hb)]
    rfl

end Fold

/-- Where a change hits if its key is open, and closes that key alone, each
different open key is counted once. -/
theorem counted_open [DecidableEq κ] {hit : σ → α → Bool} {step : σ → α → σ} (key : α → κ)
    (isOpen : σ → κ → Bool) (hhit : ∀ s a, hit s a = isOpen s (key a))
    (hstep : ∀ s a k, isOpen (step s a) k = (decide (k ≠ key a) && isOpen s k)) (items : List α)
    (s : σ) : (counted hit step items s).1 =
      ((items.map key).toFinset.filter fun k => isOpen s k = true).card := by
  induction items generalizing s with
  | nil => rfl
  | cons a items ih =>
    have hrest : ((items.map key).toFinset.filter fun k => isOpen (step s a) k = true) =
        ((items.map key).toFinset.filter fun k => isOpen s k = true).erase (key a) := by
      ext k
      simp only [Finset.mem_filter, Finset.mem_erase, hstep, Bool.and_eq_true, decide_eq_true_eq]
      tauto
    rw [counted_cons, hhit, ih, hrest, List.map_cons, List.toFinset_cons, Finset.filter_insert]
    cases hkey : isOpen s (key a) with
    | true =>
      have hinsert : ∀ T : Finset κ, insert (key a) T = insert (key a) (T.erase (key a)) := by
        intro T
        ext k
        simp only [Finset.mem_insert, Finset.mem_erase]
        tauto
      rw [if_pos rfl, if_pos rfl, hinsert, Finset.card_insert_of_notMem (Finset.notMem_erase _ _),
        Nat.add_comm]
    | false =>
      have hnot : key a ∉ (items.map key).toFinset.filter fun k => isOpen s k = true := by
        simp [hkey]
      rw [if_neg Bool.false_ne_true, if_neg Bool.false_ne_true, Finset.erase_eq_of_notMem hnot,
        Nat.zero_add]

end Counted
