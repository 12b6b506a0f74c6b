import Mathlib

/-!
# Extensional maps and sets filled from lists

A map or set filled from any enumeration of another one is that one, whatever
the order of the enumeration. Relations between what a map has for a key are
relations between options.
-/

open Std

namespace Std

section Sets

variable {α : Type} {cmp : α → α → Ordering} [TransCmp cmp]

theorem ExtTreeSet.isEmpty_eq_false_iff_exists [LawfulEqCmp cmp] (S : ExtTreeSet α cmp) :
    S.isEmpty = false ↔ ∃ a, a ∈ S := by
  rw [ExtTreeSet.isEmpty_eq_false_iff]
  constructor
  · intro h
    by_contra hn
    exact h (ExtTreeSet.ext_mem fun a => ⟨fun ha => absurd ⟨a, ha⟩ hn, fun ha => by simp at ha⟩)
  · rintro ⟨a, ha⟩ rfl
    simp at ha

theorem ExtTreeSet.mem_foldl_insert [LawfulEqCmp cmp] (items : List α) (S : ExtTreeSet α cmp)
    (a : α) : a ∈ items.foldl (fun S b => S.insert b) S ↔ a ∈ items ∨ a ∈ S := by
  induction items generalizing S with
  | nil => simp
  | cons b items ih =>
    rw [List.foldl_cons, ih, ExtTreeSet.mem_insert, List.mem_cons, LawfulEqCmp.compare_eq_iff_eq]
    tauto

theorem ExtTreeSet.foldl_insert_perm [LawfulEqCmp cmp] (S : ExtTreeSet α cmp) (items : List α)
    (h : items.Perm S.toList) : items.foldl (fun S b => S.insert b) ∅ = S := by
  apply ExtTreeSet.ext_mem
  intro a
  rw [ExtTreeSet.mem_foldl_insert, h.mem_iff, ExtTreeSet.mem_toList]
  simp

theorem ExtTreeSet.nodup_toList [LawfulEqCmp cmp] (S : ExtTreeSet α cmp) : S.toList.Nodup :=
  ExtTreeSet.distinct_toList.imp fun h heq => h (LawfulEqCmp.compare_eq_iff_eq.mpr heq)

theorem ExtTreeSet.perm_toList [LawfulEqCmp cmp] {S : ExtTreeSet α cmp} {items : List α}
    (hnodup : items.Nodup) (hmem : ∀ a, a ∈ items ↔ a ∈ S) : items.Perm S.toList := by
  rw [List.perm_ext_iff_of_nodup hnodup S.nodup_toList]
  intro a
  rw [hmem, ExtTreeSet.mem_toList]

theorem ExtTreeSet.mem_erase_toList [LawfulEqCmp cmp] {S : ExtTreeSet α cmp} {a b : α} :
    b ∈ (S.erase a).toList ↔ a ≠ b ∧ b ∈ S := by
  rw [ExtTreeSet.mem_toList, ExtTreeSet.mem_erase, ne_eq, LawfulEqCmp.compare_eq_iff_eq]

end Sets

section Maps

variable {α β : Type} {cmp : α → α → Ordering} [TransCmp cmp]

theorem ExtTreeMap.isEmpty_eq_false_iff_exists [LawfulEqCmp cmp] (m : ExtTreeMap α β cmp) :
    m.isEmpty = false ↔ ∃ (a : α) (b : β), m[a]? = some b := by
  rw [ExtTreeMap.isEmpty_eq_false_iff]
  constructor
  · intro h
    by_contra hn
    apply h
    apply ExtTreeMap.ext_getElem?
    intro a
    cases hb : m[a]? with
    | none => simp
    | some b => exact absurd ⟨a, b, hb⟩ hn
  · rintro ⟨a, b, hb⟩ rfl
    simp at hb

theorem ExtTreeMap.getElem?_foldl_insert [LawfulEqCmp cmp] (items : List (α × β))
    (h : (items.map Prod.fst).Nodup) (m : ExtTreeMap α β cmp) (a : α) (b : β) :
    (items.foldl (fun m e => m.insert e.1 e.2) m)[a]? = some b ↔
      (a, b) ∈ items ∨ (a ∉ items.map Prod.fst ∧ m[a]? = some b) := by
  induction items generalizing m with
  | nil => simp
  | cons e items ih =>
    obtain ⟨hne, htail⟩ := List.nodup_cons.mp h
    rw [List.foldl_cons, ih htail, ExtTreeMap.getElem?_insert]
    obtain ⟨k, v⟩ := e
    by_cases hka : k = a
    · subst hka
      have hne : k ∉ items.map Prod.fst := hne
      have hnot : ∀ x, (k, x) ∉ items := fun x hx => hne (List.mem_map.mpr ⟨(k, x), hx, rfl⟩)
      simp only [ReflCmp.compare_self, ite_true, Option.some.injEq, hnot, false_or, hne,
        not_false_eq_true, true_and, List.mem_cons, Prod.mk.injEq, or_false, List.map_cons,
        not_true, false_and]
      exact eq_comm
    · have hcmp : ¬ cmp k a = .eq := fun h => hka (LawfulEqCmp.eq_of_compare h)
      simp only [hcmp, ite_false, List.mem_cons, Prod.mk.injEq, Ne.symm hka, false_and, false_or,
        List.map_cons]

section FoldInsert

variable [LawfulEqCmp cmp] {γ : Type} (key : γ → α) (val : γ → β)

theorem ExtTreeMap.getElem?_insertAll_ne {items : List γ} {a : α} (h : a ∉ items.map key)
    (m : ExtTreeMap α β cmp) :
    (items.foldl (fun m e => m.insert (key e) (val e)) m)[a]? = m[a]? := by
  induction items generalizing m with
  | nil => rfl
  | cons e items ih =>
    rw [List.map_cons, List.mem_cons, not_or] at h
    rw [List.foldl_cons, ih h.2, ExtTreeMap.getElem?_insert,
      if_neg fun hcmp => h.1 (LawfulEqCmp.eq_of_compare hcmp).symm]

theorem ExtTreeMap.mem_insertAll (items : List γ) (m : ExtTreeMap α β cmp) (a : α) :
    a ∈ items.foldl (fun m e => m.insert (key e) (val e)) m ↔ a ∈ items.map key ∨ a ∈ m := by
  induction items generalizing m with
  | nil => simp
  | cons e items ih =>
    rw [List.foldl_cons, ih, ExtTreeMap.mem_insert, LawfulEqCmp.compare_eq_iff_eq, List.map_cons,
      List.mem_cons, eq_comm, or_left_comm, or_assoc]

/-- The last insertion under a key decides, whatever was there before. -/
theorem ExtTreeMap.getElem?_insertAll_mem {items : List γ} {a : α} (h : a ∈ items.map key)
    (m m' : ExtTreeMap α β cmp) :
    (items.foldl (fun m e => m.insert (key e) (val e)) m)[a]? =
      (items.foldl (fun m e => m.insert (key e) (val e)) m')[a]? := by
  induction items generalizing m m' with
  | nil => cases h
  | cons e items ih =>
    by_cases hrest : a ∈ items.map key
    · exact ih hrest _ _
    · obtain rfl : a = key e := by
        rw [List.map_cons, List.mem_cons] at h
        exact h.resolve_right hrest
      rw [List.foldl_cons, List.foldl_cons, getElem?_insertAll_ne key val hrest,
        getElem?_insertAll_ne key val hrest, ExtTreeMap.getElem?_insert_self,
        ExtTreeMap.getElem?_insert_self]

/-- Insertions that later ones overwrite leave no trace. -/
theorem ExtTreeMap.insertAll_overwritten {early late : List γ}
    (h : ∀ e ∈ early, key e ∈ late.map key) (m : ExtTreeMap α β cmp) :
    (early ++ late).foldl (fun m e => m.insert (key e) (val e)) m =
      late.foldl (fun m e => m.insert (key e) (val e)) m := by
  apply ExtTreeMap.ext_getElem?
  intro a
  rw [List.foldl_append]
  by_cases hlate : a ∈ late.map key
  · exact getElem?_insertAll_mem key val hlate _ _
  · have hearly : a ∉ early.map key := by
      intro ha
      obtain ⟨e, he, rfl⟩ := List.mem_map.mp ha
      exact hlate (h e he)
    rw [getElem?_insertAll_ne key val hlate, getElem?_insertAll_ne key val hlate,
      getElem?_insertAll_ne key val hearly]

/-- Only then do the later insertions reach every key. -/
theorem ExtTreeMap.overwritten_of_mem {early late : List γ}
    (h : ∀ a, a ∈ (early ++ late).foldl (fun m e => m.insert (key e) (val e))
        (∅ : ExtTreeMap α β cmp) →
      a ∈ late.foldl (fun m e => m.insert (key e) (val e)) (∅ : ExtTreeMap α β cmp)) :
    ∀ e ∈ early, key e ∈ late.map key := by
  intro e he
  have hmem := (mem_insertAll key val (early ++ late) (∅ : ExtTreeMap α β cmp) (key e)).mpr
    (Or.inl (List.mem_map_of_mem (List.mem_append_left late he)))
  exact ((mem_insertAll key val late (∅ : ExtTreeMap α β cmp) (key e)).mp (h _ hmem)).resolve_right
    ExtTreeMap.not_mem_empty

theorem ExtTreeMap.contains_insert_eq [DecidableEq α] (m : ExtTreeMap α β cmp) (a b : α) (v : β) :
    (m.insert a v).contains b = (decide (b = a) || m.contains b) := by
  rw [ExtTreeMap.contains_insert]
  congr 1
  rw [Bool.eq_iff_iff, beq_iff_eq, LawfulEqCmp.compare_eq_iff_eq, decide_eq_true_iff, eq_comm]

end FoldInsert

theorem ExtTreeMap.nodup_fst_toList [LawfulEqCmp cmp] (m : ExtTreeMap α β cmp)
    (items : List (α × β)) (h : items.Perm m.toList) : (items.map Prod.fst).Nodup := by
  have hd := ExtTreeMap.distinct_keys_toList (t := m)
  rw [(h.map Prod.fst).nodup_iff, List.nodup_iff_pairwise_ne, List.pairwise_map]
  apply hd.imp
  intro a b hab heq
  exact hab (by rw [heq]; exact ReflCmp.compare_self)

theorem ExtTreeMap.foldl_insert_perm [LawfulEqCmp cmp] (m : ExtTreeMap α β cmp)
    (items : List (α × β)) (h : items.Perm m.toList) :
    items.foldl (fun m e => m.insert e.1 e.2) ∅ = m := by
  apply ExtTreeMap.ext_getElem?
  intro a
  apply Option.ext
  intro b
  rw [ExtTreeMap.getElem?_foldl_insert items (nodup_fst_toList m items h), h.mem_iff,
    ExtTreeMap.mem_toList_iff_getElem?_eq_some]
  simp

theorem ExtTreeMap.getElem?_alter_ne [LawfulEqCmp cmp] (m : ExtTreeMap α β cmp)
    (f : Option β → Option β) {a b : α} (hne : a ≠ b) : (m.alter a f)[b]? = m[b]? := by
  rw [ExtTreeMap.getElem?_alter, if_neg fun h => hne (LawfulEqCmp.compare_eq_iff_eq.mp h)]

theorem ExtTreeMap.alter_comm [LawfulEqCmp cmp] (m : ExtTreeMap α β cmp)
    (f g : Option β → Option β) {a b : α} (hne : a ≠ b) :
    (m.alter a f).alter b g = (m.alter b g).alter a f := by
  apply ExtTreeMap.ext_getElem?
  intro k
  rcases eq_or_ne a k with rfl | ha
  · rw [ExtTreeMap.getElem?_alter_ne _ g hne.symm, ExtTreeMap.getElem?_alter_self,
      ExtTreeMap.getElem?_alter_self, ExtTreeMap.getElem?_alter_ne _ g hne.symm]
  · rw [ExtTreeMap.getElem?_alter_ne _ f ha]
    rcases eq_or_ne b k with rfl | hb
    · rw [ExtTreeMap.getElem?_alter_self, ExtTreeMap.getElem?_alter_self,
        ExtTreeMap.getElem?_alter_ne _ f ha]
    · rw [ExtTreeMap.getElem?_alter_ne _ g hb, ExtTreeMap.getElem?_alter_ne _ g hb,
        ExtTreeMap.getElem?_alter_ne _ f ha]

end Maps

end Std

/-! ### Related options -/

namespace Option

variable {α β γ : Type} {r : α → β → Prop} {q : β → γ → Prop} {x : Option α} {y : Option β}
  {z : Option γ}

theorem Rel.symm (h : Rel r x y) : Rel (fun b a => r a b) y x := by
  cases h with
  | none => exact .none
  | some hab => exact .some hab

theorem Rel.comp (h : Rel r x y) (h' : Rel q y z) : Rel (fun a c => ∃ b, r a b ∧ q b c) x z := by
  cases h with
  | none =>
    cases h'
    exact .none
  | some hab =>
    cases h' with
    | some hbc => exact .some ⟨_, hab, hbc⟩

theorem Rel.imp {r' : α → β → Prop} (h : Rel r x y)
    (himp : ∀ a b, x = Option.some a → r a b → r' a b) : Rel r' x y := by
  cases h with
  | none => exact .none
  | some hab => exact .some (himp _ _ rfl hab)

end Option
