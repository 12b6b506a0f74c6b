import FireRedis.Base.Counted
import FireRedis.Base.Maps

/-!
# Search trees read as finite sets and maps

A tree set is the finite set of its members, a tree map the finite map of its
bindings. Insertions, removals and sizes of the trees are those of the sets and
maps.
-/

namespace Std
open Counted

/-- Sorting by different keys leaves them in strict order. -/
theorem mergeSort_ascending {α γ : Type} [Ord α] [TransOrd α] [LawfulEqOrd α] (key : γ → α)
    {items : List γ} (h : (items.map key).Nodup) :
    ((items.mergeSort fun a b => (compare (key a) (key b)).isLE).map key).Pairwise
      fun a b => compare a b = .lt := by
  have hsorted : (items.mergeSort fun a b => (compare (key a) (key b)).isLE).Pairwise
      fun a b => (compare (key a) (key b)).isLE = true :=
    List.pairwise_mergeSort (fun _ _ _ => TransCmp.isLE_trans) (fun a b => by
      have hswap : compare (key b) (key a) = (compare (key a) (key b)).swap := OrientedCmp.eq_swap
      rw [hswap]
      cases compare (key a) (key b) <;> rfl) items
  have hnodup := ((List.mergeSort_perm items fun a b => (compare (key a) (key b)).isLE).map
    key).nodup_iff.mpr h
  rw [List.pairwise_map]
  refine (hsorted.and (List.pairwise_map.mp hnodup)).imp fun {a b} hab => ?_
  rcases hcmp : compare (key a) (key b) with _ | _ | _
  · rfl
  · exact absurd (LawfulEqCmp.eq_of_compare hcmp) hab.2
  · rw [hcmp] at hab
    cases hab.1

section Sets

variable {α : Type} {cmp : α → α → Ordering} [TransCmp cmp] [LawfulEqCmp cmp] [DecidableEq α]

omit [TransCmp cmp] in
theorem compare_beq_eq (a b : α) : (cmp a b == .eq) = decide (b = a) := by
  rw [Bool.eq_iff_iff, beq_iff_eq, decide_eq_true_iff, LawfulEqCmp.compare_eq_iff_eq, eq_comm]

namespace ExtTreeSet

def toFinset (S : ExtTreeSet α cmp) : Finset α := S.toList.toFinset

variable (S : ExtTreeSet α cmp)

@[simp] theorem mem_toFinset {a : α} : a ∈ S.toFinset ↔ a ∈ S := by
  rw [toFinset, List.mem_toFinset, mem_toList]

theorem contains_eq_decide (a : α) : S.contains a = decide (a ∈ S.toFinset) := by
  rw [Bool.eq_iff_iff, decide_eq_true_iff, mem_toFinset, contains_iff_mem]

theorem card_toFinset : S.toFinset.card = S.size := by
  rw [toFinset, List.toFinset_card_of_nodup S.nodup_toList, length_toList]

theorem toFinset_eq_empty : S.toFinset = ∅ ↔ S.isEmpty = true := by
  rw [← Finset.card_eq_zero, card_toFinset, isEmpty_eq_size_beq_zero, beq_iff_eq]

omit [LawfulEqCmp cmp] in
theorem toFinset_of_perm {S : ExtTreeSet α cmp} {items : List α} (h : items.Perm S.toList) :
    items.toFinset = S.toFinset := by
  ext a
  rw [toFinset, List.mem_toFinset, List.mem_toFinset, h.mem_iff]

theorem toFinset_insertAll (items : List α) :
    (items.foldl (fun S a => S.insert a) S).toFinset = S.toFinset ∪ items.toFinset := by
  ext a
  rw [mem_toFinset, mem_foldl_insert, Finset.mem_union, mem_toFinset, List.mem_toFinset, or_comm]

theorem toFinset_eraseAll (items : List α) :
    (items.foldl (fun S a => S.erase a) S).toFinset = S.toFinset \ items.toFinset := by
  induction items generalizing S with
  | nil => simp
  | cons b items ih =>
    rw [List.foldl_cons, ih]
    ext a
    simp only [Finset.mem_sdiff, mem_toFinset, mem_erase, ne_eq, LawfulEqCmp.compare_eq_iff_eq,
      List.mem_toFinset, List.mem_cons]
    tauto

/-- Insertions that are counted when they find something new. -/
theorem counted_insert (items : List α) :
    (counted (fun S a => !S.contains a) (fun S a => S.insert a) items S).1 =
      (items.toFinset \ S.toFinset).card := by
  have hopen : ∀ (S : ExtTreeSet α cmp) (a b : α),
      (!(S.insert a).contains b) = (decide (b ≠ id a) && !S.contains b) := by
    intro S a b
    rw [contains_insert, compare_beq_eq, Bool.not_or, decide_not, id]
  have hcount := counted_open id (fun S b => !S.contains b) (fun _ _ => rfl) hopen items S
  rw [List.map_id] at hcount
  refine hcount.trans (congrArg Finset.card ?_)
  ext a
  simp [contains_eq_decide]

/-- Removals that are counted when they find something. -/
theorem counted_erase (items : List α) :
    (counted (fun S a => S.contains a) (fun S a => S.erase a) items S).1 =
      (items.toFinset ∩ S.toFinset).card := by
  have hopen : ∀ (S : ExtTreeSet α cmp) (a b : α),
      (S.erase a).contains b = (decide (b ≠ id a) && S.contains b) := by
    intro S a b
    rw [contains_erase, bne, compare_beq_eq, decide_not, id]
  have hcount := counted_open id (fun S b => S.contains b) (fun _ _ => rfl) hopen items S
  rw [List.map_id] at hcount
  refine hcount.trans (congrArg Finset.card ?_)
  ext a
  simp [contains_eq_decide]

end ExtTreeSet

end Sets

section Maps

variable {α β : Type} {cmp : α → α → Ordering} [TransCmp cmp] [LawfulEqCmp cmp] [DecidableEq α]

namespace ExtTreeMap

def toFinmap (m : ExtTreeMap α β cmp) : Finmap fun _ : α => β :=
  (m.toList.map fun e => (⟨e.1, e.2⟩ : Σ _ : α, β)).toFinmap

variable (m : ExtTreeMap α β cmp)

@[simp] theorem lookup_toFinmap (a : α) : m.toFinmap.lookup a = m[a]? := by
  have hkeys : (m.toList.map fun e => (⟨e.1, e.2⟩ : Σ _ : α, β)).NodupKeys := by
    have hnodup := nodup_fst_toList m m.toList (.refl _)
    rw [List.NodupKeys, List.keys, List.map_map]
    exact hnodup
  apply Option.ext
  intro b
  rw [toFinmap, Finmap.dlookup_list_toFinmap, ← Option.mem_def, List.mem_dlookup_iff hkeys,
    ← mem_toList_iff_getElem?_eq_some, List.mem_map]
  constructor
  · rintro ⟨⟨x, y⟩, he, heq⟩
    cases heq
    exact he
  · exact fun h => ⟨(a, b), h, rfl⟩

theorem mem_keys_toFinmap {a : α} : a ∈ m.toFinmap.keys ↔ a ∈ m := by
  rw [Finmap.mem_keys, ← Finmap.lookup_isSome, lookup_toFinmap, ← mem_iff_isSome_getElem?]

theorem contains_eq_decide (a : α) : m.contains a = decide (a ∈ m.toFinmap.keys) := by
  rw [Bool.eq_iff_iff, decide_eq_true_iff, mem_keys_toFinmap, contains_iff_mem]

theorem keys_of_perm {m : ExtTreeMap α β cmp} {items : List (α × β)} (h : items.Perm m.toList) :
    (items.map Prod.fst).toFinset = m.toFinmap.keys := by
  ext a
  rw [List.mem_toFinset, mem_keys_toFinmap, mem_iff_isSome_getElem?, Option.isSome_iff_exists,
    (h.map Prod.fst).mem_iff, List.mem_map]
  constructor
  · rintro ⟨⟨x, b⟩, he, rfl⟩
    exact ⟨b, mem_toList_iff_getElem?_eq_some.mp he⟩
  · rintro ⟨b, hb⟩
    exact ⟨(a, b), mem_toList_iff_getElem?_eq_some.mpr hb, rfl⟩

theorem card_keys_toFinmap : m.toFinmap.keys.card = m.size := by
  rw [← keys_of_perm (.refl m.toList),
    List.toFinset_card_of_nodup (nodup_fst_toList m _ (.refl _)), List.length_map, length_toList]

theorem keys_toFinmap_eq_empty : m.toFinmap.keys = ∅ ↔ m.isEmpty = true := by
  rw [← Finset.card_eq_zero, card_keys_toFinmap, isEmpty_eq_size_beq_zero, beq_iff_eq]

theorem toFinmap_empty : (∅ : ExtTreeMap α β cmp).toFinmap = ∅ := by
  apply Finmap.ext_lookup
  intro a
  rw [lookup_toFinmap, Finmap.lookup_empty]
  simp

theorem toFinmap_insert (a : α) (b : β) : (m.insert a b).toFinmap = m.toFinmap.insert a b := by
  apply Finmap.ext_lookup
  intro x
  rw [lookup_toFinmap, getElem?_insert]
  by_cases hx : a = x
  · rw [hx, Finmap.lookup_insert, if_pos ReflCmp.compare_self]
  · rw [Finmap.lookup_insert_of_ne _ (Ne.symm hx), lookup_toFinmap,
      if_neg fun h => hx (LawfulEqCmp.eq_of_compare h)]

theorem toFinmap_erase (a : α) : (m.erase a).toFinmap = m.toFinmap.erase a := by
  apply Finmap.ext_lookup
  intro x
  rw [lookup_toFinmap, getElem?_erase]
  by_cases hx : a = x
  · rw [hx, Finmap.lookup_erase, if_pos ReflCmp.compare_self]
  · rw [Finmap.lookup_erase_ne (Ne.symm hx), lookup_toFinmap,
      if_neg fun h => hx (LawfulEqCmp.eq_of_compare h)]

section Counts

variable {γ σ : Type} (tree : σ → ExtTreeMap α β cmp) (key : γ → α) {step : σ → γ → σ}

/-- Insertions into a tree of the state, counted when the key is new. -/
theorem counted_insert (value : γ → β)
    (hstep : ∀ s c, tree (step s c) = (tree s).insert (key c) (value c)) (items : List γ) (s : σ) :
    (counted (fun s c => !(tree s).contains (key c)) step items s).1 =
      ((items.map key).toFinset \ (tree s).toFinmap.keys).card := by
  rw [counted_open key (fun s a => !(tree s).contains a) (fun _ _ => rfl) _ items s]
  · congr 1
    ext a
    simp [contains_eq_decide]
  · intro s c a
    rw [hstep, contains_insert_eq, Bool.not_or, decide_not]

/-- Removals from a tree of the state, counted when the key is there. -/
theorem counted_erase (hstep : ∀ s c, tree (step s c) = (tree s).erase (key c)) (items : List γ)
    (s : σ) : (counted (fun s c => (tree s).contains (key c)) step items s).1 =
      ((items.map key).toFinset ∩ (tree s).toFinmap.keys).card := by
  rw [counted_open key (fun s a => (tree s).contains a) (fun _ _ => rfl) _ items s]
  · congr 1
    ext a
    simp [contains_eq_decide]
  · intro s c a
    rw [hstep, contains_erase, bne, compare_beq_eq, decide_not]

end Counts

end ExtTreeMap

end Maps

end Std
