import FireRedis.Store.Values

/-!
# The two indexes of a sorted set

A sorted set is consistent when the tree holds a member in the bucket of a
score exactly if `scores` maps it to an equal score, and no bucket is empty.
ZADD and ZREM keep that, so values with non-empty collections and consistent
sorted sets are closed under all methods.
-/

namespace FireRedis
open Std

namespace SortedSet

structure Consistent (z : SortedSet) : Prop where
  linked : ∀ (m : Bytes) (x : F64), (∃ s, z.scores[m]? = some s ∧ s.rank = x.rank) ↔
    ∃ b, z.tree[x]? = some b ∧ m ∈ b
  buckets : ∀ (x : F64) b, z.tree[x]? = some b → b.isEmpty = false

theorem consistent_empty : Consistent ⟨∅, ∅⟩ where
  linked m x := by simp
  buckets x b h := by simp at h

end SortedSet

namespace Store

section Tree

variable (member : Bytes) (score : F64) (tree : ExtTreeMap F64 Bucket) (x : F64)

theorem tree_congr {score x : F64} (h : score.rank = x.rank) : tree[score]? = tree[x]? :=
  ExtTreeMap.getElem?_congr ((F64.compare_eq_iff score x).mpr h)

theorem unlinkMember_getElem? : (unlinkMember member score tree)[x]? =
    if score.rank = x.rank then
      tree[score]?.bind fun b => if (b.erase member).isEmpty then none else some (b.erase member)
    else tree[x]? := by
  unfold unlinkMember
  cases hb : tree[score]? with
  | none =>
    by_cases h : score.rank = x.rank
    · rw [if_pos h, ← tree_congr tree h, hb]
      rfl
    · rw [if_neg h]
  | some b =>
    simp only [Option.bind_some]
    split
    · simp only [ExtTreeMap.getElem?_erase, F64.compare_eq_iff]
    · simp only [ExtTreeMap.getElem?_modify, F64.compare_eq_iff, hb, Option.map_some]

theorem linkMember_getElem? : (linkMember member score tree)[x]? =
    if score.rank = x.rank then some ((tree[score]?.getD ∅).insert member) else tree[x]? := by
  unfold linkMember
  cases hb : tree[score]? with
  | none =>
    simp only [ExtTreeMap.getElem?_insert, F64.compare_eq_iff, Option.getD_none]
    rfl
  | some b =>
    simp only [ExtTreeMap.getElem?_modify, F64.compare_eq_iff, hb, Option.map_some,
      Option.getD_some]

theorem mem_unlinkMember (m : Bytes) :
    (∃ b, (unlinkMember member score tree)[x]? = some b ∧ m ∈ b) ↔
      (∃ b, tree[x]? = some b ∧ m ∈ b) ∧ ¬ (score.rank = x.rank ∧ m = member) := by
  rw [unlinkMember_getElem?]
  split
  · rename_i h
    rw [← tree_congr tree h]
    cases hb : tree[score]? with
    | none => simp
    | some b =>
      simp only [Option.bind_some, Option.some.injEq, exists_eq_left', h, true_and]
      have herase : m ∈ b.erase member ↔ m ∈ b ∧ ¬ m = member := by
        rw [ExtTreeSet.mem_erase, ne_eq, LawfulEqOrd.compare_eq_iff_eq, eq_comm, and_comm]
      rw [← herase]
      split
      · rename_i he
        constructor
        · rintro ⟨_, hnone, _⟩
          cases hnone
        · intro hm
          rw [ExtTreeSet.isEmpty_iff.mp he] at hm
          exact absurd hm ExtTreeSet.not_mem_empty
      · simp
  · rename_i h
    simp [h]

theorem mem_linkMember (m : Bytes) :
    (∃ b, (linkMember member score tree)[x]? = some b ∧ m ∈ b) ↔
      (∃ b, tree[x]? = some b ∧ m ∈ b) ∨ (score.rank = x.rank ∧ m = member) := by
  rw [linkMember_getElem?]
  split
  · rename_i h
    rw [← tree_congr tree h]
    simp only [Option.some.injEq, exists_eq_left', h, true_and, ExtTreeSet.mem_insert,
      LawfulEqOrd.compare_eq_iff_eq]
    cases tree[score]? with
    | none => simp [eq_comm]
    | some b =>
      simp only [Option.getD_some, Option.some.injEq, exists_eq_left']
      rw [or_comm, eq_comm]
  · rename_i h
    simp [h]

theorem buckets_unlinkMember (h : ∀ (x : F64) b, tree[x]? = some b → b.isEmpty = false) (b : Bucket)
    (hb : (unlinkMember member score tree)[x]? = some b) : b.isEmpty = false := by
  rw [unlinkMember_getElem?] at hb
  split at hb
  · obtain ⟨b₀, -, hb₀⟩ := Option.bind_eq_some_iff.mp hb
    split at hb₀
    · cases hb₀
    · rename_i hne
      rw [← Option.some.inj hb₀]
      exact Bool.eq_false_iff.mpr hne
  · exact h x b hb

theorem buckets_linkMember (h : ∀ (x : F64) b, tree[x]? = some b → b.isEmpty = false) (b : Bucket)
    (hb : (linkMember member score tree)[x]? = some b) : b.isEmpty = false := by
  rw [linkMember_getElem?] at hb
  split at hb
  · rw [← Option.some.inj hb, ExtTreeSet.isEmpty_eq_false_iff_exists]
    exact ⟨member, ExtTreeSet.mem_insert_self⟩
  · exact h x b hb

end Tree

theorem consistent_zErase {z : SortedSet} (hz : z.Consistent) (member : Bytes) :
    (zErase z member).Consistent := by
  unfold zErase
  cases hs : z.scores[member]? with
  | none =>
    have herase : z.scores.erase member = z.scores := by
      apply ExtTreeMap.ext_getElem?
      intro m
      rw [ExtTreeMap.getElem?_erase]
      split
      · rename_i h
        rw [← LawfulEqCmp.eq_of_compare h, hs]
      · rfl
    dsimp only
    rw [herase]
    exact hz
  | some score =>
    refine ⟨fun m x => ?_, fun x => buckets_unlinkMember member score z.tree x hz.buckets⟩
    dsimp only
    rw [mem_unlinkMember, ← hz.linked, ExtTreeMap.getElem?_erase]
    by_cases hm : m = member
    · subst hm
      simp [hs]
    · have hcmp : ¬ compare member m = .eq := fun h => hm (LawfulEqCmp.eq_of_compare h).symm
      simp [hcmp, hm]

theorem consistent_zInsert {z : SortedSet} (hz : z.Consistent) (score : F64) (member : Bytes) :
    (zInsert score member z).Consistent := by
  have hinsert : ∀ m : Bytes, m ≠ member → (z.scores.insert member score)[m]? = z.scores[m]? := by
    intro m hm
    rw [ExtTreeMap.getElem?_insert, if_neg fun h => hm (LawfulEqCmp.eq_of_compare h).symm]
  unfold zInsert
  cases hs : z.scores[member]? with
  | none =>
    refine ⟨fun m x => ?_, fun x => buckets_linkMember member score z.tree x hz.buckets⟩
    dsimp only
    rw [mem_linkMember, ← hz.linked]
    by_cases hm : m = member
    · subst hm
      simp [hs]
    · simp [hinsert m hm, hm]
  | some old =>
    refine ⟨fun m x => ?_, fun x =>
      buckets_linkMember member score (unlinkMember member old z.tree) x fun x =>
        buckets_unlinkMember member old z.tree x hz.buckets⟩
    dsimp only
    rw [mem_linkMember, mem_unlinkMember, ← hz.linked]
    by_cases hm : m = member
    · subst hm
      simp [hs]
    · simp [hinsert m hm, hm]

theorem consistent_zEraseMembers {z : SortedSet} (hz : z.Consistent) (members : List Bytes) :
    (zEraseMembers members z).2.Consistent := by
  unfold zEraseMembers
  rw [snd_foldl _ zErase fun _ _ _ => rfl]
  induction members generalizing z with
  | nil => exact hz
  | cons m members ih => exact ih (consistent_zErase hz m)

end Store

/-! ### Well-formed values -/

/-- No collection is empty, and sorted sets are consistent. -/
def StoredValue.WellFormed : StoredValue → Prop
  | .string _ => True
  | .list items => items ≠ []
  | .set S => S.isEmpty = false
  | .hash H => H.isEmpty = false
  | .sortedSet z => z.scores.isEmpty = false ∧ z.Consistent

theorem Closed.wellFormed : Closed StoredValue.WellFormed where
  string _ := trivial
  list _ h := h
  set _ h := h
  hash _ h := h
  zInsert z score member h := by
    refine ⟨?_, ?_⟩
    · rw [ExtTreeMap.isEmpty_eq_false_iff_exists]
      exact ⟨member, score, ExtTreeMap.getElem?_insert_self⟩
    · apply Store.consistent_zInsert
      rcases h with h | h
      · exact h.2
      · rw [h]
        exact SortedSet.consistent_empty
  zErase z members h hne := ⟨hne, Store.consistent_zEraseMembers h.2 members⟩

end FireRedis
