import FireRedis.Store.SortedSets
import FireRedis.Store.Whole

/-!
# Datasets up to equal scores

A score that went through its text is equal to the old one in the order of
`OrderedFloat`, not bit for bit. Values are the same up to that, and two
datasets are related when they have the same keys with the same values and with
deadlines that a given relation allows.
-/

namespace FireRedis
open Std

namespace SortedSet

structure Same (z z' : SortedSet) : Prop where
  scores : ∀ m : Bytes, z.scores[m]?.map F64.rank = z'.scores[m]?.map F64.rank
  tree : ∀ x : F64, z.tree[x]? = z'.tree[x]?

theorem Same.refl (z : SortedSet) : z.Same z := ⟨fun _ => rfl, fun _ => rfl⟩

theorem Same.symm {z z' : SortedSet} (h : z.Same z') : z'.Same z where
  scores m := (h.scores m).symm
  tree x := (h.tree x).symm

theorem Same.trans {x y z : SortedSet} (h : x.Same y) (h' : y.Same z) : x.Same z where
  scores m := (h.scores m).trans (h'.scores m)
  tree f := (h.tree f).trans (h'.tree f)

theorem Consistent.mem_bucket {z : SortedSet} (hz : z.Consistent) {x : F64} {b : Bucket}
    (hb : z.tree[x]? = some b) (m : Bytes) :
    m ∈ b ↔ z.scores[m]?.map F64.rank = some x.rank := by
  have h := hz.linked m x
  rw [hb] at h
  simp only [Option.some.injEq, exists_eq_left'] at h
  rw [← h, Option.map_eq_some_iff]

/-- The scores of a consistent sorted set determine its tree. -/
theorem same_of_scores {z z' : SortedSet} (hz : z.Consistent) (hz' : z'.Consistent)
    (h : ∀ m : Bytes, z.scores[m]?.map F64.rank = z'.scores[m]?.map F64.rank) : z.Same z' := by
  -- A bucket that one tree has, the other has too: some member is in it.
  have hsome : ∀ {y y' : SortedSet}, y.Consistent → y'.Consistent →
      (∀ m : Bytes, y.scores[m]?.map F64.rank = y'.scores[m]?.map F64.rank) →
      ∀ (x : F64) b, y.tree[x]? = some b → ∃ b', y'.tree[x]? = some b' := by
    intro y y' hy hy' hyy x b hb
    obtain ⟨m, hm⟩ := (ExtTreeSet.isEmpty_eq_false_iff_exists b).mp (hy.buckets x b hb)
    have hrank : y'.scores[m]?.map F64.rank = some x.rank := by
      rw [← hyy]
      exact (hy.mem_bucket hb m).mp hm
    obtain ⟨b', hb', -⟩ := (hy'.linked m x).mp (Option.map_eq_some_iff.mp hrank)
    exact ⟨b', hb'⟩
  refine ⟨h, fun x => ?_⟩
  cases hb : z.tree[x]? with
  | none =>
    cases hb' : z'.tree[x]? with
    | none => rfl
    | some b' =>
      obtain ⟨b, hb₀⟩ := hsome hz' hz (fun m => (h m).symm) x b' hb'
      rw [hb] at hb₀
      cases hb₀
  | some b =>
    obtain ⟨b', hb'⟩ := hsome hz hz' h x b hb
    have hbb : b = b' := by
      apply ExtTreeSet.ext_mem
      intro m
      rw [hz.mem_bucket hb, hz'.mem_bucket hb', h]
    rw [hb', hbb]

/-! ### A sorted set filled from a listing -/

def insertAll (items : List (Bytes × F64)) (z : SortedSet) : SortedSet :=
  items.foldl (fun z e => Store.zInsert e.2 e.1 z) z

theorem insertAll_scores (items : List (Bytes × F64)) (z : SortedSet) :
    (insertAll items z).scores = items.foldl (fun M e => M.insert e.1 e.2) z.scores := by
  induction items generalizing z with
  | nil => rfl
  | cons e items ih => exact ih (Store.zInsert e.2 e.1 z)

theorem consistent_insertAll (items : List (Bytes × F64)) {z : SortedSet} (hz : z.Consistent) :
    (insertAll items z).Consistent := by
  induction items generalizing z with
  | nil => exact hz
  | cons e items ih => exact ih (Store.consistent_zInsert hz e.2 e.1)

/-- Two listings with the same members and equal scores, item by item. -/
abbrev SameItems (items items' : List (Bytes × F64)) : Prop :=
  List.Forall₂ (fun e e' => e'.1 = e.1 ∧ e'.2.rank = e.2.rank) items items'

theorem SameItems.fst {items items' : List (Bytes × F64)} (h : SameItems items items') :
    items'.map Prod.fst = items.map Prod.fst := by
  induction h with
  | nil => rfl
  | cons he _ ih => rw [List.map_cons, List.map_cons, he.1, ih]

theorem SameItems.exists_iff {items items' : List (Bytes × F64)} (h : SameItems items items')
    (m : Bytes) (r : ℤ) :
    (∃ x, (m, x) ∈ items ∧ x.rank = r) ↔ ∃ y, (m, y) ∈ items' ∧ y.rank = r := by
  induction h with
  | nil => simp
  | @cons e e' items items' he _ ih =>
    obtain ⟨m₀, x₀⟩ := e
    obtain ⟨m₁, y₀⟩ := e'
    obtain ⟨rfl, hrank⟩ : m₁ = m₀ ∧ y₀.rank = x₀.rank := he
    simp only [List.mem_cons, Prod.mk.injEq, or_and_right, exists_or, ih]
    have hhead : (∃ x, (m = m₁ ∧ x = x₀) ∧ x.rank = r) ↔ ∃ y, (m = m₁ ∧ y = y₀) ∧ y.rank = r := by
      constructor
      · rintro ⟨x, ⟨hm, rfl⟩, hr⟩
        exact ⟨y₀, ⟨hm, rfl⟩, hrank.trans hr⟩
      · rintro ⟨y, ⟨hm, rfl⟩, hr⟩
        exact ⟨x₀, ⟨hm, rfl⟩, hrank.symm.trans hr⟩
    rw [hhead]

theorem rank_foldl_insert {items : List (Bytes × F64)} (hnodup : (items.map Prod.fst).Nodup)
    (m : Bytes) (r : ℤ) :
    (items.foldl (fun M e => M.insert e.1 e.2) (∅ : ExtTreeMap Bytes F64))[m]?.map F64.rank =
      some r ↔ ∃ x, (m, x) ∈ items ∧ x.rank = r := by
  rw [Option.map_eq_some_iff]
  apply exists_congr
  intro x
  rw [ExtTreeMap.getElem?_foldl_insert items hnodup]
  simp

/-- Inserting a listing of a sorted set, with equal scores, gives the same set. -/
theorem same_insertAll {z : SortedSet} (hz : z.Consistent) {items items' : List (Bytes × F64)}
    (hperm : items.Perm z.scores.toList) (hitems : SameItems items items') :
    z.Same (insertAll items' ⟨∅, ∅⟩) := by
  apply same_of_scores hz (consistent_insertAll items' consistent_empty)
  intro m
  have hnodup := ExtTreeMap.nodup_fst_toList z.scores items hperm
  have hnodup' : (items'.map Prod.fst).Nodup := by
    rw [hitems.fst]
    exact hnodup
  apply Option.ext
  intro r
  rw [insertAll_scores, rank_foldl_insert hnodup', ← hitems.exists_iff, ← rank_foldl_insert hnodup,
    ExtTreeMap.foldl_insert_perm z.scores items hperm]

end SortedSet

def StoredValue.Same : StoredValue → StoredValue → Prop
  | .sortedSet z, .sortedSet z' => z.Same z'
  | v, v' => v = v'

theorem StoredValue.Same.refl (v : StoredValue) : v.Same v := by
  cases v with
  | sortedSet z => exact SortedSet.Same.refl z
  | _ => rfl

theorem StoredValue.Same.symm {v w : StoredValue} (h : v.Same w) : w.Same v := by
  cases v <;> cases w <;> first | exact SortedSet.Same.symm h | exact Eq.symm h

theorem StoredValue.Same.trans {u v w : StoredValue} (h : u.Same v) (h' : v.Same w) :
    u.Same w := by
  by_cases hset : ∃ y, v = .sortedSet y
  · obtain ⟨y, rfl⟩ := hset
    cases u with
    | sortedSet x =>
      cases w with
      | sortedSet z => exact SortedSet.Same.trans h h'
      | _ => cases h'
    | _ => cases h
  · have heq : ∀ {v w : StoredValue}, v.Same w → (∀ y, v ≠ .sortedSet y) → v = w := by
      intro v w h hv
      cases v with
      | sortedSet y => exact absurd rfl (hv y)
      | _ => exact h
    have hvw : v = w := heq h' fun y hy => hset ⟨y, hy⟩
    exact hvw ▸ h

/-- The same value, and deadlines that `R` relates. -/
structure Entry.Related (R : Instant → Instant → Prop) (e e' : Entry) : Prop where
  value : e.value.Same e'.value
  deadline : Option.Rel R e.deadline e'.deadline

/-- The same keys, with related entries. -/
def Dataset.Related (R : Instant → Instant → Prop) (D D' : Dataset) : Prop :=
  ∀ key, Option.Rel (Entry.Related R) (D key) (D' key)

namespace Dataset

variable {R Q : Instant → Instant → Prop} {D E G : Dataset}

theorem Related.refl (D : Dataset) : Related (fun d d' => d = d') D D := by
  intro key
  cases D key with
  | none => exact .none
  | some e =>
    refine .some ⟨.refl e.value, ?_⟩
    cases e.deadline with
    | none => exact .none
    | some d => exact .some rfl

theorem Related.symm (h : Related R D E) : Related (fun b a => R a b) E D := fun key =>
  (h key).symm.imp fun _ _ _ he => ⟨he.value.symm, he.deadline.symm⟩

theorem Related.comp (h : Related R D E) (h' : Related Q E G) :
    Related (fun a c => ∃ b, R a b ∧ Q b c) D G := fun key =>
  ((h key).comp (h' key)).imp fun _ _ _ ⟨_, he, he'⟩ =>
    ⟨he.value.trans he'.value, he.deadline.comp he'.deadline⟩

theorem Related.imp {R' : Instant → Instant → Prop} (h : Related R D E)
    (himp : ∀ key e d d', D key = some e → e.deadline = some d → R d d' → R' d d') :
    Related R' D E := fun key =>
  (h key).imp fun e _ he hrel =>
    ⟨hrel.value, hrel.deadline.imp fun d d' hd => himp key e d d' he hd⟩

theorem related_moved {f : Instant → Instant} (h : Related (fun d d' => d' = f d) D E)
    (G : Dataset) :
    Related R G E ↔ Related (fun a d => R a (f d)) G D := by
  constructor
  · intro hGE
    apply (hGE.comp h.symm).imp
    rintro key e a d - - ⟨d', hR, rfl⟩
    exact hR
  · intro hGD
    apply (hGD.comp h).imp
    rintro key e a d' - - ⟨d, hR, rfl⟩
    exact hR

end Dataset

end FireRedis
