import FireRedis.Persistence.Indexes

/-!
# Queries on sorted sets

ZREVRANGE turns round the order of the buckets and not the order in a bucket,
and ZCOUNT hands its bounds to `BTreeMap::range` without a look at them. Both
are settled here for every store that operations lead to.
-/

namespace FireRedis
open Std

section Queries

variable {F : FloatText} {s : Store} (h : Visited F s)
include h

theorem visited_consistent {t : Instant} {key : Str} {e : Entry} {z : SortedSet}
    (he : s.live t key = some e) (hz : e.value = .sortedSet z) :
    z.scores.isEmpty = false ∧ z.Consistent := by
  have hwell := Store.value_of_live (visited_inv h) he
  rw [hz] at hwell
  exact hwell

end Queries

/-! ### ZREVRANGE -/

/-- ZREVRANGE is the reverse of ZRANGE exactly when no two members have equal
scores. -/
theorem visited_mirror (F : FloatText) (s : Store) (h : Visited F s) (ord : IterOrder)
    (now : Reading) (key : Str) (e : Entry) (z : SortedSet)
    (he : s.live now.instant key = some e) (hz : e.value = .sortedSet z)
    (hlen : z.scores.size ≤ isizeMax) :
    (∃ items, ((Store.zRange ord key 0 (-1)).runAt now s).1 = .ok items ∧
      ((Store.zRevRange ord key 0 (-1)).runAt now s).1 = .ok items.reverse) ↔
    ∀ (m n : Bytes) (x y : F64), z.scores[m]? = some x → z.scores[n]? = some y →
      x.rank = y.rank → m = n := by
  obtain ⟨-, hc⟩ := visited_consistent h he hz
  have hup := hc.length_ascending ord
  have hdown := hc.length_descending ord
  rw [← hc.small_buckets, ← listBuckets_reverse ord,
    Store.zRange_all he hz ord (hup ▸ hlen), Store.zRevRange_all he hz ord (hdown ▸ hlen)]
  constructor
  · rintro ⟨items, hitems, hrev⟩
    rw [← Except.ok.inj hitems] at hrev
    exact Except.ok.inj hrev
  · intro hrev
    exact ⟨z.ascending ord, rfl, congrArg Except.ok hrev⟩

/-- ZADD k of the members with their scores. -/
def ranked (members : List (Int64 × String)) : Store :=
  (((Command.zAdd (Str.lit "k") (members.map fun m => (F64.ofI64 m.1, Str.utf8 m.2))).execute
    bitText .sorted []).runAt ⟨0, 0⟩ Store.empty).2

theorem visited_ranked : Visited bitText (ranked [(1, "a"), (2, "b")]) :=
  .command Store.empty .sorted [] ⟨0, 0⟩ [bulk (Str.utf8 "ZADD"), bulk (Str.utf8 "k"), .integer 1,
    bulk (Str.utf8 "a"), .integer 2, bulk (Str.utf8 "b")] _ .empty rfl

theorem live_ranked : (ranked [(1, "a"), (2, "b")]).live 0 (Str.lit "k") =
    some ⟨.sortedSet (Store.zInsert (F64.ofI64 2) (Str.utf8 "b")
      (Store.zInsert (F64.ofI64 1) (Str.utf8 "a") ⟨∅, ∅⟩)), none⟩ := rfl

/-- The reverse of the listing of two members. -/
theorem visited_mirror_ranked :
    ∃ items, ((Store.zRange .sorted (Str.lit "k") 0 (-1)).runAt ⟨0, 0⟩
        (ranked [(1, "a"), (2, "b")])).1 = .ok items ∧
      ((Store.zRevRange .sorted (Str.lit "k") 0 (-1)).runAt ⟨0, 0⟩
        (ranked [(1, "a"), (2, "b")])).1 = .ok items.reverse ∧
      items = [(Str.utf8 "a", F64.ofI64 1), (Str.utf8 "b", F64.ofI64 2)] := by
  have hscore : ∀ (k : Bytes) w, (Store.zInsert (F64.ofI64 2) (Str.utf8 "b")
      (Store.zInsert (F64.ofI64 1) (Str.utf8 "a") ⟨∅, ∅⟩)).scores[k]? = some w →
      (k = Str.utf8 "b" ∧ w = F64.ofI64 2) ∨ (k = Str.utf8 "a" ∧ w = F64.ofI64 1) := by
    intro k w hw
    simp only [Store.zInsert, ExtTreeMap.getElem?_insert] at hw
    split at hw
    · rename_i hk
      exact Or.inl ⟨(LawfulEqCmp.eq_of_compare hk).symm, (Option.some.inj hw).symm⟩
    · split at hw
      · rename_i hk
        exact Or.inr ⟨(LawfulEqCmp.eq_of_compare hk).symm, (Option.some.inj hw).symm⟩
      · simp at hw
  have hne : (F64.ofI64 2).rank ≠ (F64.ofI64 1).rank := by decide
  obtain ⟨items, hup, hdown⟩ := (visited_mirror bitText _ visited_ranked .sorted ⟨0, 0⟩
    (Str.lit "k") _ _ live_ranked rfl (by decide)).mpr (by
      intro m n x y hx hy hrank
      rcases hscore m x hx with ⟨rfl, rfl⟩ | ⟨rfl, rfl⟩ <;>
        rcases hscore n y hy with ⟨rfl, rfl⟩ | ⟨rfl, rfl⟩
      · rfl
      · exact absurd hrank hne
      · exact absurd hrank.symm hne
      · rfl)
  refine ⟨items, hup, hdown, ?_⟩
  rw [Store.zRange_all live_ranked rfl .sorted (by decide)] at hup
  exact (Except.ok.inj hup).symm.trans rfl

/-- ZADD k of members that all have the score 1. -/
def tied (members : List String) : Store :=
  (((Command.zAdd (Str.lit "k") (members.map fun m => (F64.ofI64 1, Str.utf8 m))).execute bitText
    .sorted []).runAt ⟨0, 0⟩ Store.empty).2

/-- Two members with one score are listed in one order both ways. -/
theorem visited_mirror_tied :
    Visited bitText (tied ["a", "b"]) ∧
      ((Store.zRange .sorted (Str.lit "k") 0 (-1)).runAt ⟨0, 0⟩ (tied ["a", "b"])).1 =
        .ok [(Str.utf8 "a", F64.ofI64 1), (Str.utf8 "b", F64.ofI64 1)] ∧
      ((Store.zRevRange .sorted (Str.lit "k") 0 (-1)).runAt ⟨0, 0⟩ (tied ["a", "b"])).1 =
        .ok [(Str.utf8 "a", F64.ofI64 1), (Str.utf8 "b", F64.ofI64 1)] := by
  have hlive : (tied ["a", "b"]).live 0 (Str.lit "k") =
      some ⟨.sortedSet (Store.zInsert (F64.ofI64 1) (Str.utf8 "b")
        (Store.zInsert (F64.ofI64 1) (Str.utf8 "a") ⟨∅, ∅⟩)), none⟩ := rfl
  refine ⟨.command Store.empty .sorted [] ⟨0, 0⟩ [bulk (Str.utf8 "ZADD"), bulk (Str.utf8 "k"),
    .integer 1, bulk (Str.utf8 "a"), .integer 1, bulk (Str.utf8 "b")] _ .empty rfl, ?_, ?_⟩
  · rw [Store.zRange_all hlive rfl .sorted (by decide)]
    rfl
  · rw [Store.zRevRange_all hlive rfl .sorted (by decide)]
    rfl

/-! ### ZCOUNT -/

/-- ZCOUNT returns, and gives 0 for reversed bounds, exactly when its bounds are
not reversed. -/
theorem visited_zCount (F : FloatText) (s : Store) (h : Visited F s) (now : Reading) (key : Str)
    (e : Entry) (z : SortedSet) (he : s.live now.instant key = some e)
    (hz : e.value = .sortedSet z) (minScore maxScore : F64) :
    (∃ n, ((Store.zCount key minScore maxScore).runAt now s).1 = .ok n ∧
      (maxScore.rank < minScore.rank → n = 0)) ↔ minScore.rank ≤ maxScore.rank := by
  obtain ⟨hne, hc⟩ := visited_consistent h he hz
  have hcount : (Store.zCount key minScore maxScore).runAt now s =
      (Store.countBetween minScore maxScore z.tree).runAt now (s.check now.instant key) := by
    rw [Store.zCount, Store.view_spec, he]
    dsimp only
    rw [hz]
  rw [hcount, Store.countBetween_eq .sorted, hc.tree_nonempty hne]
  constructor
  · rintro ⟨n, hn, -⟩
    by_contra hlt
    rw [if_pos ⟨rfl, by omega⟩] at hn
    cases hn
  · intro hle
    rw [if_neg (by omega)]
    exact ⟨_, rfl, fun hlt => by omega⟩

theorem visited_tied_one : Visited bitText (tied ["a"]) :=
  .command Store.empty .sorted [] ⟨0, 0⟩ [bulk (Str.utf8 "ZADD"), bulk (Str.utf8 "k"), .integer 1,
    bulk (Str.utf8 "a")] _ .empty rfl

theorem tied_one : (tied ["a"]).live 0 (Str.lit "k") =
    some ⟨.sortedSet (Store.zInsert (F64.ofI64 1) (Str.utf8 "a") ⟨∅, ∅⟩), none⟩ := rfl

/-- ZCOUNT k 1 2. -/
theorem visited_zCount_one :
    ∃ n, ((Store.zCount (Str.lit "k") (F64.ofI64 1) (F64.ofI64 2)).runAt ⟨0, 0⟩ (tied ["a"])).1 =
      .ok n := by
  obtain ⟨n, hn, -⟩ := (visited_zCount bitText _ visited_tied_one ⟨0, 0⟩ (Str.lit "k") _ _
    tied_one rfl (F64.ofI64 1) (F64.ofI64 2)).mpr (by decide)
  exact ⟨n, hn⟩

/-- ZCOUNT k 2 1. -/
theorem visited_zCount_reversed :
    Visited bitText (tied ["a"]) ∧ bulkToF64 bitText (.integer 2) = .ok (F64.ofI64 2) ∧
      bulkToF64 bitText (.integer 1) = .ok (F64.ofI64 1) ∧
      ((Store.zCount (Str.lit "k") (F64.ofI64 2) (F64.ofI64 1)).runAt ⟨0, 0⟩ (tied ["a"])).1 =
        .error .rangeOutOfBounds := by
  refine ⟨visited_tied_one, rfl, rfl, ?_⟩
  rw [Store.zCount, Store.view_spec, show (tied ["a"]).live 0 (Str.lit "k") = _ from tied_one]
  rfl

end FireRedis
