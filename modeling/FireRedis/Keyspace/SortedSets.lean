import FireRedis.Keyspace.Collections

/-!
# Sorted sets do what they say

The listings walk the tree of a sorted set, the other commands read its scores.
A stored sorted set is consistent, so both tell of one finite map.
-/

namespace FireRedis
open Std Counted Window

namespace SortedSet

theorem finmap_zInsert (z : SortedSet) (e : F64 × Bytes) :
    (Store.zInsert e.1 e.2 z).finmap = z.finmap.insert e.2 e.1 := z.scores.toFinmap_insert e.2 e.1

theorem finmap_zErase (z : SortedSet) (m : Bytes) :
    (Store.zErase z m).finmap = z.finmap.erase m := z.scores.toFinmap_erase m

theorem lookup_finmap (z : SortedSet) (m : Bytes) : z.finmap.lookup m = z.scores[m]? :=
  z.scores.lookup_toFinmap m

/-! ### The listings of a consistent sorted set -/

section Listings

variable (ord : IterOrder) {z : SortedSet} (hz : z.Consistent)
include hz

theorem Consistent.rank_listed {p : Bytes × F64} (hp : p ∈ z.ascending ord) {x : F64}
    (hx : z.finmap.lookup p.1 = some x) : x.rank = p.2.rank := by
  have hrank := (hz.mem_ascending ord p.1 p.2.rank).mp ⟨p.2, hp, rfl⟩
  rw [← z.lookup_finmap, hx] at hrank
  exact Option.some.inj hrank

theorem Consistent.keys_listed : ((z.ascending ord).map Prod.fst).toFinset = z.finmap.keys := by
  ext m
  have hmem := fun r => hz.mem_ascending ord m r
  simp only [Option.map_eq_some_iff] at hmem
  rw [List.mem_toFinset, List.mem_map, Finmap.mem_keys, ← Finmap.lookup_isSome, z.lookup_finmap,
    Option.isSome_iff_exists]
  constructor
  · rintro ⟨⟨m, x⟩, hx, rfl⟩
    obtain ⟨y, hy, -⟩ := (hmem x.rank).mp ⟨x, hx, rfl⟩
    exact ⟨y, hy⟩
  · rintro ⟨y, hy⟩
    obtain ⟨x, hx, -⟩ := (hmem y.rank).mpr ⟨y, hy, rfl⟩
    exact ⟨(m, x), hx, rfl⟩

theorem Consistent.ranking_ascending :
    Ranking z.finmap (fun x y => x ≤ y) ((z.ascending ord).map Prod.fst) where
  nodup := hz.nodup_ascending ord
  keys := hz.keys_listed ord
  ordered := by
    rw [List.pairwise_map]
    refine List.Pairwise.imp_of_mem (fun {p q} hp hq hpq x y hx hy => ?_) (z.ascending_sorted ord)
    rw [hz.rank_listed ord hp hx, hz.rank_listed ord hq hy]
    exact hpq

theorem Consistent.ranking_descending :
    Ranking z.finmap (fun x y => y ≤ x) ((z.descending ord).map Prod.fst) where
  nodup := hz.nodup_descending ord
  keys := by
    rw [← hz.keys_listed ord, List.toFinset_eq_of_perm _ _ ((z.descending_perm ord).map Prod.fst)]
  ordered := by
    rw [List.pairwise_map]
    refine List.Pairwise.imp_of_mem (fun {p q} hp hq hpq x y hx hy => ?_) (z.descending_sorted ord)
    have hperm := z.descending_perm ord
    rw [hz.rank_listed ord (hperm.mem_iff.mp hp) hx, hz.rank_listed ord (hperm.mem_iff.mp hq) hy]
    exact hpq

/-- Counting in the listing is counting members by their scores. -/
theorem Consistent.countP_listed (q : ℤ → Bool) :
    (z.ascending ord).countP (fun p => q p.2.rank) =
      (z.finmap.keys.filter fun m => (z.finmap.lookup m).any fun x => q x.rank).card := by
  have hscore : ∀ p ∈ z.ascending ord,
      ((z.finmap.lookup p.1).any fun x => q x.rank) = q p.2.rank := by
    intro p hp
    have hrank := (hz.mem_ascending ord p.1 p.2.rank).mp ⟨p.2, hp, rfl⟩
    obtain ⟨x, hx, hxp⟩ := Option.map_eq_some_iff.mp hrank
    rw [z.lookup_finmap, hx, Option.any_some, hxp]
  have hnodup := (hz.nodup_ascending ord).filter fun m => (z.finmap.lookup m).any fun x => q x.rank
  calc (z.ascending ord).countP (fun p => q p.2.rank)
    _ = (z.ascending ord).countP fun p => (z.finmap.lookup p.1).any fun x => q x.rank :=
      List.countP_congr fun p hp => by rw [hscore p hp]
    _ = ((z.ascending ord).map Prod.fst).countP fun m =>
        (z.finmap.lookup m).any fun x => q x.rank := by
      rw [List.countP_map]
      rfl
    _ = _ := by
      rw [List.countP_eq_length_filter, ← List.toFinset_card_of_nodup hnodup, List.toFinset_filter,
        hz.keys_listed ord]

end Listings

end SortedSet

section Done

variable (F : FloatText) (ord : IterOrder) (info : Bytes) (now : Reading)

/-! ### Members and scores -/

section Members

variable {P : StoredValue → Prop} {s : Store} (hs : s.Inv P) (key : Str)

section Writes

include hs

theorem zAdd_done {entries : List (F64 × Bytes)} (hne : entries ≠ []) :
    (Command.zAdd key entries).Done F ord info now s := by
  rw [Command.Done, Command.Does]
  apply zset_shown.inserts hs now key (zAdd_inserts key) (fun _ => rfl) _ hne
  · intro z
    refine ⟨(List.foldl_hom SortedSet.finmap fun z e => (z.finmap_zInsert e).symm).symm,
      congrArg count ?_⟩
    exact ExtTreeMap.counted_insert SortedSet.scores Prod.snd Prod.fst (fun _ _ => rfl) entries z
  · intro z e
    show (z.scores.insert e.2 e.1).isEmpty = false
    simp

omit hs in
theorem zEraseMembers_eq (members : List Bytes) (z : SortedSet) :
    Store.zEraseMembers members z =
      counted (fun z m => z.scores.contains m) Store.zErase members z := rfl

theorem zRem_done (members : List Bytes) : (Command.zRem key members).Done F ord info now s := by
  have hfresh : Store.zEraseMembers members ⟨∅, ∅⟩ = (0, ⟨∅, ∅⟩) :=
    counted_fixed (fun (z : SortedSet) m => z.scores.contains m) Store.zErase
      fun m _ => zset_empty ⟨∅, ∅⟩ rfl m
  rw [Command.Done, Command.Does]
  apply zset_shown.amends hs now key
  · rfl
  · exact fun _ => rfl
  · exact congrArg Prod.fst hfresh
  · exact congrArg (fun r => r.2.scores.isEmpty) hfresh
  · intro z
    rw [zEraseMembers_eq, counted_snd]
    refine ⟨(List.foldl_hom SortedSet.finmap fun z m => (z.finmap_zErase m).symm).symm,
      congrArg count ?_⟩
    have hcount := ExtTreeMap.counted_erase SortedSet.scores id
      (fun z m => (rfl : (Store.zErase z m).scores = _)) members z
    rw [List.map_id] at hcount
    exact hcount

end Writes

theorem zCard_done : (Command.zCard key).Done F ord info now s := by
  rw [Command.Done, Command.Does]
  apply zset_shown.views now key
  · rfl
  · exact fun _ => rfl
  · rfl
  · intro z
    rw [SortedSet.finmap, z.scores.card_keys_toFinmap]

theorem zScore_done (member : Bytes) : (Command.zScore key member).Done F ord info now s := by
  rw [Command.Done, Command.Does]
  apply zset_shown.views now key
  · rfl
  · exact fun _ => rfl
  · simp [Kind.zset]
  · intro z
    rw [z.lookup_finmap]

end Members

/-! ### Listings -/

theorem sliceMembers_ranked {all : List (Bytes × F64)} (hlen : all.length ≤ isizeMax)
    (start stop : Int64) : (Store.sliceMembers all start stop).map Prod.fst =
      rankedWindow (all.map Prod.fst) start stop := by
  rw [rankedWindow, List.length_map]
  by_cases hall : all = []
  · rw [hall]
    simp [Store.sliceMembers, window_eq]
  · rw [Store.sliceMembers_eq start stop hall hlen, map_window]

section Listed

variable {s : Store} (hs : s.Inv StoredValue.WellFormed) (key : Str)
include hs

theorem consistent_of_live {e : Entry} {z : SortedSet} (he : s.live now.instant key = some e)
    (hz : e.value = .sortedSet z) : z.scores.isEmpty = false ∧ z.Consistent := by
  have hwell := Store.value_of_live hs he
  rw [hz] at hwell
  exact hwell

/-- ZRANGE and ZREVRANGE, which differ in the listing that they cut. -/
theorem ranged {le : ℤ → ℤ → Prop} {listing : SortedSet → List (Bytes × F64)}
    (hlisting : ∀ z : SortedSet, z.Consistent → Ranking z.finmap le ((listing z).map Prod.fst))
    (start stop : Int64) {run : StoreM Value} {g : StoredValue → StoreM (List (Bytes × F64))}
    (hrun : run = withType key "zset"
      (Store.view key [] g >>= fun all => pure (bulkArray (all.map Prod.fst))))
    (hg : ∀ z, g (.sortedSet z) = pure (Store.sliceMembers (listing z) start stop)) :
    Query .zset (s.keyspace now.instant) key (fun Z reply => Z.keys.card ≤ isizeMax →
      ∃ members, Ranking Z le members ∧
        reply = .ok (bulkArray (rankedWindow members start stop)))
      (outcome now.instant (run.runAt now s)) := by
  apply zset_shown.query now key hrun
  · intro _
    refine ⟨[], ⟨List.nodup_nil, ?_, .nil⟩, ?_⟩
    · show ∅ = (ExtTreeMap.toFinmap ∅).keys
      rw [ExtTreeMap.toFinmap_empty, Finmap.keys_empty]
    · simp [rankedWindow, window_eq]
  · intro e z he hvalue s'
    obtain ⟨-, hz⟩ := consistent_of_live now hs key he hvalue
    have hranking := hlisting z hz
    show (_ → ∃ members, _ ∧ ((g (.sortedSet z) >>= _).runAt now s').1 = _) ∧
      ((g (.sortedSet z) >>= _).runAt now s').2 = s'
    rw [hg]
    refine ⟨fun hlen => ⟨_, hranking, ?_⟩, rfl⟩
    rw [← hranking.keys, List.toFinset_card_of_nodup hranking.nodup, List.length_map] at hlen
    rw [← sliceMembers_ranked hlen]
    rfl

theorem zRange_done (start stop : Int64) :
    (Command.zRange key start stop).Done F ord info now s := by
  rw [Command.Done, Command.Does]
  apply ranged now hs key (fun z hz => hz.ranking_ascending ord)
  · rfl
  · exact fun _ => rfl

theorem zRevRange_done (start stop : Int64) :
    (Command.zRevRange key start stop).Done F ord info now s := by
  rw [Command.Done, Command.Does]
  apply ranged now hs key (fun z hz => hz.ranking_descending ord)
  · rfl
  · exact fun _ => rfl

theorem zCount_done (minScore maxScore : F64) :
    (Command.zCount key minScore maxScore).Done F ord info now s := by
  rw [Command.Done, Command.Does]
  apply zset_shown.query now key
  · rfl
  · have hfresh : SortedSet.finmap Kind.zset.fresh = ∅ := ExtTreeMap.toFinmap_empty
    rw [hfresh, Finmap.keys_empty, Finset.filter_empty, if_neg (fun h => h.1 rfl)]
    rfl
  · intro e z he hvalue s'
    obtain ⟨hne, hz⟩ := consistent_of_live now hs key he hvalue
    have hkeys : z.finmap.keys ≠ ∅ := by
      rw [SortedSet.finmap, ne_eq, ExtTreeMap.keys_toFinmap_eq_empty, hne]
      exact Bool.false_ne_true
    have hcount := hz.countP_listed ord fun r => minScore.rank ≤ r && r ≤ maxScore.rank
    show ((Store.countBetween minScore maxScore z.tree >>= _).runAt now s').1 = _ ∧
      ((Store.countBetween minScore maxScore z.tree >>= _).runAt now s').2 = s'
    rw [Store.countBetween_eq ord, hcount]
    simp only [hz.tree_nonempty hne, hkeys, ne_eq, not_false_eq_true, true_and]
    split
    · exact ⟨rfl, rfl⟩
    · refine ⟨?_, rfl⟩
      simp only [Bool.decide_and]
      rfl

end Listed

end Done

end FireRedis
