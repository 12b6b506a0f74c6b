import FireRedis.Store.Equivalence
import FireRedis.Store.Ranges

/-!
# Listings of a sorted set (store/sorted_set.rs)

ZRANGE and ZREVRANGE list the tree bucket by bucket, up or down. In a
consistent sorted set that is every member once, with its score, in order.
-/

namespace FireRedis
open Std Window

/-! ### Buckets in a row -/

section Buckets

variable (ord : IterOrder) {buckets : List (F64 × Bucket)}

theorem IterOrder.mem_members (b : Bucket) (m : Bytes) : m ∈ ord.members b ↔ m ∈ b := by
  rw [(ord.members_perm b).mem_iff, ExtTreeSet.mem_toList]

theorem IterOrder.nodup_members (b : Bucket) : (ord.members b).Nodup :=
  (ord.members_perm b).nodup_iff.mpr b.nodup_toList

theorem mem_listBuckets (m : Bytes) (x : F64) :
    (m, x) ∈ Store.listBuckets ord buckets ↔ ∃ b, (x, b) ∈ buckets ∧ m ∈ b := by
  simp only [Store.listBuckets, List.mem_flatMap, List.mem_map, Prod.mk.injEq]
  constructor
  · rintro ⟨⟨y, b⟩, hb, m', hm, rfl, rfl⟩
    exact ⟨b, hb, (ord.mem_members b m').mp hm⟩
  · rintro ⟨b, hb, hm⟩
    exact ⟨(x, b), hb, m, (ord.mem_members b m).mpr hm, rfl, rfl⟩

theorem pairwise_listBuckets {R : F64 → F64 → Prop} (hrefl : ∀ x, R x x)
    (h : buckets.Pairwise fun e f => R e.1 f.1) :
    (Store.listBuckets ord buckets).Pairwise fun p q => R p.2 q.2 := by
  rw [Store.listBuckets, List.pairwise_flatMap]
  refine ⟨fun e _ => ?_, h.imp fun {e f} hef p hp q hq => ?_⟩
  · rw [List.pairwise_map]
    exact List.pairwise_of_forall fun _ _ => hrefl e.1
  · obtain ⟨m, -, rfl⟩ := List.mem_map.mp hp
    obtain ⟨n, -, rfl⟩ := List.mem_map.mp hq
    exact hef

theorem nodup_listBuckets (h : buckets.Pairwise fun e f => ∀ m ∈ e.2, m ∉ f.2) :
    ((Store.listBuckets ord buckets).map Prod.fst).Nodup := by
  have hmap : (Store.listBuckets ord buckets).map Prod.fst =
      buckets.flatMap fun e => ord.members e.2 := by
    simp [Store.listBuckets, List.map_flatMap, Function.comp_def]
  rw [hmap, List.nodup_flatMap]
  refine ⟨fun e _ => ord.nodup_members e.2, h.imp fun {e f} hef => ?_⟩
  intro m hm hm'
  exact hef m ((ord.mem_members e.2 m).mp hm) ((ord.mem_members f.2 m).mp hm')

theorem countP_listBuckets (q : F64 → Bool) :
    (Store.listBuckets ord buckets).countP (fun p => q p.2) =
      ((buckets.filter fun e => q e.1).map fun e => e.2.size).sum := by
  induction buckets with
  | nil => rfl
  | cons e buckets ih =>
    have hcons : Store.listBuckets ord (e :: buckets) =
        ((ord.members e.2).map fun m => (m, e.1)) ++ Store.listBuckets ord buckets := rfl
    have hmap : ((ord.members e.2).map fun m => (m, e.1)).countP (fun p => q p.2) =
        (ord.members e.2).countP fun _ => q e.1 := List.countP_map
    rw [hcons, List.countP_append, hmap, ih, List.filter_cons]
    split
    · rename_i hin
      rw [List.map_cons, List.sum_cons, List.countP_eq_length.mpr fun m _ => hin,
        (ord.members_perm e.2).length_eq, ExtTreeSet.length_toList]
    · rename_i hout
      rw [List.countP_eq_zero.mpr fun m _ => hout, Nat.zero_add]

/-! The reverse of a listing keeps no order inside a bucket. -/

theorem flatMap_inj {α β : Type} {f g : α → List β} (hlen : ∀ a, (f a).length = (g a).length)
    (l : List α) : l.flatMap f = l.flatMap g ↔ ∀ a ∈ l, f a = g a := by
  induction l with
  | nil => simp
  | cons a l ih =>
    rw [List.flatMap_cons, List.flatMap_cons, List.forall_mem_cons, ← ih]
    constructor
    · intro h
      exact List.append_inj h (hlen a)
    · rintro ⟨hhead, htail⟩
      rw [hhead, htail]

theorem reverse_eq_of_nodup {α : Type} {l : List α} (h : l.Nodup) :
    l.reverse = l ↔ l.length ≤ 1 := by
  match l with
  | [] => simp
  | [a] => simp
  | a :: b :: l =>
    constructor
    · intro hrev
      have hlast : (a :: b :: l).getLast (by simp) = a := by
        have hhead := congrArg List.head? hrev
        rw [List.head?_reverse, List.getLast?_eq_getLast_of_ne_nil (by simp)] at hhead
        exact Option.some.inj hhead
      have hmem : (b :: l).getLast (by simp) ∈ b :: l := List.getLast_mem _
      rw [List.getLast_cons (by simp)] at hlast
      rw [hlast] at hmem
      exact absurd hmem (List.nodup_cons.mp h).1
    · intro hlen
      simp at hlen

theorem listBuckets_reverse : Store.listBuckets ord buckets.reverse =
    (Store.listBuckets ord buckets).reverse ↔ ∀ e ∈ buckets, e.2.size ≤ 1 := by
  have hflat := flatMap_inj (f := fun e : F64 × Bucket => (ord.members e.2).map fun m => (m, e.1))
    (fun _ => (List.length_reverse ..).symm) buckets.reverse
  rw [Store.listBuckets, Store.listBuckets, List.reverse_flatMap]
  refine hflat.trans ?_
  simp only [List.mem_reverse]
  apply forall₂_congr
  intro e _
  have hnodup : ((ord.members e.2).map fun m => (m, e.1)).Nodup :=
    (ord.nodup_members e.2).map fun m n h => (Prod.mk.inj h).1
  have hlen : ((ord.members e.2).map fun m => (m, e.1)).length = e.2.size := by
    rw [List.length_map, (ord.members_perm e.2).length_eq, ExtTreeSet.length_toList]
  rw [← hlen, ← reverse_eq_of_nodup hnodup]
  exact eq_comm

end Buckets

namespace SortedSet

/-! ### The tree of a consistent sorted set -/

section Tree

variable {z : SortedSet} (hz : z.Consistent)
include hz

theorem Consistent.listed {x : F64} {b : Bucket} (hb : (x, b) ∈ z.tree.toList) {m : Bytes} :
    m ∈ b ↔ ∃ y, z.scores[m]? = some y ∧ y.rank = x.rank := by
  have htree : z.tree[x]? = some b :=
    (ExtTreeMap.mem_toList_iff_getKey?_eq_some_and_getElem?_eq_some.mp hb).2
  rw [hz.mem_bucket htree, Option.map_eq_some_iff]

omit hz in
theorem tree_ascending (z : SortedSet) :
    z.tree.toList.Pairwise fun e f => e.1.rank < f.1.rank := by
  apply ExtTreeMap.ordered_keys_toList.imp
  intro e f h
  rw [F64.compare_def] at h
  exact compare_lt_iff_lt.mp h

theorem Consistent.exists_bucket {m : Bytes} {y : F64} (hy : z.scores[m]? = some y) :
    ∃ x b, (x, b) ∈ z.tree.toList ∧ m ∈ b ∧ y.rank = x.rank := by
  obtain ⟨b, hb, hmem⟩ := (hz.linked m y).mp ⟨y, hy, rfl⟩
  obtain ⟨x, hxy, hlist⟩ :=
    ExtTreeMap.getElem?_eq_some_iff_exists_compare_eq_eq_and_mem_toList.mp hb
  exact ⟨x, b, hlist, hmem, (F64.compare_eq_iff y x).mp hxy⟩

theorem Consistent.disjoint :
    z.tree.toList.Pairwise fun e f => ∀ m ∈ e.2, m ∉ f.2 := by
  apply List.Pairwise.imp_of_mem _ z.tree_ascending
  intro e f he hf hlt m hm hm'
  obtain ⟨x, hx, hxe⟩ := (hz.listed he).mp hm
  obtain ⟨y, hy, hyf⟩ := (hz.listed hf).mp hm'
  have hxy : x = y := Option.some.inj (hx.symm.trans hy)
  rw [hxy] at hxe
  omega

theorem Consistent.one_bucket {m : Bytes} (hm : m ∈ z.scores) :
    ∃! e, e ∈ z.tree.toList ∧ m ∈ e.2 := by
  obtain ⟨y, hy⟩ := Option.isSome_iff_exists.mp (ExtTreeMap.mem_iff_isSome_getElem?.mp hm)
  obtain ⟨x, b, hlist, hmem, -⟩ := hz.exists_bucket hy
  refine ⟨(x, b), ⟨hlist, hmem⟩, ?_⟩
  rintro e ⟨he, hme⟩
  by_contra hne
  have hsymm : Std.Symm fun (e f : F64 × Bucket) => ¬ (m ∈ e.2 ∧ m ∈ f.2) :=
    ⟨fun _ _ h h' => h h'.symm⟩
  have hapart := (hz.disjoint.imp fun {e f} h => show ¬ (m ∈ e.2 ∧ m ∈ f.2) from
    fun h' => h m h'.1 h'.2).forall he hlist hne
  exact hapart ⟨hme, hmem⟩

end Tree

theorem Consistent.tree_nonempty {z : SortedSet} (hz : z.Consistent)
    (hne : z.scores.isEmpty = false) : z.tree.isEmpty = false := by
  obtain ⟨m, y, hy⟩ := (ExtTreeMap.isEmpty_eq_false_iff_exists z.scores).mp hne
  obtain ⟨x, b, hlist, -, -⟩ := hz.exists_bucket hy
  by_contra hempty
  rw [Bool.not_eq_false, ExtTreeMap.isEmpty_iff] at hempty
  rw [hempty] at hlist
  simp at hlist

/-- The buckets have at most one member each when no two scores are equal. -/
theorem Consistent.small_buckets {z : SortedSet} (hz : z.Consistent) :
    (∀ e ∈ z.tree.toList, e.2.size ≤ 1) ↔ ∀ (m n : Bytes) (x y : F64),
      z.scores[m]? = some x → z.scores[n]? = some y → x.rank = y.rank → m = n := by
  have hsize : ∀ b : Bucket, b.size ≤ 1 ↔ ∀ m ∈ b, ∀ n ∈ b, m = n := by
    intro b
    rw [← ExtTreeSet.length_toList, ← List.toFinset_card_of_nodup b.nodup_toList,
      Finset.card_le_one]
    simp only [List.mem_toFinset, ExtTreeSet.mem_toList]
  simp only [hsize]
  constructor
  · intro hone m n x y hx hy hxy
    obtain ⟨w, b, hlist, hm, hxw⟩ := hz.exists_bucket hx
    exact hone (w, b) hlist m hm n ((hz.listed hlist).mpr ⟨y, hy, hxy.symm.trans hxw⟩)
  · intro hdistinct e he m hm n hn
    obtain ⟨x, hx, hxe⟩ := (hz.listed he).mp hm
    obtain ⟨y, hy, hye⟩ := (hz.listed he).mp hn
    exact hdistinct m n x y hx hy (hxe.trans hye.symm)

/-! ### The two full listings -/

def ascending (ord : IterOrder) (z : SortedSet) : List (Bytes × F64) :=
  Store.listBuckets ord z.tree.toList

def descending (ord : IterOrder) (z : SortedSet) : List (Bytes × F64) :=
  Store.listBuckets ord z.tree.toList.reverse

section Listings

variable (ord : IterOrder) {z : SortedSet}

theorem descending_perm : (z.descending ord).Perm (z.ascending ord) :=
  (List.reverse_perm _).flatMap_right _

theorem ascending_sorted : (z.ascending ord).Pairwise fun p q => p.2.rank ≤ q.2.rank :=
  pairwise_listBuckets ord (R := fun x y => x.rank ≤ y.rank) (fun _ => Int.le_refl _)
    (z.tree_ascending.imp Int.le_of_lt)

theorem descending_sorted : (z.descending ord).Pairwise fun p q => q.2.rank ≤ p.2.rank :=
  pairwise_listBuckets ord (R := fun x y => y.rank ≤ x.rank) (fun _ => Int.le_refl _)
    (List.pairwise_reverse.mpr (z.tree_ascending.imp Int.le_of_lt))

variable (hz : z.Consistent)
include hz

theorem Consistent.nodup_ascending : ((z.ascending ord).map Prod.fst).Nodup :=
  nodup_listBuckets ord hz.disjoint

theorem Consistent.nodup_descending : ((z.descending ord).map Prod.fst).Nodup :=
  ((descending_perm ord).map Prod.fst).nodup_iff.mpr (hz.nodup_ascending ord)

theorem Consistent.mem_ascending (m : Bytes) (r : ℤ) :
    (∃ x, (m, x) ∈ z.ascending ord ∧ x.rank = r) ↔ z.scores[m]?.map F64.rank = some r := by
  rw [Option.map_eq_some_iff]
  constructor
  · rintro ⟨x, hx, rfl⟩
    obtain ⟨b, hb, hm⟩ := (mem_listBuckets ord m x).mp hx
    exact (hz.listed hb).mp hm
  · rintro ⟨y, hy, rfl⟩
    obtain ⟨x, b, hb, hm, hrank⟩ := hz.exists_bucket hy
    exact ⟨x, (mem_listBuckets ord m x).mpr ⟨b, hb, hm⟩, hrank.symm⟩

theorem Consistent.length_ascending : (z.ascending ord).length = z.scores.size := by
  have hperm : ((z.ascending ord).map Prod.fst).Perm (z.scores.toList.map Prod.fst) := by
    rw [List.perm_ext_iff_of_nodup (hz.nodup_ascending ord)
      (ExtTreeMap.nodup_fst_toList _ _ (.refl _))]
    intro m
    have hmem := fun r => hz.mem_ascending ord m r
    simp only [Option.map_eq_some_iff] at hmem
    simp only [List.mem_map]
    constructor
    · rintro ⟨⟨m, x⟩, hx, rfl⟩
      obtain ⟨y, hy, -⟩ := (hmem x.rank).mp ⟨x, hx, rfl⟩
      exact ⟨(m, y), ExtTreeMap.mem_toList_iff_getElem?_eq_some.mpr hy, rfl⟩
    · rintro ⟨⟨m, y⟩, hy, rfl⟩
      obtain ⟨x, hx, -⟩ := (hmem y.rank).mpr
        ⟨y, ExtTreeMap.mem_toList_iff_getElem?_eq_some.mp hy, rfl⟩
      exact ⟨(m, x), hx, rfl⟩
  have hlen := hperm.length_eq
  rwa [List.length_map, List.length_map, ExtTreeMap.length_toList] at hlen

theorem Consistent.length_descending : (z.descending ord).length = z.scores.size := by
  rw [(descending_perm ord).length_eq, hz.length_ascending ord]

end Listings

end SortedSet

namespace Store

/-! ### ZRANGE and ZREVRANGE -/

section Ranges

variable {s : Store} {now : Reading} {key : Str} {e : Entry} {z : SortedSet}
  (he : s.live now.instant key = some e) (hz : e.value = .sortedSet z) (ord : IterOrder)
  (start stop : Int64)
include he hz

theorem zRange_spec : (zRange ord key start stop).runAt now s =
    (.ok (sliceMembers (z.ascending ord) start stop), s.check now.instant key) := by
  rw [zRange, view_spec, he]
  dsimp only
  rw [hz]
  rfl

theorem zRevRange_spec : (zRevRange ord key start stop).runAt now s =
    (.ok (sliceMembers (z.descending ord) start stop), s.check now.instant key) := by
  rw [zRevRange, view_spec, he]
  dsimp only
  rw [hz]
  rfl

theorem zRange_all (hlen : (z.ascending ord).length ≤ isizeMax) :
    (zRange ord key 0 (-1)).runAt now s =
      (.ok (z.ascending ord), s.check now.instant key) := by
  rw [zRange_spec he hz, sliceMembers_all hlen]

theorem zRevRange_all (hlen : (z.descending ord).length ≤ isizeMax) :
    (zRevRange ord key 0 (-1)).runAt now s =
      (.ok (z.descending ord), s.check now.instant key) := by
  rw [zRevRange_spec he hz, sliceMembers_all hlen]

end Ranges

/-- ZCOUNT counts the members of the full listing between its bounds. -/
theorem countBetween_eq (ord : IterOrder) (z : SortedSet) (minScore maxScore : F64) :
    countBetween minScore maxScore z.tree =
      if z.tree.isEmpty = false ∧ maxScore.rank < minScore.rank then .fault .rangeOutOfBounds
      else pure ((z.ascending ord).countP fun p =>
        minScore.rank ≤ p.2.rank && p.2.rank ≤ maxScore.rank) := by
  unfold countBetween
  simp only [Bool.and_eq_true, Bool.not_eq_eq_eq_not, Bool.not_true, decide_eq_true_eq]
  rw [SortedSet.ascending, countP_listBuckets ord fun x =>
    minScore.rank ≤ x.rank && x.rank ≤ maxScore.rank]

/-- ZRANGE and ZREVRANGE are windows of the full listing exactly when `stop` is
not in front of the first position or `start` is beyond the last one. No sorted
set in memory has more than `isize::MAX` members. -/
theorem zRange_window (s : Store) (hs : s.Inv StoredValue.WellFormed) (now : Reading) (key : Str)
    (e : Entry) (z : SortedSet) (he : s.live now.instant key = some e)
    (hz : e.value = .sortedSet z) (hlen : z.scores.size ≤ isizeMax) (ord : IterOrder)
    (start stop : Int64) :
    ∃ up down, ((zRange ord key 0 (-1)).runAt now s).1 = .ok up ∧
      ((zRevRange ord key 0 (-1)).runAt now s).1 = .ok down ∧
      up.length = z.scores.size ∧ down.length = z.scores.size ∧
      (((zRange ord key start stop).runAt now s).1 = .ok (window up
          (fromEnd z.scores.size start.toInt) (fromEnd z.scores.size stop.toInt)) ↔
        -(z.scores.size : ℤ) ≤ stop.toInt ∨ (z.scores.size : ℤ) ≤ start.toInt) ∧
      (((zRevRange ord key start stop).runAt now s).1 = .ok (window down
          (fromEnd z.scores.size start.toInt) (fromEnd z.scores.size stop.toInt)) ↔
        -(z.scores.size : ℤ) ≤ stop.toInt ∨ (z.scores.size : ℤ) ≤ start.toInt) := by
  obtain ⟨hne, hc⟩ : z.scores.isEmpty = false ∧ z.Consistent := by
    have hwell := value_of_live hs he
    rw [hz] at hwell
    exact hwell
  have hup := hc.length_ascending ord
  have hdown := hc.length_descending ord
  have hpos : z.scores.size ≠ 0 := by
    intro h
    simp [ExtTreeMap.isEmpty_eq_size_beq_zero, h] at hne
  refine ⟨z.ascending ord, z.descending ord, ?_, ?_, hup, hdown, ?_, ?_⟩
  · rw [zRange_all he hz ord (hup ▸ hlen)]
  · rw [zRevRange_all he hz ord (hdown ▸ hlen)]
  · have hslice := sliceMembers_window start stop
      (List.length_pos_iff.mp (hup ▸ Nat.pos_of_ne_zero hpos)) (hup ▸ hlen)
    rw [zRange_spec he hz, Except.ok.injEq, ← hup]
    exact hslice
  · have hslice := sliceMembers_window start stop
      (List.length_pos_iff.mp (hdown ▸ Nat.pos_of_ne_zero hpos)) (hdown ▸ hlen)
    rw [zRevRange_spec he hz, Except.ok.injEq, ← hdown]
    exact hslice

/-- ZRANGE k 0 -2 of two members. -/
theorem zRange_window_two :
    let z := zInsert ⟨2⟩ (Str.utf8 "b") (zInsert ⟨1⟩ (Str.utf8 "a") ⟨∅, ∅⟩)
    let s := Store.empty.put (Str.lit "k") (some (.sortedSet z)) none
    ∃ up, ((zRange .sorted (Str.lit "k") 0 (-1)).runAt ⟨0, 0⟩ s).1 = .ok up ∧
      ((zRange .sorted (Str.lit "k") 0 (-2)).runAt ⟨0, 0⟩ s).1 = .ok (window up 0 0) := by
  intro z s
  have hz : z.Consistent :=
    consistent_zInsert (consistent_zInsert SortedSet.consistent_empty _ _) _ _
  have hs : s.Inv StoredValue.WellFormed := by
    apply inv_put (inv_empty _) _ _ (fun h => by cases h)
    intro value hv
    rw [← Option.some.inj hv]
    exact ⟨rfl, hz⟩
  have hlive : s.live 0 (Str.lit "k") = some ⟨.sortedSet z, none⟩ := live_put_self ..
  obtain ⟨up, -, hup, -, -, -, hwindow, -⟩ := zRange_window s hs ⟨0, 0⟩ (Str.lit "k") _ z hlive rfl
    (by decide) .sorted 0 (-2)
  exact ⟨up, hup, hwindow.mpr (by decide)⟩

/-- ZRANGE k 0 -2 of one member. -/
theorem zRange_stop_before_first :
    let z := zInsert ⟨1⟩ (Str.utf8 "a") ⟨∅, ∅⟩
    let s := Store.empty.put (Str.lit "k") (some (.sortedSet z)) none
    ((zRange .sorted (Str.lit "k") 0 (-1)).runAt ⟨0, 0⟩ s).1 = .ok [(Str.utf8 "a", ⟨1⟩)] ∧
      window [(Str.utf8 "a", (⟨1⟩ : F64))] (fromEnd 1 0) (fromEnd 1 (-2)) = [] ∧
      ((zRange .sorted (Str.lit "k") 0 (-2)).runAt ⟨0, 0⟩ s).1 = .ok [(Str.utf8 "a", ⟨1⟩)] ∧
      ((zRevRange .sorted (Str.lit "k") 0 (-2)).runAt ⟨0, 0⟩ s).1 =
        .ok [(Str.utf8 "a", ⟨1⟩)] := by
  intro z s
  have hlive : s.live 0 (Str.lit "k") = some ⟨.sortedSet z, none⟩ := live_put_self ..
  have hall : z.ascending .sorted = [(Str.utf8 "a", ⟨1⟩)] := rfl
  have hrev : z.descending .sorted = [(Str.utf8 "a", ⟨1⟩)] := rfl
  have hslice : sliceMembers [(Str.utf8 "a", ⟨1⟩)] 0 (-2) = [(Str.utf8 "a", ⟨1⟩)] := by decide
  refine ⟨?_, rfl, ?_, ?_⟩
  · rw [zRange_all hlive rfl .sorted (by decide), hall]
  · rw [zRange_spec hlive rfl, hall, hslice]
  · rw [zRevRange_spec hlive rfl, hrev, hslice]

end Store

end FireRedis
