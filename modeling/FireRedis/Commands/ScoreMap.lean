import FireRedis.Commands.Writes
import FireRedis.Store.Listings

/-!
# Sorted sets as maps from members to scores

ZADD and ZREM on one key are updates of a map, whatever its two indexes look
like in between. After any such commands, the queries on the key describe that
map. A listing gives a member the first score that came to its bucket, which is
equal to its own in the order of `OrderedFloat`.
-/

namespace FireRedis
open Std Counted

abbrev ScoreMap := Bytes → Option F64

/-- One ZADD or ZREM. -/
inductive ZEdit where
  | add (entries : List (F64 × Bytes))
  | rem (members : List Bytes)

namespace ZEdit

def run (key : Str) : ZEdit → StoreM Value
  | .add entries => handleZAdd key entries
  | .rem members => handleZRem key members

/-- The scores are set and the members removed in order. -/
def apply : ZEdit → ScoreMap → ScoreMap
  | .add entries, M => entries.foldl (fun M e => Function.update M e.2 (some e.1)) M
  | .rem members, M => members.foldl (fun M m => Function.update M m none) M

/-- The number of members that are new, or that are present. -/
def changed : ZEdit → ScoreMap → ℕ
  | .add entries, M => ((entries.map Prod.snd).toFinset.filter fun m => M m = none).card
  | .rem members, M => (members.toFinset.filter fun m => M m ≠ none).card

end ZEdit

/-- A listing has every member once, with an equal score. -/
structure Lists (M : ScoreMap) (items : List (Bytes × F64)) : Prop where
  nodup : (items.map Prod.fst).Nodup
  scores : ∀ m r, (∃ x, (m, x) ∈ items ∧ x.rank = r) ↔ (M m).map F64.rank = some r

/-- A listing counts the members whose scores pass a test. -/
theorem Lists.countP {M : ScoreMap} {items : List (Bytes × F64)} (h : Lists M items)
    (q : ℤ → Bool) : {m | ∃ x, M m = some x ∧ q x.rank = true}.Finite ∧
      items.countP (fun p => q p.2.rank) = {m | ∃ x, M m = some x ∧ q x.rank = true}.ncard := by
  have hset : {m | ∃ x, M m = some x ∧ q x.rank = true} =
      ((items.filter fun p => q p.2.rank).map Prod.fst).toFinset := by
    ext m
    have hm := fun r => h.scores m r
    simp only [Option.map_eq_some_iff] at hm
    simp only [Set.mem_ofPred_eq, List.coe_toFinset, List.mem_map, List.mem_filter, Prod.exists,
      exists_and_right, exists_eq_right]
    constructor
    · rintro ⟨y, hy, hq⟩
      obtain ⟨x, hx, hrank⟩ := (hm y.rank).mpr ⟨y, hy, rfl⟩
      exact ⟨x, hx, by rw [hrank]; exact hq⟩
    · rintro ⟨x, hx, hq⟩
      obtain ⟨y, hy, hrank⟩ := (hm x.rank).mp ⟨x, hx, rfl⟩
      exact ⟨y, hy, by rw [hrank]; exact hq⟩
  have hnodup : ((items.filter fun p => q p.2.rank).map Prod.fst).Nodup :=
    h.nodup.sublist (List.filter_sublist.map _)
  rw [hset, Set.ncard_coe_finset, List.toFinset_card_of_nodup hnodup, List.length_map,
    List.countP_eq_length_filter]
  exact ⟨Finset.finite_toSet _, rfl⟩

/-! ### Edits of the two indexes -/

namespace SortedSet

def scoreMap (z : SortedSet) : ScoreMap := fun m => z.scores[m]?

theorem scoreMap_zInsert (z : SortedSet) (x : F64) (m : Bytes) :
    (Store.zInsert x m z).scoreMap = Function.update z.scoreMap m (some x) := by
  funext k
  by_cases hk : k = m
  · rw [hk, Function.update_self, scoreMap, Store.zInsert, ExtTreeMap.getElem?_insert_self]
  · have hcmp : ¬ compare m k = .eq := fun h => hk (LawfulEqCmp.eq_of_compare h).symm
    rw [Function.update_of_ne hk, scoreMap, Store.zInsert, ExtTreeMap.getElem?_insert, if_neg hcmp]
    rfl

theorem scoreMap_zErase (z : SortedSet) (m : Bytes) :
    (Store.zErase z m).scoreMap = Function.update z.scoreMap m none := by
  funext k
  by_cases hk : k = m
  · rw [hk, Function.update_self, scoreMap, Store.zErase, ExtTreeMap.getElem?_erase_self]
  · have hcmp : ¬ compare m k = .eq := fun h => hk (LawfulEqCmp.eq_of_compare h).symm
    rw [Function.update_of_ne hk, scoreMap, Store.zErase, ExtTreeMap.getElem?_erase, if_neg hcmp]
    rfl

theorem contains_eq (z : SortedSet) (m : Bytes) : z.scores.contains m = (z.scoreMap m).isSome :=
  ExtTreeMap.contains_eq_isSome_getElem?

theorem isEmpty_iff (z : SortedSet) : z.scores.isEmpty = true ↔ ∀ m, z.scoreMap m = none := by
  rw [← Bool.not_eq_false, ExtTreeMap.isEmpty_eq_false_iff_exists]
  simp only [not_exists, scoreMap, Option.eq_none_iff_forall_ne_some, ne_eq]

theorem lists_ascending {z : SortedSet} (hz : z.Consistent) (ord : IterOrder) :
    Lists z.scoreMap (z.ascending ord) :=
  ⟨hz.nodup_ascending ord, hz.mem_ascending ord⟩

theorem lists_descending {z : SortedSet} (hz : z.Consistent) (ord : IterOrder) :
    Lists z.scoreMap (z.descending ord) := by
  refine ⟨hz.nodup_descending ord, fun m r => ?_⟩
  rw [← (lists_ascending hz ord).scores]
  simp only [(descending_perm ord).mem_iff]

/-- A consistent sorted set without members has no buckets either. -/
theorem Consistent.eq_fresh {z : SortedSet} (hz : z.Consistent) (h : z.scores.isEmpty = true) :
    z = ⟨∅, ∅⟩ := by
  obtain ⟨scores, tree⟩ := z
  obtain rfl : scores = ∅ := ExtTreeMap.isEmpty_iff.mp h
  have htree : tree = ∅ := by
    rw [← ExtTreeMap.toList_eq_nil_iff, List.eq_nil_iff_forall_not_mem]
    rintro ⟨x, b⟩ hlist
    have hb : tree[x]? = some b :=
      (ExtTreeMap.mem_toList_iff_getKey?_eq_some_and_getElem?_eq_some.mp hlist).2
    obtain ⟨m, hm⟩ := (ExtTreeSet.isEmpty_eq_false_iff_exists b).mp (hz.buckets x b hb)
    obtain ⟨y, hy, -⟩ := (hz.linked m x).mpr ⟨b, hb, hm⟩
    simp at hy
  rw [htree]

end SortedSet

namespace ZEdit

/-- What an edit makes of a sorted set, and how many members it counts. -/
def on : ZEdit → SortedSet → ℕ × SortedSet
  | .add entries => counted (fun z e => !z.scores.contains e.2)
      (fun z e => Store.zInsert e.1 e.2 z) entries
  | .rem members => counted (fun z m => z.scores.contains m) Store.zErase members

theorem on_scoreMap (edit : ZEdit) (z : SortedSet) :
    (edit.on z).2.scoreMap = edit.apply z.scoreMap := by
  cases edit with
  | add entries =>
    rw [on, counted_snd, apply]
    induction entries generalizing z with
    | nil => rfl
    | cons e entries ih => rw [List.foldl_cons, List.foldl_cons, ih, z.scoreMap_zInsert]
  | rem members =>
    rw [on, counted_snd, apply]
    induction members generalizing z with
    | nil => rfl
    | cons m members ih => rw [List.foldl_cons, List.foldl_cons, ih, z.scoreMap_zErase]

theorem add_nonempty {entries : List (F64 × Bytes)} (hne : entries ≠ []) (z : SortedSet) :
    ((ZEdit.add entries).on z).2.scores.isEmpty = false := by
  rcases List.eq_nil_or_concat entries with h | ⟨init, last, rfl⟩
  · exact absurd h hne
  · have hlast : (ZEdit.add (init.concat last)).apply z.scoreMap last.2 = some last.1 := by
      rw [apply, List.concat_eq_append, List.foldl_append, List.foldl_cons, List.foldl_nil,
        Function.update_self]
    by_contra hempty
    rw [Bool.not_eq_false, SortedSet.isEmpty_iff, on_scoreMap] at hempty
    rw [hempty last.2] at hlast
    cases hlast

theorem on_changed (edit : ZEdit) (z : SortedSet) : (edit.on z).1 = edit.changed z.scoreMap := by
  cases edit with
  | add entries =>
    have hclose : ∀ (z : SortedSet) (e : F64 × Bytes) m,
        (!(Store.zInsert e.1 e.2 z).scores.contains m) =
          (decide (m ≠ e.2) && !z.scores.contains m) := by
      intro z e m
      rw [SortedSet.contains_eq, SortedSet.contains_eq, z.scoreMap_zInsert]
      by_cases hm : m = e.2
      · simp [hm]
      · simp [hm]
    rw [on, counted_open Prod.snd (fun (z : SortedSet) m => !z.scores.contains m)
      (fun _ _ => rfl) hclose]
    simp [changed, SortedSet.contains_eq]
  | rem members =>
    have hclose : ∀ (z : SortedSet) m' m, (Store.zErase z m').scores.contains m =
        (decide (m ≠ m') && z.scores.contains m) := by
      intro z m' m
      rw [SortedSet.contains_eq, SortedSet.contains_eq, z.scoreMap_zErase]
      by_cases hm : m = m'
      · simp [hm]
      · simp [hm]
    have hcount : (counted (fun (z : SortedSet) m => z.scores.contains m) Store.zErase members
        z).1 = _ := counted_open id (fun (z : SortedSet) m => z.scores.contains m)
      (fun _ _ => rfl) hclose members z
    rw [on, hcount]
    simp [changed, SortedSet.contains_eq, Option.isSome_iff_ne_none]

theorem on_consistent (edit : ZEdit) {z : SortedSet} (hz : z.Consistent) :
    (edit.on z).2.Consistent := by
  cases edit with
  | add entries =>
    rw [on, counted_snd]
    induction entries generalizing z with
    | nil => exact hz
    | cons e entries ih => exact ih (Store.consistent_zInsert hz e.1 e.2)
  | rem members => exact Store.consistent_zEraseMembers hz members

end ZEdit

/-! ### Runs -/

/-- The key holds the sorted set and has no deadline; an empty one is no key. -/
structure Holds (s : Store) (key : Str) (z : SortedSet) : Prop where
  consistent : z.Consistent
  value : s.data[key]? = if z.scores.isEmpty then none else some (.sortedSet z)
  forever : s.expirations[key]? = none

section Holds

variable {s : Store} {key : Str} {z : SortedSet} (h : Holds s key z)
include h

theorem Holds.live (t : Instant) :
    s.live t key = if z.scores.isEmpty then none else some ⟨.sortedSet z, none⟩ := by
  rw [Store.live, h.value, h.forever]
  split <;> rfl

theorem Holds.under (t : Instant) : Kind.zset.Under s t key z := by
  unfold Kind.Under
  rw [h.live]
  cases hempty : z.scores.isEmpty with
  | true => exact h.consistent.eq_fresh hempty
  | false => rfl

theorem Holds.pending (t : Instant) : s.pending t key = none := by
  rw [Store.pending, h.forever]
  rfl

theorem Holds.check (t : Instant) : Holds (s.check t key) key z where
  consistent := h.consistent
  value := by
    rw [Store.check, Store.put_data, if_pos rfl, h.live]
    split <;> rfl
  forever := by rw [Store.check, Store.put_expirations, if_pos rfl, h.pending]

omit h in
theorem holds_put (hz : z.Consistent) (hne : z.scores.isEmpty = false) :
    Holds (s.put key (some (.sortedSet z)) none) key z where
  consistent := hz
  value := by rw [Store.put_data, if_pos rfl, hne, if_neg Bool.false_ne_true]
  forever := by rw [Store.put_expirations, if_pos rfl]

omit h in
theorem holds_removed (hz : z.Consistent) (hempty : z.scores.isEmpty = true) :
    Holds (s.put key none none) key z where
  consistent := hz
  value := by rw [Store.put_data, if_pos rfl, if_pos hempty]
  forever := by rw [Store.put_expirations, if_pos rfl]

end Holds

/-- One edit counts what it changes, and the key holds what it makes. -/
theorem edit_holds {s : Store} {key : Str} {z : SortedSet} (h : Holds s key z) (now : Reading)
    (edit : ZEdit) : ((edit.run key).runAt now s).1 = .ok (count (edit.on z).1) ∧
      Holds ((edit.run key).runAt now s).2 key (edit.on z).2 := by
  have hz := edit.on_consistent h.consistent
  cases edit with
  | add entries =>
    by_cases hne : entries = []
    · have hrun : ((ZEdit.add []).run key).runAt now s =
          (.ok (.integer 0), s.check now.instant key) := guard_spec .zset now (h.under _) _
      rw [hne, hrun]
      exact ⟨rfl, h.check _⟩
    · have hrun := zAdd_inserts key s now entries z hne (h.under _)
      rw [h.pending] at hrun
      rw [ZEdit.run, hrun]
      exact ⟨rfl, holds_put hz (ZEdit.add_nonempty hne z)⟩
  | rem members =>
    have hrun := zRem_removes key s now members z (h.under _)
    rw [h.live] at hrun
    rw [ZEdit.run, hrun]
    cases hempty : z.scores.isEmpty with
    | true =>
      have hsame : (ZEdit.rem members).on z = (0, z) := by
        rw [ZEdit.on]
        exact counted_fixed _ _ fun m _ => zset_empty z hempty m
      rw [hsame]
      exact ⟨rfl, h.check _⟩
    | false =>
      refine ⟨rfl, ?_⟩
      show Holds (if ((ZEdit.rem members).on z).2.scores.isEmpty then s.put key none none
        else s.put key (some (.sortedSet ((ZEdit.rem members).on z).2)) none) key _
      cases hdrained : ((ZEdit.rem members).on z).2.scores.isEmpty with
      | true => exact holds_removed hz hdrained
      | false => exact holds_put hz hdrained

def editAll (key : Str) (edits : List (Reading × ZEdit)) (s : Store) : Store :=
  edits.foldl (fun s e => ((e.2.run key).runAt e.1 s).2) s

def scoreMap (edits : List (Reading × ZEdit)) : ScoreMap :=
  edits.foldl (fun M e => e.2.apply M) fun _ => none

theorem edits_hold {key : Str} (edits : List (Reading × ZEdit)) {s : Store} {z : SortedSet}
    (h : Holds s key z) : ∃ z', Holds (editAll key edits s) key z' ∧
      z'.scoreMap = edits.foldl (fun M e => e.2.apply M) z.scoreMap := by
  induction edits generalizing s z with
  | nil => exact ⟨z, h, rfl⟩
  | cons e edits ih =>
    obtain ⟨z', hz', hmap⟩ := ih (edit_holds h e.1 e.2).2
    refine ⟨z', hz', ?_⟩
    rw [hmap, e.2.on_scoreMap]
    rfl

theorem holds_absent {s : Store} {key : Str} (hdata : s.data[key]? = none)
    (hexp : s.expirations[key]? = none) : Holds s key ⟨∅, ∅⟩ where
  consistent := SortedSet.consistent_empty
  value := by simp [hdata]
  forever := hexp

/-! ### Queries -/

section Queries

variable {s : Store} {key : Str} {z : SortedSet} (h : Holds s key z) (now : Reading)
include h

/-- A query that gives the same for an absent key and an empty sorted set. -/
theorem Holds.view {α : Type} (absent : α) (f : StoredValue → StoreM α) (r : α)
    (hempty : z.scores.isEmpty = true → absent = r)
    (hf : ∀ s, ((f (.sortedSet z)).runAt now s).1 = .ok r) :
    ((Store.view key absent f).runAt now s).1 = .ok r := by
  rw [Store.view_spec, h.live]
  cases he : z.scores.isEmpty with
  | true => exact congrArg Except.ok (hempty he)
  | false => exact hf _

theorem Holds.zScore (m : Bytes) :
    ((Store.zScore key m).runAt now s).1 = .ok (z.scoreMap m) := by
  apply h.view now
  · intro hempty
    exact (z.isEmpty_iff.mp hempty m).symm
  · exact fun _ => rfl

theorem Holds.zCard : ((Store.zCard key).runAt now s).1 = .ok z.scores.size := by
  apply h.view now
  · intro hempty
    rw [ExtTreeMap.isEmpty_iff.mp hempty]
    rfl
  · exact fun _ => rfl

theorem Holds.zCount (ord : IterOrder) {minScore maxScore : F64}
    (hle : minScore.rank ≤ maxScore.rank) :
    ((Store.zCount key minScore maxScore).runAt now s).1 =
      .ok ((z.ascending ord).countP fun p =>
        minScore.rank ≤ p.2.rank && p.2.rank ≤ maxScore.rank) := by
  apply h.view now
  · intro hempty
    rw [h.consistent.eq_fresh hempty]
    rfl
  · intro s
    dsimp only
    rw [Store.countBetween_eq ord, if_neg (by omega)]
    rfl

theorem Holds.zRange (ord : IterOrder) (hlen : z.scores.size ≤ isizeMax) :
    ((Store.zRange ord key 0 (-1)).runAt now s).1 = .ok (z.ascending ord) := by
  apply h.view now
  · intro hempty
    rw [h.consistent.eq_fresh hempty]
    rfl
  · intro s
    rw [← h.consistent.length_ascending ord] at hlen
    exact congrArg Except.ok (Store.sliceMembers_all hlen)

theorem Holds.zRevRange (ord : IterOrder) (hlen : z.scores.size ≤ isizeMax) :
    ((Store.zRevRange ord key 0 (-1)).runAt now s).1 = .ok (z.descending ord) := by
  apply h.view now
  · intro hempty
    rw [h.consistent.eq_fresh hempty]
    rfl
  · intro s
    rw [← h.consistent.length_descending ord] at hlen
    exact congrArg Except.ok (Store.sliceMembers_all hlen)

theorem Holds.existsKey : ∃ b, ((Store.existsKey key).runAt now s).1 = .ok b ∧
    (b = true ↔ ∃ m, z.scoreMap m ≠ none) := by
  refine ⟨_, by rw [Store.existsKey_spec], ?_⟩
  rw [h.live]
  cases hempty : z.scores.isEmpty with
  | true => simp [z.isEmpty_iff.mp hempty]
  | false =>
    have hsome : ¬ ∀ m, z.scoreMap m = none := by
      rw [← z.isEmpty_iff, hempty]
      exact Bool.false_ne_true
    simpa using hsome

end Queries

/-- After any ZADD and ZREM commands on a key that was absent, each at its own
time, the next one replies how many members it changes, and every query on the
key describes the map of the scores that were set. -/
theorem edits_scoreMap (s : Store) (key : Str) (hdata : s.data[key]? = none)
    (hexp : s.expirations[key]? = none) (edits : List (Reading × ZEdit)) (now : Reading)
    (ord : IterOrder) :
    let s' := editAll key edits s
    let M := scoreMap edits
    {m | M m ≠ none}.Finite ∧
    (∀ edit : ZEdit, ((edit.run key).runAt now s').1 = .ok (count (edit.changed M))) ∧
    (∀ m, ((Store.zScore key m).runAt now s').1 = .ok (M m)) ∧
    ((Store.zCard key).runAt now s').1 = .ok {m | M m ≠ none}.ncard ∧
    (∀ minScore maxScore : F64, minScore.rank ≤ maxScore.rank →
      ((Store.zCount key minScore maxScore).runAt now s').1 = .ok {m | ∃ x, M m = some x ∧
        minScore.rank ≤ x.rank ∧ x.rank ≤ maxScore.rank}.ncard) ∧
    ({m | M m ≠ none}.ncard ≤ isizeMax → ∃ up down,
      ((Store.zRange ord key 0 (-1)).runAt now s').1 = .ok up ∧
      ((Store.zRevRange ord key 0 (-1)).runAt now s').1 = .ok down ∧
      Lists M up ∧ (up.Pairwise fun p q => p.2.rank ≤ q.2.rank) ∧
      Lists M down ∧ down.Pairwise fun p q => q.2.rank ≤ p.2.rank) ∧
    ∃ b, ((Store.existsKey key).runAt now s').1 = .ok b ∧ (b = true ↔ ∃ m, M m ≠ none) := by
  intro s' M
  obtain ⟨z, h, hmap⟩ := edits_hold edits (holds_absent hdata hexp)
  have hM : z.scoreMap = M := hmap
  have hlists := SortedSet.lists_ascending h.consistent ord
  rw [hM] at hlists
  have hset : {m | M m ≠ none} = {m | ∃ x, M m = some x ∧ true = true} := by
    ext m
    simp [Option.ne_none_iff_exists']
  obtain ⟨hfinite, hall⟩ := hlists.countP fun _ => true
  have hsize : z.scores.size = {m | M m ≠ none}.ncard := by
    rw [hset, ← hall, ← h.consistent.length_ascending ord]
    simp
  refine ⟨hset ▸ hfinite, fun edit => ?_, fun m => ?_, ?_, fun minScore maxScore hle => ?_,
    fun hlen => ?_, ?_⟩
  · rw [(edit_holds h now edit).1, edit.on_changed, hM]
  · rw [h.zScore, hM]
  · rw [h.zCard, hsize]
  · have hcount := (hlists.countP fun r => minScore.rank ≤ r && r ≤ maxScore.rank).2
    simp only [Bool.and_eq_true, decide_eq_true_eq] at hcount
    rw [h.zCount now ord hle, hcount]
  · rw [← hsize] at hlen
    have hdown := SortedSet.lists_descending h.consistent ord
    rw [hM] at hdown
    exact ⟨z.ascending ord, z.descending ord, h.zRange now ord hlen, h.zRevRange now ord hlen,
      hlists, SortedSet.ascending_sorted ord, hdown, SortedSet.descending_sorted ord⟩
  · rw [← hM]
    exact h.existsKey now

/-- ZADD k 1 a 2 b, then ZREM k a. -/
theorem edits_scoreMap_two :
    let edits : List (Reading × ZEdit) :=
      [(⟨0, 0⟩, .add [(⟨1⟩, Str.utf8 "a"), (⟨2⟩, Str.utf8 "b")]), (⟨0, 0⟩, .rem [Str.utf8 "a"])]
    ((Store.zScore (Str.lit "k") (Str.utf8 "b")).runAt ⟨0, 0⟩
      (editAll (Str.lit "k") edits Store.empty)).1 = .ok (some ⟨2⟩) := by
  intro edits
  have hnone : (∅ : ExtTreeMap Str StoredValue)[Str.lit "k"]? = none := by simp
  obtain ⟨-, -, hscore, -⟩ := edits_scoreMap Store.empty (Str.lit "k") hnone
    (by simp [Store.empty]) edits ⟨0, 0⟩ .sorted
  rw [hscore]
  rfl

end FireRedis
