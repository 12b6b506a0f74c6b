import FireRedis.Base.Windows
import FireRedis.Store.Live

/-!
# Ranges of a list (store/list.rs, store/sorted_set.rs)

LRANGE, ZRANGE and ZREVRANGE cut the window between two positions out of a
listing. `start` is kept at the first position, but a `stop` in front of it
becomes huge as an unsigned number: LRANGE then panics, and the other two take
it for the last position.
-/

namespace FireRedis
open Std Window

namespace Store

/-! ### The two ends -/

theorem asUsize_toInt (i : Int64) :
    (asUsize i : ℤ) = if i.toInt < 0 then i.toInt + 2 ^ 64 else i.toInt := by
  have h : i.toInt = i.toBitVec.toInt := rfl
  have hnat : asUsize i = i.toBitVec.toNat := rfl
  rw [h, hnat, BitVec.toInt_eq_toNat_cond]
  have hlt := i.toBitVec.isLt
  split <;> split <;> omega

theorem toInt_max (i j : Int64) : (max i j).toInt = max i.toInt j.toInt := by
  have hmax : max i j = if i ≤ j then j else i := rfl
  rw [hmax, max_def]
  simp only [Int64.le_iff_toInt_le]
  split <;> rfl

theorem toInt_min (i j : Int64) : (min i j).toInt = min i.toInt j.toInt := by
  have hmin : min i j = if i ≤ j then i else j := rfl
  rw [hmin, min_def]
  simp only [Int64.le_iff_toInt_le]
  split <;> rfl

section Ends

variable {len : ℕ} (hlen : len ≤ isizeMax)
include hlen

theorem toInt_length : (Int64.ofNat len).toInt = len :=
  Int64.toInt_ofNat_of_lt (by unfold isizeMax at hlen; omega)

theorem toInt_fromEnd (i : Int64) :
    (if i < 0 then Int64.ofNat len + i else i).toInt = fromEnd len i.toInt := by
  have hlow := i.le_toInt
  have hneg : i < 0 ↔ i.toInt < 0 := Int64.lt_iff_toInt_lt
  unfold isizeMax at hlen
  unfold fromEnd
  by_cases h : i.toInt < 0
  · rw [if_pos (hneg.mpr h), if_pos h, Int64.toInt_add, toInt_length hlen]
    exact Int.bmod_eq_of_le (by omega) (by omega)
  · rw [if_neg (mt hneg.mp h), if_neg h]

theorem rangeEnds_fst (start stop : Int64) :
    ((rangeEnds len start stop).1 : ℤ) = max (fromEnd len start.toInt) 0 := by
  have hzero : (0 : Int64).toInt = 0 := rfl
  rw [rangeEnds]
  dsimp only
  rw [asUsize_toInt, toInt_max, toInt_fromEnd hlen, hzero, if_neg (by omega)]

/-- An end in front of the first position becomes huge. -/
theorem rangeEnds_snd (hpos : 0 < len) (start stop : Int64) :
    ((rangeEnds len start stop).2 : ℤ) =
      if fromEnd len stop.toInt < 0 then fromEnd len stop.toInt + 2 ^ 64
      else min (fromEnd len stop.toInt) (len - 1) := by
  have hlast : (Int64.ofNat len - 1).toInt = len - 1 := by
    have hone : (1 : Int64).toInt = 1 := rfl
    unfold isizeMax at hlen
    rw [Int64.toInt_sub, toInt_length hlen, hone]
    exact Int.bmod_eq_of_le (by omega) (by omega)
  rw [rangeEnds]
  dsimp only
  rw [asUsize_toInt, toInt_min, toInt_fromEnd hlen, hlast]
  split <;> split <;> omega

end Ends

theorem fromEnd_ge (len : ℕ) (i : Int64) : -(2 : ℤ) ^ 63 ≤ fromEnd len i.toInt := by
  have hlow := i.le_toInt
  unfold fromEnd
  split <;> omega

/-- A range is cut out as in Redis unless `stop` lies in front of the first
position and `start` on one. -/
def InWindow (len : ℕ) (start stop : Int64) : Prop :=
  -(len : ℤ) ≤ stop.toInt ∨ (len : ℤ) ≤ start.toInt

theorem inWindow_iff (len : ℕ) (start stop : Int64) : InWindow len start stop ↔
    0 ≤ fromEnd len stop.toInt ∨ (len : ℤ) ≤ fromEnd len start.toInt := by
  unfold InWindow fromEnd
  split <;> split <;> omega

/-- LRANGE of a list of this length panics: `stop` lies in front of the first
position and `start` does not lie beyond the last one. No list in memory is
longer than `isize::MAX`; the ends of one would wrap. -/
def RangePanics (len : ℕ) (start stop : Int64) : Prop :=
  if len ≤ isizeMax then 0 < len ∧ ¬ InWindow len start stop
  else (rangeEnds len start stop).1 ≤ (rangeEnds len start stop).2 ∧
    (rangeEnds len start stop).1 < len ∧ len ≤ (rangeEnds len start stop).2

theorem rangePanics_iff (len : ℕ) (start stop : Int64) : RangePanics len start stop ↔
    (rangeEnds len start stop).1 ≤ (rangeEnds len start stop).2 ∧
      (rangeEnds len start stop).1 < len ∧ len ≤ (rangeEnds len start stop).2 := by
  unfold RangePanics
  split
  · rename_i hlen
    rw [inWindow_iff]
    have hfst := rangeEnds_fst hlen start stop
    have hback := fromEnd_ge len stop
    rcases Nat.eq_zero_or_pos len with rfl | hpos
    · omega
    · have hsnd := rangeEnds_snd hlen hpos start stop
      generalize rangeEnds len start stop = ends at hfst hsnd ⊢
      unfold isizeMax at hlen
      split at hsnd <;> omega
  · rfl

/-! ### LRANGE -/

section Slices

variable (start stop : Int64)

theorem listRange_eq {items : List Bytes} (hne : items ≠ []) (hlen : items.length ≤ isizeMax) :
    listRange items start stop =
      if fromEnd items.length stop.toInt < 0 ∧ fromEnd items.length start.toInt < items.length then
        .fault .rangeOutOfBounds
      else pure (window items (fromEnd items.length start.toInt)
        (fromEnd items.length stop.toInt)) := by
  have hpos : 0 < items.length := List.length_pos_iff.mpr hne
  have hfst := rangeEnds_fst hlen start stop
  have hsnd := rangeEnds_snd hlen hpos start stop
  have hback := fromEnd_ge items.length stop
  unfold listRange
  dsimp only
  generalize rangeEnds items.length start stop = ends at hfst hsnd ⊢
  unfold isizeMax at hlen
  by_cases hneg : fromEnd items.length stop.toInt < 0
  · rw [if_pos hneg] at hsnd
    by_cases hstart : fromEnd items.length start.toInt < items.length
    · rw [if_neg (by omega), if_pos (by omega), if_pos ⟨hneg, hstart⟩]
    · rw [if_pos (by omega), if_neg (by omega), (window_eq_nil_iff ..).mpr (by omega)]
  · rw [if_neg hneg] at hsnd
    rw [if_neg (show ¬ (_ ∧ _) by omega)]
    split
    · rw [(window_eq_nil_iff ..).mpr (by omega)]
    · rw [if_neg (by omega), ← window_clamp, window_eq]
      congr 2 <;> congr 1 <;> omega

/-- LRANGE of a stored list is its window exactly when `stop` is not in front of
the first position or `start` is beyond the last one. No list in memory is
longer than `isize::MAX`. -/
theorem lRange_window (s : Store) (now : Reading) (key : Str) (e : Entry) (items : List Bytes)
    (he : s.live now.instant key = some e) (hlist : e.value = .list items) (hne : items ≠ [])
    (hlen : items.length ≤ isizeMax) :
    ((lRange key start stop).runAt now s).1 = .ok (window items
        (fromEnd items.length start.toInt) (fromEnd items.length stop.toInt)) ↔
      -(items.length : ℤ) ≤ stop.toInt ∨ (items.length : ℤ) ≤ start.toInt := by
  have hrange : ((lRange key start stop).runAt now s).1 =
      ((listRange items start stop).runAt now (s.check now.instant key)).1 := by
    rw [lRange, view_spec, he]
    dsimp only
    rw [hlist]
  have hin := inWindow_iff items.length start stop
  unfold InWindow at hin
  rw [hrange, listRange_eq start stop hne hlen, hin]
  split
  · rename_i hout
    constructor
    · intro h
      cases h
    · intro h
      omega
  · rename_i hout
    constructor
    · intro _
      omega
    · intro _
      rfl

/-- LRANGE k -2 -1 of three elements. -/
theorem lRange_window_last :
    let s := Store.empty.put (Str.lit "k")
      (some (.list [Str.utf8 "a", Str.utf8 "b", Str.utf8 "c"])) none
    ((lRange (Str.lit "k") (-2) (-1)).runAt ⟨0, 0⟩ s).1 = .ok [Str.utf8 "b", Str.utf8 "c"] := by
  intro s
  have hlive : s.live 0 (Str.lit "k") =
      some ⟨.list [Str.utf8 "a", Str.utf8 "b", Str.utf8 "c"], none⟩ := live_put_self ..
  exact (lRange_window (-2) (-1) s ⟨0, 0⟩ (Str.lit "k") _ _ hlive rfl (by simp)
    (by decide)).mpr (by decide)

/-- LRANGE k 0 -2 of one element. -/
theorem lRange_stop_before_first :
    let s := Store.empty.put (Str.lit "k") (some (.list [Str.utf8 "a"])) none
    s.live 0 (Str.lit "k") = some ⟨.list [Str.utf8 "a"], none⟩ ∧
      window [Str.utf8 "a"] (fromEnd 1 0) (fromEnd 1 (-2)) = [] ∧
      ((lRange (Str.lit "k") 0 (-2)).runAt ⟨0, 0⟩ s).1 = .error .rangeOutOfBounds := by
  refine ⟨live_put_self .., rfl, rfl⟩

/-! ### ZRANGE and ZREVRANGE -/

/-- A `stop` in front of the first position is taken for the last one. -/
theorem sliceMembers_eq {all : List (Bytes × F64)} (hne : all ≠ [])
    (hlen : all.length ≤ isizeMax) :
    sliceMembers all start stop = window all (fromEnd all.length start.toInt)
      (if fromEnd all.length stop.toInt < 0 then all.length - 1
        else fromEnd all.length stop.toInt) := by
  have hpos : 0 < all.length := List.length_pos_iff.mpr hne
  have hfst := rangeEnds_fst hlen start stop
  have hsnd := rangeEnds_snd hlen hpos start stop
  have hback := fromEnd_ge all.length stop
  unfold sliceMembers
  dsimp only
  generalize rangeEnds all.length start stop = ends at hfst hsnd ⊢
  unfold isizeMax at hlen
  by_cases hneg : fromEnd all.length stop.toInt < 0
  · rw [if_pos hneg] at hsnd ⊢
    split
    · rw [(window_eq_nil_iff ..).mpr (by omega)]
    · rw [window_eq]
      congr 1
      · omega
      · congr 1
        omega
  · rw [if_neg hneg] at hsnd ⊢
    split
    · rw [(window_eq_nil_iff ..).mpr (by omega)]
    · rw [← window_clamp, window_eq]
      congr 1
      · omega
      · congr 1
        omega

theorem sliceMembers_window {all : List (Bytes × F64)} (hne : all ≠ [])
    (hlen : all.length ≤ isizeMax) :
    sliceMembers all start stop = window all (fromEnd all.length start.toInt)
        (fromEnd all.length stop.toInt) ↔ InWindow all.length start stop := by
  have hpos : 0 < all.length := List.length_pos_iff.mpr hne
  rw [sliceMembers_eq start stop hne hlen, inWindow_iff]
  by_cases hneg : fromEnd all.length stop.toInt < 0
  · have hnil : window all (fromEnd all.length start.toInt) (fromEnd all.length stop.toInt) = [] :=
      (window_eq_nil_iff ..).mpr (by omega)
    rw [if_pos hneg, hnil, window_eq_nil_iff]
    omega
  · rw [if_neg hneg]
    simp only [true_iff]
    omega

theorem sliceMembers_all {all : List (Bytes × F64)} (hlen : all.length ≤ isizeMax) :
    sliceMembers all 0 (-1) = all := by
  have hzero : (0 : Int64).toInt = 0 := rfl
  have hone : (-1 : Int64).toInt = -1 := rfl
  by_cases hne : all = []
  · rw [hne]
    rfl
  · have hpos : 0 < all.length := List.length_pos_iff.mpr hne
    have hin : InWindow all.length 0 (-1) := Or.inl (by omega)
    have hfirst : fromEnd all.length 0 = 0 := rfl
    have hlast : fromEnd all.length (-1) = all.length - 1 := by
      rw [fromEnd, if_pos (by omega)]
      ring
    rw [(sliceMembers_window 0 (-1) hne hlen).mpr hin, hzero, hone, hfirst, hlast, window_all]

end Slices

end Store

end FireRedis
