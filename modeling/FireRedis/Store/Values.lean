import FireRedis.Base.Maps
import FireRedis.Store.Collections

/-!
# Sets of values that the methods do not leave

`Closed P` asks of `P` what the functions on values need to stay in it. Any set
of values is closed when it holds every value; that the collections of a store
are never empty and its sorted sets consistent is closed as well.
-/

namespace FireRedis
open Std

theorem snd_foldl {α β γ : Type} (f : γ × β → α → γ × β) (g : β → α → β)
    (h : ∀ n b a, (f (n, b) a).2 = g b a) (items : List α) (n : γ) (b : β) :
    (items.foldl f (n, b)).2 = items.foldl g b := by
  induction items generalizing n b with
  | nil => rfl
  | cons a items ih =>
    rw [List.foldl_cons, List.foldl_cons, ← h n b a]
    exact ih _ _

namespace Store

theorem insertMembers_snd (members : List Bytes) (S : ExtTreeSet Bytes) :
    (insertMembers members S).2 = members.foldl (fun S m => S.insert m) S :=
  snd_foldl _ _ (fun _ _ _ => rfl) members 0 S

theorem mem_insertMembers (members : List Bytes) (S : ExtTreeSet Bytes) (m : Bytes) :
    m ∈ (insertMembers members S).2 ↔ m ∈ members ∨ m ∈ S := by
  rw [insertMembers_snd]
  exact ExtTreeSet.mem_foldl_insert members S m

end Store

/-- A set of values that the methods on values do not leave. -/
structure Closed (P : StoredValue → Prop) : Prop where
  string : ∀ b, P (.string b)
  list : ∀ items, items ≠ [] → P (.list items)
  set : ∀ S : ExtTreeSet Bytes, S.isEmpty = false → P (.set S)
  hash : ∀ H : ExtTreeMap Str Bytes, H.isEmpty = false → P (.hash H)
  zInsert : ∀ z score member, P (.sortedSet z) ∨ z = ⟨∅, ∅⟩ →
    P (.sortedSet (Store.zInsert score member z))
  zErase : ∀ z members, P (.sortedSet z) →
    (Store.zEraseMembers members z).2.scores.isEmpty = false →
    P (.sortedSet (Store.zEraseMembers members z).2)

namespace Closed

theorem all : Closed fun _ => True where
  string _ := trivial
  list _ _ := trivial
  set _ _ := trivial
  hash _ _ := trivial
  zInsert _ _ _ _ := trivial
  zErase _ _ _ _ := trivial

variable {P : StoredValue → Prop} (hP : Closed P)
include hP

theorem addToString (delta : Int64) (v : StoredValue) (hv : P v) :
    P (Store.addToString delta v).2 := by
  unfold Store.addToString
  split
  · split
    · exact hP.string _
    · split
      · exact hP.string _
      · split <;> exact hP.string _
  · exact hv

theorem appendBytes (value : Bytes) (v : StoredValue) (hv : P v) :
    P (Store.appendBytes value v).2 := by
  unfold Store.appendBytes
  split
  · exact hP.string _
  · exact hv

theorem pushFront (value : Bytes) (v : StoredValue) (hv : P v) :
    P (Store.pushFront value v).2 := by
  unfold Store.pushFront
  split
  · exact hP.list _ (by simp)
  · exact hv

theorem pushBack (value : Bytes) (v : StoredValue) (hv : P v) :
    P (Store.pushBack value v).2 := by
  unfold Store.pushBack
  split
  · exact hP.list _ (by simp)
  · exact hv

theorem popFront (v : StoredValue) (hv : P v) (h : (Store.popFront v).2.2 = false) :
    P (Store.popFront v).2.1 := by
  unfold Store.popFront at h ⊢
  split at h
  · exact hP.list _ (by simpa using h)
  · exact hv

theorem popBack (v : StoredValue) (hv : P v) (h : (Store.popBack v).2.2 = false) :
    P (Store.popBack v).2.1 := by
  unfold Store.popBack at h ⊢
  split at h
  · exact hP.list _ (by simpa using h)
  · exact hv

/-- Only an insertion of no members into the empty set stays empty. -/
theorem addToSet (members : List Bytes) (hm : members = [] → P (.set ∅)) (v : StoredValue)
    (hv : P v ∨ v = .set ∅) : P (Store.addToSet members v).2 := by
  cases v with
  | set S =>
    cases members with
    | nil =>
      rcases hv with hv | hv
      · exact hv
      · rw [StoredValue.set.inj hv]
        exact hm rfl
    | cons m members =>
      apply hP.set
      rw [ExtTreeSet.isEmpty_eq_false_iff_exists]
      exact ⟨m, (Store.mem_insertMembers (m :: members) S m).mpr (Or.inl (List.mem_cons_self ..))⟩
  | _ => exact hv.resolve_right (by simp)

theorem removeFromSet (members : List Bytes) (v : StoredValue) (hv : P v)
    (h : (Store.removeFromSet members v).2.2 = false) :
    P (Store.removeFromSet members v).2.1 := by
  unfold Store.removeFromSet at h ⊢
  split at h
  · exact hP.set _ h
  · exact hv

theorem popFromSet (ord : IterOrder) (n : ℕ) (v : StoredValue) (hv : P v)
    (h : (Store.popFromSet ord n v).2.2 = false) : P (Store.popFromSet ord n v).2.1 := by
  unfold Store.popFromSet at h ⊢
  split at h
  · exact hP.set _ h
  · exact hv

theorem setField (field : Str) (value : Bytes) (v : StoredValue) (hv : P v ∨ v = .hash ∅) :
    P (Store.setField field value v).2 := by
  cases v with
  | hash H =>
    apply hP.hash
    rw [ExtTreeMap.isEmpty_eq_false_iff_exists]
    exact ⟨field, value, ExtTreeMap.getElem?_insert_self⟩
  | _ => exact hv.resolve_right (by simp)

theorem removeFromHash (fields : List Str) (v : StoredValue) (hv : P v)
    (h : (Store.removeFromHash fields v).2.2 = false) :
    P (Store.removeFromHash fields v).2.1 := by
  unfold Store.removeFromHash at h ⊢
  split at h
  · exact hP.hash _ h
  · exact hv

theorem addToSortedSet (score : F64) (member : Bytes) (v : StoredValue)
    (hv : P v ∨ v = .sortedSet ⟨∅, ∅⟩) : P (Store.addToSortedSet score member v).2 := by
  cases v with
  | sortedSet z => exact hP.zInsert z score member (hv.imp_right StoredValue.sortedSet.inj)
  | _ => exact hv.resolve_right (by simp)

theorem removeFromSortedSet (members : List Bytes) (v : StoredValue) (hv : P v)
    (h : (Store.removeFromSortedSet members v).2.2 = false) :
    P (Store.removeFromSortedSet members v).2.1 := by
  unfold Store.removeFromSortedSet at h ⊢
  split at h
  · exact hP.zErase _ members hv h
  · exact hv

end Closed

end FireRedis
