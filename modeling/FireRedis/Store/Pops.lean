import FireRedis.Base.Maps
import FireRedis.Store.Live

/-!
# Members taken out of a set (store/set.rs)

SPOP takes the first member that the set lists, again and again. The order may
be another one at each step, since the set is: what was taken and what is left
are together what there was.
-/

namespace FireRedis
open Std

namespace Store

theorem head_mem {ord : IterOrder} {S : ExtTreeSet Bytes} {m : Bytes}
    (h : (ord.members S).head? = some m) : m ∈ S :=
  ExtTreeSet.mem_toList.mp ((ord.members_perm S).mem_iff.mp (List.mem_of_head? h))

theorem head_none {ord : IterOrder} {S : ExtTreeSet Bytes}
    (h : (ord.members S).head? = none) : S.size = 0 := by
  have hlen := (ord.members_perm S).length_eq
  rw [List.head?_eq_none_iff.mp h, ExtTreeSet.length_toList] at hlen
  exact hlen.symm

theorem size_popMembers (ord : IterOrder) (n : ℕ) (S : ExtTreeSet Bytes) :
    (popMembers ord n S).2.size = S.size - n := by
  induction n generalizing S with
  | zero => rfl
  | succ n ih =>
    rw [popMembers]
    cases hhead : (ord.members S).head? with
    | none =>
      have hzero := head_none hhead
      dsimp only
      omega
    | some m =>
      have hm := head_mem hhead
      dsimp only
      rw [ih, ExtTreeSet.size_erase, ExtTreeSet.contains_iff_mem.mpr hm, if_pos rfl]
      omega

theorem popMembers_perm (ord : IterOrder) (n : ℕ) (S : ExtTreeSet Bytes) :
    ((popMembers ord n S).1 ++ (popMembers ord n S).2.toList).Perm S.toList := by
  induction n generalizing S with
  | zero => exact .refl _
  | succ n ih =>
    rw [popMembers]
    cases hhead : (ord.members S).head? with
    | none => exact .refl _
    | some m =>
      have hm := head_mem hhead
      have hrest : (m :: (S.erase m).toList).Perm S.toList := by
        apply ExtTreeSet.perm_toList
        · rw [List.nodup_cons]
          exact ⟨fun h => (ExtTreeSet.mem_erase_toList.mp h).1 rfl, (S.erase m).nodup_toList⟩
        · intro x
          rw [List.mem_cons, ExtTreeSet.mem_erase_toList]
          by_cases hx : x = m
          · simp [hx, hm]
          · simp [hx, Ne.symm hx]
      exact ((ih (S.erase m)).cons m).trans hrest

section Popped

variable (ord : IterOrder) (n : ℕ) (S : ExtTreeSet Bytes)

theorem nodup_popMembers : (popMembers ord n S).1.Nodup :=
  ((popMembers_perm ord n S).nodup_iff.mpr S.nodup_toList).of_append_left

theorem length_popMembers : (popMembers ord n S).1.length = min n S.size := by
  have hlen := (popMembers_perm ord n S).length_eq
  have hrest := size_popMembers ord n S
  rw [List.length_append, ExtTreeSet.length_toList, ExtTreeSet.length_toList] at hlen
  omega

theorem mem_popMembers_rest (m : Bytes) :
    m ∈ (popMembers ord n S).2 ↔ m ∈ S ∧ m ∉ (popMembers ord n S).1 := by
  have hmem : m ∈ S ↔ m ∈ (popMembers ord n S).1 ∨ m ∈ (popMembers ord n S).2 := by
    rw [← ExtTreeSet.mem_toList, ← (popMembers_perm ord n S).mem_iff, List.mem_append,
      ExtTreeSet.mem_toList]
  have hapart : m ∈ (popMembers ord n S).1 → m ∉ (popMembers ord n S).2 := by
    intro htaken hleft
    have hnodup := (popMembers_perm ord n S).nodup_iff.mpr S.nodup_toList
    exact List.disjoint_of_nodup_append hnodup htaken (ExtTreeSet.mem_toList.mpr hleft)
  tauto

theorem mem_popMembers_taken {m : Bytes} (h : m ∈ (popMembers ord n S).1) : m ∈ S := by
  rw [← ExtTreeSet.mem_toList, ← (popMembers_perm ord n S).mem_iff]
  exact List.mem_append_left _ h

end Popped

/-! ### One SPOP -/

theorem sPop_run {s : Store} (ord : IterOrder) (now : Reading) (key : Str) (n : ℕ)
    {S : ExtTreeSet Bytes} {d : Option Instant}
    (h : s.live now.instant key = some ⟨.set S, d⟩) :
    (sPop ord key n).runAt now s = (.ok (popMembers ord n S).1,
      if (popMembers ord n S).2.isEmpty then s.put key none none
      else s.put key (some (.set (popMembers ord n S).2)) d) := by
  have hamend := amend_spec s now key [] (popFromSet ord n)
  rw [h] at hamend
  rw [sPop, hamend]
  cases hempty : (popMembers ord n S).2.isEmpty <;> simp [popFromSet, hempty]

/-- An SPOP of a key, in its own order and at its own reading of the clock. -/
structure Pop where
  ord : IterOrder
  count : ℕ
  now : Reading

/-- The deadline is still to come at the reading of the SPOP. -/
def Pop.Before (d : Option Instant) (pop : Pop) : Prop := ∀ x, d = some x → pop.now.instant < x

def sPops (key : Str) : List Pop → Store → List (Except Panic (List Bytes)) × Store
  | [], s => ([], s)
  | pop :: pops, s =>
    let r := (sPop pop.ord key pop.count).runAt pop.now s
    let rest := sPops key pops r.2
    (r.1 :: rest.1, rest.2)

/-- Up to its deadline the key holds the members, or is gone with the last of them. -/
def HoldsSet (key : Str) (S : ExtTreeSet Bytes) (d : Option Instant) (s : Store) : Prop :=
  ∀ t, (∀ x, d = some x → t < x) →
    s.live t key = if S.isEmpty then none else some ⟨.set S, d⟩

section Sequences

variable {key : Str} {S : ExtTreeSet Bytes} {d : Option Instant} {s : Store}

theorem holdsSet_put (hS : S.isEmpty = false) :
    HoldsSet key S d (s.put key (some (.set S)) d) := by
  intro t ht
  rw [live_put_self, hS]
  exact liveOf_eq_some.mpr ⟨rfl, rfl, ht⟩

theorem holdsSet_gone (hS : S.isEmpty = true) (hgone : s.data[key]? = none) :
    HoldsSet key S d s := by
  intro t _
  rw [live, hgone, hS]
  rfl

theorem holdsSet_of_live {t : Instant} (h : s.live t key = some ⟨.set S, d⟩)
    (hS : S.isEmpty = false) : HoldsSet key S d s := by
  obtain ⟨hv, hd, -⟩ := liveOf_eq_some.mp h
  intro t' ht'
  rw [live, hv, hd, hS]
  exact liveOf_eq_some.mpr ⟨rfl, rfl, ht'⟩

theorem HoldsSet.pop (h : HoldsSet key S d s) {pop : Pop} (hbefore : pop.Before d) : ∃ s',
    (sPop pop.ord key pop.count).runAt pop.now s = (.ok (popMembers pop.ord pop.count S).1, s') ∧
      HoldsSet key (popMembers pop.ord pop.count S).2 d s' := by
  have hlive := h pop.now.instant hbefore
  cases hS : S.isEmpty with
  | true =>
    have hsize : S.size = 0 := by simpa [ExtTreeSet.isEmpty_eq_size_beq_zero] using hS
    have hnone : (popMembers pop.ord pop.count S).1 = [] := by
      rw [← List.length_eq_zero_iff, length_popMembers, hsize, Nat.min_zero]
    have hleft : (popMembers pop.ord pop.count S).2.isEmpty = true := by
      rw [ExtTreeSet.isEmpty_eq_size_beq_zero, size_popMembers, hsize, Nat.zero_sub]
      rfl
    rw [hS, if_pos rfl] at hlive
    have hamend := amend_spec s pop.now key [] (popFromSet pop.ord pop.count)
    rw [hlive] at hamend
    refine ⟨_, by rw [hnone]; exact hamend, holdsSet_gone hleft ?_⟩
    rw [check, put_data, if_pos rfl, hlive]
    rfl
  | false =>
    rw [hS, if_neg Bool.false_ne_true] at hlive
    refine ⟨_, sPop_run pop.ord pop.now key pop.count hlive, ?_⟩
    cases hleft : (popMembers pop.ord pop.count S).2.isEmpty with
    | true =>
      rw [if_pos rfl]
      exact holdsSet_gone hleft (by rw [put_data, if_pos rfl])
    | false =>
      rw [if_neg Bool.false_ne_true]
      exact holdsSet_put hleft

theorem HoldsSet.pops (h : HoldsSet key S d s) {pops : List Pop}
    (hbefore : ∀ pop ∈ pops, pop.Before d) : ∃ (takens : List (List Bytes)) (R : ExtTreeSet Bytes),
    (sPops key pops s).1 = takens.map .ok ∧ HoldsSet key R d (sPops key pops s).2 ∧
      (takens.flatten ++ R.toList).Perm S.toList ∧ R.size = S.size - (pops.map Pop.count).sum := by
  induction pops generalizing s S with
  | nil => exact ⟨[], S, rfl, h, .refl _, rfl⟩
  | cons pop pops ih =>
    obtain ⟨hfirst, hlater⟩ := List.forall_mem_cons.mp hbefore
    obtain ⟨s', hrun, hs'⟩ := h.pop hfirst
    obtain ⟨takens, R, htakens, hR, hperm, hsize⟩ := ih hs' hlater
    rw [sPops, hrun]
    refine ⟨(popMembers pop.ord pop.count S).1 :: takens, R, ?_, hR, ?_, ?_⟩
    · rw [List.map_cons, htakens]
    · rw [List.flatten_cons, List.append_assoc]
      exact (hperm.append_left _).trans (popMembers_perm pop.ord pop.count S)
    · rw [hsize, size_popMembers, List.map_cons, List.sum_cons, Nat.sub_sub]

end Sequences

/-- SPOP gives different members of the set, as many as it may, and leaves the
others; the key and its deadline go with the last of them. SPOPs that ask for as
many members as there are give each exactly once. -/
theorem sPop_conserves (s : Store) (key : Str) (S : ExtTreeSet Bytes) (d : Option Instant)
    (now : Reading) (h : s.live now.instant key = some ⟨.set S, d⟩) (hne : S.isEmpty = false) :
    (∀ (ord : IterOrder) (n : ℕ), ∃ (taken : List Bytes) (rest : ExtTreeSet Bytes),
      (sPop ord key n).runAt now s = (.ok taken, if rest.isEmpty then s.put key none none
        else s.put key (some (.set rest)) d) ∧
      taken.Nodup ∧ taken.length = min n S.size ∧ (∀ m ∈ taken, m ∈ S) ∧
      ∀ m, m ∈ rest ↔ m ∈ S ∧ m ∉ taken) ∧
    ∀ pops : List Pop, (∀ pop ∈ pops, pop.Before d) → S.size ≤ (pops.map Pop.count).sum →
      ∃ takens : List (List Bytes), (sPops key pops s).1 = takens.map .ok ∧ takens.flatten.Nodup ∧
        (∀ m, m ∈ takens.flatten ↔ m ∈ S) ∧ (sPops key pops s).2.live now.instant key = none := by
  refine ⟨fun ord n => ?_, fun pops hbefore hsum => ?_⟩
  · exact ⟨_, _, sPop_run ord now key n h, nodup_popMembers ord n S, length_popMembers ord n S,
      fun m hm => mem_popMembers_taken ord n S hm, mem_popMembers_rest ord n S⟩
  · obtain ⟨takens, R, htakens, hR, hperm, hsize⟩ := (holdsSet_of_live h hne).pops hbefore
    have hempty : R.isEmpty = true := by
      rw [ExtTreeSet.isEmpty_eq_size_beq_zero, hsize, Nat.sub_eq_zero_of_le hsum]
      rfl
    have hnil : R.toList = [] := by
      rw [← List.length_eq_zero_iff, ExtTreeSet.length_toList, hsize, Nat.sub_eq_zero_of_le hsum]
    rw [hnil, List.append_nil] at hperm
    refine ⟨takens, htakens, hperm.nodup_iff.mpr S.nodup_toList, fun m => ?_, ?_⟩
    · rw [hperm.mem_iff, ExtTreeSet.mem_toList]
    · have hgone := hR now.instant (liveOf_eq_some.mp h).2.2
      rw [hempty] at hgone
      exact hgone

/-- The members a and b, with a deadline. -/
def pair : ExtTreeSet Bytes := (∅ : ExtTreeSet Bytes).insert (Str.utf8 "a") |>.insert (Str.utf8 "b")

theorem sPop_conserves_two :
    let s := empty.put (Str.lit "k") (some (.set pair)) (some 9)
    ∃ takens : List (List Bytes), (sPops (Str.lit "k") [⟨.sorted, 1, ⟨3, 0⟩⟩, ⟨.sorted, 5, ⟨4, 0⟩⟩]
        s).1 = takens.map .ok ∧
      takens.flatten.Nodup ∧ (∀ m, m ∈ takens.flatten ↔ m ∈ pair) ∧
      (sPops (Str.lit "k") [⟨.sorted, 1, ⟨3, 0⟩⟩, ⟨.sorted, 5, ⟨4, 0⟩⟩] s).2.live 0
        (Str.lit "k") = none := by
  intro s
  have hlive : s.live 0 (Str.lit "k") = some ⟨.set pair, some 9⟩ := live_put_self ..
  refine (sPop_conserves s (Str.lit "k") pair (some 9) ⟨0, 0⟩ hlive (by decide)).2 _ ?_ (by decide)
  intro pop hpop x hx
  rw [← Option.some.inj hx]
  rcases List.mem_pair.mp hpop with rfl | rfl <;> decide

end Store

end FireRedis
