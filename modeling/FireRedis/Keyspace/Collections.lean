import FireRedis.Keyspace.Abstraction
import FireRedis.Store.Listings
import FireRedis.Store.Pops

/-!
# Lists, sets and hashes do what they say

The handlers of these types against `Command.Does`. An insertion gives at least
one item, which is what the parser lets through.
-/

namespace FireRedis
open Std Counted Window

/-- The handler does at a reading of the clock what the command means. -/
def Command.Done (F : FloatText) (ord : IterOrder) (info : Bytes) (now : Reading) (s : Store)
    (cmd : Command) : Prop :=
  cmd.Does F now.instant (s.keyspace now.instant)
    (outcome now.instant ((cmd.execute F ord info).runAt now s))

section Done

variable (F : FloatText) (ord : IterOrder) (info : Bytes) (now : Reading)
  {P : StoredValue → Prop} {s : Store} (hs : s.Inv P) (key : Str)

/-! ### Lists -/

section Lists

include hs

/-- A push that leaves `q'` in the list and replies with its length. -/
theorem pushed {run body : StoreM Value} (hrun : run = withType key "list" body)
    {push : List Bytes → List Bytes} (hne : ∀ q, push q ≠ [])
    (hspec : ∀ q, Kind.list.Under s now.instant key q → run.runAt now s =
      (.ok (count (push q).length),
        s.put key (some (.list (push q))) (s.pending now.instant key))) :
    Edit .list (s.keyspace now.instant) key
      (fun q reply q' => q' = push q ∧ reply = count q'.length)
      (outcome now.instant (run.runAt now s)) := by
  apply list_shown.edit now key hrun
  intro q hq
  refine ⟨_, push q, ⟨rfl, rfl⟩, ?_⟩
  rw [hspec q hq, outcome, keyspace_stored hs]
  have hleaves : Slot.list.leaves (push q) = some (.list (push q)) := if_neg (hne q)
  exact congrArg (Prod.mk _) (congrArg _ hleaves.symm)

theorem lPush_done {vals : List Bytes} (hne : vals ≠ []) :
    (Command.lPush key vals).Done F ord info now s := by
  apply pushed now hs key rfl fun q => List.append_ne_nil_of_left_ne_nil hne q
  intro q hq
  have hpush := lPush_spec now hq hne
  rw [Nat.add_comm, ← List.length_append] at hpush
  exact hpush

theorem rPush_done {vals : List Bytes} (hne : vals ≠ []) :
    (Command.rPush key vals).Done F ord info now s := by
  apply pushed now hs key rfl fun q => List.append_ne_nil_of_right_ne_nil q hne
  intro q hq
  have hpush := rPush_spec now hq hne
  rw [← List.length_append] at hpush
  exact hpush

theorem lPop_done : (Command.lPop key).Done F ord info now s := by
  rw [Command.Done, Command.Does]
  apply list_shown.amends hs now key
  · rfl
  · exact fun _ => rfl
  · rfl
  · rfl
  · exact fun _ => ⟨rfl, rfl⟩

theorem rPop_done : (Command.rPop key).Done F ord info now s := by
  rw [Command.Done, Command.Does]
  apply list_shown.amends hs now key
  · rfl
  · exact fun _ => rfl
  · rfl
  · rfl
  · exact fun _ => ⟨rfl, rfl⟩

end Lists

theorem lLen_done : (Command.lLen key).Done F ord info now s := by
  rw [Command.Done, Command.Does]
  apply list_shown.views now key
  · rfl
  · exact fun _ => rfl
  · rfl
  · exact fun _ => rfl

theorem lIndex_done (index : Int64) : (Command.lIndex key index).Done F ord info now s := by
  rw [Command.Done, Command.Does]
  apply list_shown.views now key
  · rfl
  · exact fun _ => rfl
  · rfl
  · intro q hlen
    exact congrArg (fun b => Except.ok (bulkOrNull b)) (getElem_asUsize hlen index)

theorem listRange_whole (start stop : Int64) {q : List Bytes} (hlen : q.length ≤ isizeMax) :
    Store.listRange q start stop =
      if q ≠ [] ∧ fromEnd q.length stop.toInt < 0 ∧ fromEnd q.length start.toInt < q.length then
        .fault .rangeOutOfBounds
      else pure (window q (fromEnd q.length start.toInt) (fromEnd q.length stop.toInt)) := by
  by_cases hq : q = []
  · have hnil : window q (fromEnd q.length start.toInt) (fromEnd q.length stop.toInt) = [] := by
      rw [hq, window_eq, List.drop_nil, List.take_nil]
    rw [if_neg (fun h => h.1 hq), hnil, hq]
    exact if_pos (Or.inr (Nat.zero_le _))
  · rw [Store.listRange_eq start stop hq hlen]
    simp only [ne_eq, hq, not_false_eq_true, true_and]

theorem lRange_done (start stop : Int64) :
    (Command.lRange key start stop).Done F ord info now s := by
  rw [Command.Done, Command.Does]
  apply list_shown.query now key
  · rfl
  · intro _
    rfl
  · intro e q he hq s'
    refine ⟨fun hlen => ?_, ?_⟩
    · have hrange := listRange_whole start stop hlen
      show ((Store.listRange q start stop >>= fun a => pure (bulkArray a)).runAt now s').1 = _
      rw [show Store.listRange q start stop = _ from hrange]
      split <;> rfl
    · show ((Store.listRange q start stop >>= fun a => pure (bulkArray a)).runAt now s').2 = _
      rw [Store.listRange]
      split
      · rfl
      · split <;> rfl

/-! ### Sets -/

section SetWrites

include hs

theorem sAdd_done {members : List Bytes} (hne : members ≠ []) :
    (Command.sAdd key members).Done F ord info now s := by
  rw [Command.Done, Command.Does]
  apply set_shown.inserts hs now key (sAdd_inserts key) (fun _ => rfl) _ hne
  · intro S
    exact ⟨S.toFinset_insertAll members, congrArg count (S.counted_insert members)⟩
  · intro S m
    show (S.insert m).isEmpty = false
    simp

theorem sRem_done (members : List Bytes) : (Command.sRem key members).Done F ord info now s := by
  rw [Command.Done, Command.Does]
  apply set_shown.amends hs now key
  · rfl
  · exact fun _ => rfl
  · exact congrArg Prod.fst (counted_fixed _ _ fun m _ => set_empty ∅ rfl m)
  · exact congrArg (fun r => r.2.isEmpty) (counted_fixed _ _ fun m _ => set_empty ∅ rfl m)
  · intro S
    refine ⟨?_, congrArg count (S.counted_erase members)⟩
    rw [← S.toFinset_eraseAll members]
    exact congrArg ExtTreeSet.toFinset (counted_snd _ _ members S)

omit hs in
theorem popMembers_fresh (n : ℕ) : Store.popMembers ord n ∅ = ([], ∅) := by
  cases n with
  | zero => rfl
  | succ n =>
    have hnil : ord.members ∅ = [] := List.Perm.eq_nil (ord.members_perm ∅)
    rw [Store.popMembers, hnil]
    rfl

omit hs in
theorem toFinset_popMembers (n : ℕ) (S : ExtTreeSet Bytes) :
    (Store.popMembers ord n S).2.toFinset =
      S.toFinset \ (Store.popMembers ord n S).1.toFinset := by
  ext m
  rw [ExtTreeSet.mem_toFinset, Store.mem_popMembers_rest, Finset.mem_sdiff,
    ExtTreeSet.mem_toFinset, List.mem_toFinset]

omit hs in
theorem popMembers_one (S : ExtTreeSet Bytes) :
    (S.toFinset = ∅ ∧ (Store.popMembers ord 1 S).1 = []) ∨
      ∃ m ∈ S.toFinset, (Store.popMembers ord 1 S).1 = [m] := by
  have hlen := Store.length_popMembers ord 1 S
  have hmem := fun m => @Store.mem_popMembers_taken ord 1 S m
  rw [← S.card_toFinset] at hlen
  generalize (Store.popMembers ord 1 S).1 = taken at hlen hmem ⊢
  rcases taken with _ | ⟨m, _ | ⟨n, taken⟩⟩
  · refine Or.inl ⟨Finset.card_eq_zero.mp ?_, rfl⟩
    rw [List.length_nil] at hlen
    omega
  · exact Or.inr ⟨m, S.mem_toFinset.mpr (hmem m (List.mem_singleton_self m)), rfl⟩
  · rw [List.length_cons, List.length_cons] at hlen
    omega

theorem sPop_done (n : Option ℕ) : (Command.sPop key n).Done F ord info now s := by
  cases n with
  | some n =>
    rw [Command.Done, Command.Does]
    apply set_shown.amends hs now key
    · rfl
    · exact fun _ => rfl
    · exact congrArg Prod.fst (popMembers_fresh ord n)
    · exact congrArg (fun r => r.2.isEmpty) (popMembers_fresh ord n)
    · intro S
      refine ⟨_, Store.nodup_popMembers ord n S, ?_, ?_, toFinset_popMembers ord n S, rfl⟩
      · intro m hm
        exact S.mem_toFinset.mpr (Store.mem_popMembers_taken ord n S (List.mem_toFinset.mp hm))
      · rw [Store.length_popMembers, ExtTreeSet.card_toFinset]
  | none =>
    rw [Command.Done, Command.Does]
    apply set_shown.amends hs now key
    · rfl
    · exact fun _ => rfl
    · exact congrArg Prod.fst (popMembers_fresh ord 1)
    · exact congrArg (fun r => r.2.isEmpty) (popMembers_fresh ord 1)
    · intro S
      have hrest := toFinset_popMembers ord 1 S
      rcases popMembers_one ord S with ⟨hempty, htaken⟩ | ⟨m, hm, htaken⟩
      · rw [htaken, hempty] at hrest
        exact Or.inl ⟨hempty, hrest, congrArg (fun taken => bulkOrNull taken.getLast?) htaken⟩
      · rw [htaken, List.toFinset_cons, List.toFinset_nil, insert_empty_eq,
          Finset.sdiff_singleton_eq_erase] at hrest
        exact Or.inr ⟨m, hm, hrest, congrArg (fun taken => bulkOrNull taken.getLast?) htaken⟩

end SetWrites

theorem sMembers_done : (Command.sMembers key).Done F ord info now s := by
  rw [Command.Done, Command.Does]
  apply set_shown.views now key
  · rfl
  · exact fun _ => rfl
  · exact List.Perm.eq_nil (ord.members_perm ∅)
  · intro S
    have hperm := (List.mergeSort_perm (ord.members S) fun a b => (compare a b).isLE).trans
      (ord.members_perm S)
    refine ⟨_, ?_, ExtTreeSet.toFinset_of_perm hperm, rfl⟩
    have hnodup : ((ord.members S).map id).Nodup := by
      rw [List.map_id]
      exact ord.nodup_members S
    have hsorted := mergeSort_ascending id hnodup
    rw [List.map_id] at hsorted
    exact hsorted

theorem sIsMember_done (member : Bytes) : (Command.sIsMember key member).Done F ord info now s := by
  rw [Command.Done, Command.Does]
  apply set_shown.views now key
  · rfl
  · exact fun _ => rfl
  · rfl
  · intro S
    rw [S.contains_eq_decide]

theorem sCard_done : (Command.sCard key).Done F ord info now s := by
  rw [Command.Done, Command.Does]
  apply set_shown.views now key
  · rfl
  · exact fun _ => rfl
  · rfl
  · intro S
    rw [S.card_toFinset]

/-! ### Hashes -/

section HashWrites

include hs

theorem hSet_done {fields : List (Str × Bytes)} (hne : fields ≠ []) :
    (Command.hSet key fields).Done F ord info now s := by
  rw [Command.Done, Command.Does]
  apply hash_shown.inserts hs now key (hSet_inserts key) (fun _ => rfl) _ hne
  · intro H
    refine ⟨(List.foldl_hom ExtTreeMap.toFinmap fun H e => (H.toFinmap_insert e.1 e.2).symm).symm,
      congrArg count ?_⟩
    exact ExtTreeMap.counted_insert id Prod.fst Prod.snd (fun _ _ => rfl) fields H
  · intro H e
    show (H.insert e.1 e.2).isEmpty = false
    simp

theorem hDel_done (fields : List Str) : (Command.hDel key fields).Done F ord info now s := by
  rw [Command.Done, Command.Does]
  apply hash_shown.amends hs now key
  · rfl
  · exact fun _ => rfl
  · exact congrArg Prod.fst (counted_fixed _ _ fun f _ => hash_empty ∅ rfl f)
  · exact congrArg (fun r => r.2.isEmpty) (counted_fixed _ _ fun f _ => hash_empty ∅ rfl f)
  · intro H
    refine ⟨?_, congrArg count ?_⟩
    · rw [List.foldl_hom ExtTreeMap.toFinmap fun H f => (H.toFinmap_erase f).symm]
      exact congrArg ExtTreeMap.toFinmap (counted_snd _ _ fields H)
    · have hcount := ExtTreeMap.counted_erase id id (fun _ _ => rfl) fields H
      rw [List.map_id] at hcount
      exact hcount

end HashWrites

theorem hGet_done (field : Str) : (Command.hGet key field).Done F ord info now s := by
  rw [Command.Done, Command.Does]
  apply hash_shown.views now key
  · rfl
  · exact fun _ => rfl
  · simp [Kind.hash]
  · intro H
    rw [H.lookup_toFinmap]

theorem hLen_done : (Command.hLen key).Done F ord info now s := by
  rw [Command.Done, Command.Does]
  apply hash_shown.views now key
  · rfl
  · exact fun _ => rfl
  · rfl
  · intro H
    rw [H.card_keys_toFinmap]

theorem hExists_done (field : Str) : (Command.hExists key field).Done F ord info now s := by
  rw [Command.Done, Command.Does]
  apply hash_shown.views now key
  · rfl
  · exact fun _ => rfl
  · rfl
  · intro H
    rw [H.contains_eq_decide]

theorem enumerates_of_perm {H : ExtTreeMap Str Bytes} {items : List (Str × Bytes)}
    (h : items.Perm H.toList) : Enumerates H.toFinmap items where
  nodup := H.nodup_fst_toList items h
  mem f b := by
    rw [h.mem_iff, ExtTreeMap.mem_toList_iff_getElem?_eq_some, H.lookup_toFinmap]

theorem fields_fresh : ord.fields ∅ = [] := List.Perm.eq_nil (ord.fields_perm ∅)

theorem hKeys_done : (Command.hKeys key).Done F ord info now s := by
  rw [Command.Done, Command.Does]
  apply hash_shown.views now key
  · rfl
  · exact fun _ => rfl
  · exact congrArg (List.map Prod.fst) (fields_fresh ord)
  · intro H
    refine ⟨_, enumerates_of_perm (ord.fields_perm H), ?_⟩
    rw [List.map_map]
    rfl

theorem hVals_done : (Command.hVals key).Done F ord info now s := by
  rw [Command.Done, Command.Does]
  apply hash_shown.views now key
  · rfl
  · exact fun _ => rfl
  · exact congrArg (List.map Prod.snd) (fields_fresh ord)
  · exact fun H => ⟨_, enumerates_of_perm (ord.fields_perm H), rfl⟩

theorem hGetAll_done : (Command.hGetAll key).Done F ord info now s := by
  rw [Command.Done, Command.Does]
  apply hash_shown.views now key
  · rfl
  · exact fun _ => rfl
  · exact fields_fresh ord
  · intro H
    have hperm := (List.mergeSort_perm (ord.fields H) fun a b => (compare a.1 b.1).isLE).trans
      (ord.fields_perm H)
    exact ⟨_, enumerates_of_perm hperm,
      mergeSort_ascending Prod.fst (H.nodup_fst_toList _ (ord.fields_perm H)), rfl⟩

end Done

end FireRedis
