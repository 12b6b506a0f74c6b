import FireRedis.Commands.Variadic
import FireRedis.Keyspace.Collections
import FireRedis.Persistence.Deletions

/-!
# Strings and keys do what they say

Strings have no empty collection that stands for an absent key, and the commands
on keys take a key of any type. Their handlers against `Command.Does`.
-/

namespace FireRedis
open Std Counted

/-! ### Items -/

theorem item_liveOf (t : Instant) (v : StoredValue) (d : Option Instant) :
    (liveOf t (some v) d).map Entry.item = Item.still t ⟨v.content, d⟩ := by
  cases d with
  | none => rfl
  | some d =>
    by_cases hd : d ≤ t
    · simp [liveOf, Item.still, hd, Nat.not_lt.mpr hd]
    · simp [liveOf, Item.still, hd, Nat.lt_of_not_le hd, Entry.item]

theorem keyspace_put (s : Store) (t : Instant) (key : Str) (v : StoredValue)
    (d : Option Instant) : (s.put key (some v) d).keyspace t =
      Function.update (s.keyspace t) key (Item.still t ⟨v.content, d⟩) := by
  rw [Store.keyspace, Store.live_put, Dataset.keyspace_update, item_liveOf]

section Slot

variable (s : Store) (t : Instant) (key : Str)

theorem content_live : (s.keyspace t).content key =
    (s.live t key).map fun e => e.value.content := Dataset.keyspace_content _ key

theorem isSome_live : (s.keyspace t key).isSome = (s.live t key).isSome :=
  Dataset.isSome_keyspace _ key

omit s t key in
theorem string_named (v : StoredValue) :
    Store.typeName v = Str.lit "string" ↔ ∃ b, v = .string b := by
  cases v <;> simp only [Store.typeName] <;> simp <;> decide

theorem string_sees {e : Entry} {b : Bytes} (he : s.live t key = some e)
    (hb : e.value = .string b) :
    Slot.string.sees ((s.keyspace t).content key) = some (some b) := by
  rw [content_live, he, Option.map_some, hb]
  rfl

theorem string_blind {e : Entry} (he : s.live t key = some e)
    (hne : Store.typeName e.value ≠ Str.lit "string") :
    Slot.string.sees ((s.keyspace t).content key) = none := by
  rw [content_live, he, Option.map_some]
  cases hv : e.value with
  | string b => exact absurd ((string_named e.value).mpr ⟨b, hv⟩) hne
  | _ => rfl

end Slot

section Done

variable (F : FloatText) (ord : IterOrder) (info : Bytes) (now : Reading) (s : Store) (key : Str)

/-! ### Strings -/

theorem string_views {answer : Option Bytes → Except Panic Value → Prop} {run : StoreM Value}
    {β : Type} {absent : β} {g : StoredValue → StoreM β} {reply : β → Value} {value : Bytes → β}
    (hrun : run = withType key "string" (Store.view key absent g >>= fun a => pure (reply a)))
    (hg : ∀ b, g (.string b) = pure (value b)) (habsent : answer none (.ok (reply absent)))
    (hanswer : ∀ b, answer (some b) (.ok (reply (value b)))) :
    Query .string (s.keyspace now.instant) key answer (outcome now.instant (run.runAt now s)) := by
  have hsame := Store.live_check s now.instant key
  rw [hrun, read_spec s now key "string"]
  unfold Query
  cases he : s.live now.instant key with
  | none =>
    have hsees : Slot.string.sees ((s.keyspace now.instant).content key) = some none := by
      rw [content_live, he]
      rfl
    rw [hsees, outcome_congr hsame]
    exact ⟨rfl, habsent⟩
  | some e =>
    dsimp only
    by_cases htype : Store.typeName e.value = Str.lit "string"
    · obtain ⟨b, hb⟩ := (string_named e.value).mp htype
      rw [if_pos htype, hb, hg, string_sees s now.instant key he hb]
      exact ⟨congrArg Dataset.keyspace hsame, hanswer b⟩
    · rw [if_neg htype, string_blind s now.instant key he htype, outcome_congr hsame]
      exact ⟨rfl, rfl⟩

theorem get_done : (Command.get key).Done F ord info now s := by
  rw [Command.Done, Command.Does]
  apply string_views now s key
  · rfl
  · exact fun _ => rfl
  · rfl
  · exact fun _ => rfl

theorem strLen_done : (Command.strLen key).Done F ord info now s := by
  rw [Command.Done, Command.Does]
  apply string_views now s key
  · rfl
  · exact fun _ => rfl
  · rfl
  · exact fun _ => rfl

/-! ### Keys -/

theorem type_done : (Command.type key).Done F ord info now s := by
  have hrun : (handleType key).runAt now s =
      (.ok (.simpleString (((s.live now.instant key).map fun e => Store.typeName e.value).getD
        (Str.lit "none"))), s.check now.instant key) := by
    rw [handleType, runAt_bind_ok now (typeOf_spec s now key)]
    rfl
  rw [Command.Done, Command.Does, Command.execute, hrun,
    outcome_congr (Store.live_check s now.instant key), content_live]
  cases s.live now.instant key with
  | none => rfl
  | some e => cases e with
    | mk value deadline => cases value <;> rfl

theorem remaining_live (t : Instant) : remaining t (s.keyspace t key) =
    Store.pttlOf t (s.live t key) := by
  rw [Store.keyspace, Dataset.keyspace]
  cases s.live t key with
  | none => rfl
  | some e => cases e with
    | mk value deadline => cases deadline <;> rfl

theorem pttl_done : (Command.pttl key).Done F ord info now s := by
  have hrun : (handlePttl key).runAt now s = (.ok (.integer (remaining now.instant
      (s.keyspace now.instant key))), s.check now.instant key) := by
    rw [handlePttl, runAt_bind_ok now (Store.pttl_spec s now key), remaining_live]
    rfl
  rw [Command.Done, Command.Does, Command.execute, hrun]
  exact outcome_congr (Store.live_check s now.instant key)

theorem ttl_done : (Command.ttl key).Done F ord info now s := by
  have hms : (Store.ttl key).runAt now s =
      (.ok (inSeconds (remaining now.instant (s.keyspace now.instant key))),
        s.check now.instant key) := by
    rw [Store.ttl, runAt_bind_ok now (Store.pttl_spec s now key), remaining_live]
    rfl
  have hrun : (handleTtl key).runAt now s =
      (.ok (.integer (inSeconds (remaining now.instant (s.keyspace now.instant key)))),
        s.check now.instant key) := by
    rw [handleTtl, runAt_bind_ok now hms]
    rfl
  rw [Command.Done, Command.Does, Command.execute, hrun]
  exact outcome_congr (Store.live_check s now.instant key)

theorem expire_done (ms : UInt64) : (Command.expire key ms).Done F ord info now s := by
  rw [Command.Done, Command.Does, Command.execute, handleExpire, runAt_bind, Store.expire_spec]
  cases he : s.live now.instant key with
  | none =>
    have hkey : s.keyspace now.instant key = none := by
      rw [Store.keyspace, Dataset.keyspace, he]
      rfl
    rw [hkey]
    exact outcome_congr (Store.live_check s now.instant key)
  | some e =>
    have hkey : s.keyspace now.instant key = some e.item := by
      rw [Store.keyspace, Dataset.keyspace, he]
      rfl
    rw [hkey]
    exact congrArg (Prod.mk _) (keyspace_put s now.instant key e.value _)

theorem exists_done (keys : List Str) : (Command.exists keys).Done F ord info now s := by
  obtain ⟨s', hrun, hlive⟩ := existsLoop_run now s keys 0
  rw [Nat.zero_add, Store.present] at hrun
  simp only [Command.Done, Command.Does, isSome_live]
  rw [Command.execute, handleExists, runAt_bind_ok now hrun]
  exact outcome_congr hlive

theorem del_done (keys : List Str) : (Command.del keys).Done F ord info now s := by
  rw [Command.Done, Command.Does, Command.execute, handleDel_run]
  refine ⟨s.forgotten keys, ?_, ?_, ?_⟩
  · rw [Store.forgotten_card]
    apply Finset.card_le_card
    intro k hk
    obtain ⟨hk, hlive⟩ := Finset.mem_filter.mp hk
    rw [isSome_live] at hlive
    exact Finset.mem_filter.mpr ⟨hk, Store.data_of_live hlive⟩
  · rw [Store.forgotten_card]
    exact Finset.card_filter_le ..
  · refine congrArg (Prod.mk _) (funext fun k => ?_)
    show ((s.forget keys).live now.instant k).map Entry.item = _
    rw [Store.live_forget]
    split <;> rfl

theorem flushAll_done : Command.flushAll.Done F ord info now s := by
  rw [Command.Done, Command.Does, Command.execute, handleFlushall_run, outcome, Store.keyspace,
    Store.live_empty]
  rfl

theorem mSet_done (entries : List (Str × Bytes)) :
    (Command.mSet entries).Done F ord info now s := by
  rw [Command.Done, Command.Does, Command.execute, mSet_run]
  refine congrArg (Prod.mk _) ?_
  rw [List.foldl_hom (fun s : Store => s.keyspace now.instant)]
  intro s e
  exact (keyspace_put s now.instant e.1 (.string e.2) none).symm

theorem getLoop_run (keys : List Str) : ∃ s',
    (keys.mapM fun key => return bulkOrNull (← Store.get key) : StoreM (List Value)).runAt now s =
      (.ok (keys.map fun k => bulkOrNull (textOf ((s.keyspace now.instant).content k))), s') ∧
    s'.live now.instant = s.live now.instant := by
  induction keys generalizing s with
  | nil => exact ⟨s, rfl, rfl⟩
  | cons key keys ih =>
    have hsame := Store.live_check s now.instant key
    have hget : (Store.get key).runAt now s =
        (.ok (textOf ((s.keyspace now.instant).content key)), s.check now.instant key) := by
      rw [Store.get, Store.view_spec, content_live]
      cases s.live now.instant key with
      | none => rfl
      | some e => cases e with
        | mk value deadline => cases value <;> rfl
    obtain ⟨s', hrun, hlive⟩ := ih (s.check now.instant key)
    rw [Store.keyspace, hsame] at hrun
    refine ⟨s', ?_, hlive.trans hsame⟩
    rw [List.mapM_cons, bind_assoc, runAt_bind_ok now hget, pure_bind, runAt_bind_ok now hrun]
    rfl

theorem mGet_done (keys : List Str) : (Command.mGet keys).Done F ord info now s := by
  obtain ⟨s', hrun, hlive⟩ := getLoop_run now s keys
  rw [Command.Done, Command.Does, Command.execute, handleMget, runAt_bind_ok now hrun]
  exact outcome_congr hlive

/-! ### Writes that keep a deadline -/

section Writes

variable {s} {P : StoredValue → Prop} (hs : s.Inv P)
include hs

omit hs in
theorem set_done (value : Bytes) (px : Option UInt64) (condition : SetCondition) :
    (Command.set key value px condition).Done F ord info now s := by
  have hset : (do
      Store.set key value px
      return ok : StoreM Value).runAt now (s.check now.instant key) = (.ok ok,
        s.put key (some (.string value)) (px.map fun ms => now.instant + fromMillis ms)) := by
    rw [runAt_bind_ok now (Store.set_run now key value px), Store.put_check]
    rfl
  have hsame := Store.live_check s now.instant key
  rw [Command.Done, Command.Does, Command.execute, handleSet,
    runAt_bind_ok now (Store.existsKey_spec s now key), ← Option.not_isSome, isSome_live]
  cases (s.live now.instant key).isSome <;> cases condition
  all_goals simp only [reduceCtorEq, and_true, and_false, or_true, or_false, if_true, if_false,
    Bool.not_true, Bool.not_false, Bool.false_eq_true]
  all_goals first
    | exact outcome_congr hsame
    | exact (congrArg (outcome now.instant) hset).trans (congrArg (Prod.mk _) (keyspace_put ..))

theorem append_done (value : Bytes) : (Command.append key value).Done F ord info now s := by
  have happend : ∀ b,
      ((s.live now.instant key).map Entry.value).getD (.string []) = .string b →
      Typed s now.instant key "string" →
      outcome now.instant ((handleAppend key value).runAt now s) =
        (.ok (count (b ++ value).length),
          (s.keyspace now.instant).put key (some (.string (b ++ value)))) := by
    intro b hb ht
    have hupsert := Store.upsert_spec (s.check now.instant key) now key (.string [])
      (Store.appendBytes value)
    rw [Store.live_check, hb, Store.put_check, Store.pending_check] at hupsert
    rw [handleAppend, withType_spec s now key "string" _ ht, Store.append,
      runAt_bind_ok now hupsert]
    exact congrArg (Prod.mk _) (keyspace_stored hs now.instant key _)
  rw [Command.Done, Command.Does, Command.execute, Edit, content_live]
  cases he : s.live now.instant key with
  | none =>
    rw [he] at happend
    refine ⟨_, _, ⟨rfl, rfl⟩, happend [] rfl fun e h => ?_⟩
    rw [he] at h
    cases h
  | some e =>
    by_cases htype : Store.typeName e.value = Str.lit "string"
    · obtain ⟨b, hb⟩ := (string_named e.value).mp htype
      rw [he] at happend
      rw [Option.map_some, hb]
      refine ⟨_, _, ⟨rfl, rfl⟩, happend b hb fun e' he' => ?_⟩
      rw [he] at he'
      rw [← Option.some.inj he', htype]
    · have hblind := string_blind s now.instant key he htype
      rw [content_live, he] at hblind
      rw [hblind, handleAppend, withType_refuses s now key "string" _ he htype]
      exact outcome_congr (Store.live_check s now.instant key)

omit hs in
/-- A counter that cannot be changed is written back. -/
theorem counter_refused {delta : Int64} {e : Entry} (he : s.live now.instant key = some e)
    {text : Str} (hadd : Store.addToString delta e.value = (.error text, e.value)) :
    outcome now.instant ((do
      return counterReply (← Store.adjustCounter key delta) : StoreM Value).runAt now s) =
      (.ok (.error text), s.keyspace now.instant) := by
  have hupsert := Store.upsert_spec s now key (.string (Str.utf8 "0")) (Store.addToString delta)
  rw [he, Option.map_some, Option.getD_some, hadd, Store.pending_of_live he] at hupsert
  rw [Store.adjustCounter, runAt_bind_ok now hupsert]
  exact outcome_congr (live_put_entry he)

theorem counter_stored {delta : Int64} {v : StoredValue} {n : Int64}
    (hv : ((s.live now.instant key).map Entry.value).getD (.string (Str.utf8 "0")) = v)
    (hadd : Store.addToString delta v = (.ok n, .string (Decimal.displayI64 n))) :
    outcome now.instant ((do
      return counterReply (← Store.adjustCounter key delta) : StoreM Value).runAt now s) =
      (.ok (.integer n), (s.keyspace now.instant).put key
        (some (.string (Decimal.displayI64 n)))) := by
  have hupsert := Store.upsert_spec s now key (.string (Str.utf8 "0")) (Store.addToString delta)
  rw [hv, hadd] at hupsert
  rw [Store.adjustCounter, runAt_bind_ok now hupsert]
  exact congrArg (Prod.mk _) (keyspace_stored hs now.instant key _)

theorem counts {delta : Int64} (hzero : Store.addToString delta (.string (Str.utf8 "0")) =
    (.ok delta, .string (Decimal.displayI64 delta))) :
    Counts (s.keyspace now.instant) key delta (outcome now.instant ((do
      return counterReply (← Store.adjustCounter key delta) : StoreM Value).runAt now s)) := by
  rw [Counts, content_live]
  cases he : s.live now.instant key with
  | none =>
    refine counter_stored now key hs ?_ hzero
    rw [he]
    rfl
  | some e =>
    rw [Option.map_some]
    cases hv : e.value with
    | string b =>
      have hold : ((s.live now.instant key).map Entry.value).getD (.string (Str.utf8 "0")) =
          .string b := by rw [he, Option.map_some, Option.getD_some, hv]
      dsimp only [StoredValue.content]
      cases hutf : Str.fromUtf8 b with
      | none => exact counter_refused now key he (by simp only [hv, Store.addToString, hutf])
      | some text =>
        rw [Option.map_some]
        cases hparse : Decimal.parseI64 text.bytes with
        | none =>
          exact counter_refused now key he (by simp only [hv, Store.addToString, hutf, hparse])
        | some n =>
          dsimp only
          by_cases hfits : -2 ^ 63 ≤ n.toInt + delta.toInt ∧ n.toInt + delta.toInt < 2 ^ 63
          · have hsum : Store.checkedAdd n delta = some (n + delta) := by
              rw [Store.checkedAdd, if_pos hfits, Int64.ofInt_add, Int64.ofInt_toInt,
                Int64.ofInt_toInt]
            rw [if_pos hfits]
            exact counter_stored now key hs hold
              (by simp only [Store.addToString, hutf, hparse, hsum])
          · have hsum : Store.checkedAdd n delta = none := if_neg hfits
            rw [if_neg hfits]
            exact counter_refused now key he
              (by simp only [hv, Store.addToString, hutf, hparse, hsum])
    | list items => exact counter_refused now key he (by rw [hv]; rfl)
    | set S => exact counter_refused now key he (by rw [hv]; rfl)
    | hash H => exact counter_refused now key he (by rw [hv]; rfl)
    | sortedSet z => exact counter_refused now key he (by rw [hv]; rfl)

theorem incr_done : (Command.incr key).Done F ord info now s := by
  rw [Command.Done, Command.Does]
  exact counts now key hs rfl

theorem decr_done : (Command.decr key).Done F ord info now s := by
  rw [Command.Done, Command.Does]
  exact counts now key hs rfl

theorem keys_done (pattern : Str) : (Command.keys pattern).Done F ord info now s := by
  rw [Command.Done, Command.Does, Command.execute]
  by_cases hpat : pattern = Str.lit "*"
  · have hkeys := ord.data_perm (s.evicted now.instant).data
    rw [if_pos hpat, hpat, handleKeys_run]
    refine ⟨((ord.data (s.evicted now.instant).data).map Prod.fst).mergeSort
      fun a b => (compare a b).isLE, ?_, fun k => ?_, ?_⟩
    · have hnodup : (((ord.data (s.evicted now.instant).data).map Prod.fst).map id).Nodup := by
        rw [List.map_id]
        exact ExtTreeMap.nodup_fst_toList _ _ hkeys
      have hsorted := mergeSort_ascending id hnodup
      rw [List.map_id] at hsorted
      exact hsorted
    · rw [List.mem_mergeSort, ← List.mem_toFinset, ExtTreeMap.keys_of_perm hkeys,
        ExtTreeMap.mem_keys_toFinmap, ExtTreeMap.mem_iff_isSome_getElem?, Store.evicted_data,
        Option.isSome_map, isSome_live]
    · exact outcome_congr (Store.live_evicted hs now.instant)
  · rw [if_neg hpat, handleKeys, if_pos hpat]
    rfl

end Writes

end Done

end FireRedis
