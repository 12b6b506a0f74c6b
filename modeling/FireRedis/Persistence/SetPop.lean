import FireRedis.Commands.Atomic
import FireRedis.Persistence.Logged
import FireRedis.Store.Pops

/-!
# SPOP and its log entry

The log names the key and the count of an SPOP, not the members it took. Live
run and replay take members in the iteration order of their own process, so they
agree in every order only where SPOP takes nothing or everything.
-/

namespace FireRedis
open Std Incremental

/-! ### Iteration orders that list a member first or last -/

namespace IterOrder

/-- Lists `m` before the other members. -/
def memberFirst (m : Bytes) : IterOrder where
  __ := sorted
  members S := if m ∈ S then m :: (S.erase m).toList else S.toList
  members_perm S := by
    split
    · rename_i hm
      apply ExtTreeSet.perm_toList
      · rw [List.nodup_cons]
        exact ⟨fun h => (ExtTreeSet.mem_erase_toList.mp h).1 rfl, (S.erase m).nodup_toList⟩
      · intro x
        rw [List.mem_cons, ExtTreeSet.mem_erase_toList]
        by_cases hx : x = m
        · simp [hx, hm]
        · simp [hx, Ne.symm hx]
    · exact .refl _

/-- Lists `m` behind the other members. -/
def memberLast (m : Bytes) : IterOrder where
  __ := sorted
  members S := if m ∈ S then (S.erase m).toList ++ [m] else S.toList
  members_perm S := by
    split
    · rename_i hm
      apply ExtTreeSet.perm_toList
      · rw [List.nodup_append_comm, List.singleton_append, List.nodup_cons]
        exact ⟨fun h => (ExtTreeSet.mem_erase_toList.mp h).1 rfl, (S.erase m).nodup_toList⟩
      · intro x
        rw [List.mem_append, ExtTreeSet.mem_erase_toList, List.mem_singleton]
        by_cases hx : x = m
        · simp [hx, hm]
        · simp [hx, Ne.symm hx]
    · exact .refl _

end IterOrder

/-! ### What is left after an SPOP -/

namespace Store

theorem mem_of_mem_popMembers {ord : IterOrder} {n : ℕ} {S : ExtTreeSet Bytes} {x : Bytes}
    (h : x ∈ (popMembers ord n S).2) : x ∈ S := by
  induction n generalizing S with
  | zero => exact h
  | succ n ih =>
    rw [popMembers] at h
    cases hhead : (ord.members S).head? with
    | none =>
      rw [hhead] at h
      exact h
    | some m =>
      rw [hhead] at h
      exact (ExtTreeSet.mem_erase.mp (ih h)).2

theorem popped_first {m : Bytes} {S : ExtTreeSet Bytes} (hm : m ∈ S) (n : ℕ) :
    m ∉ (popMembers (IterOrder.memberFirst m) (n + 1) S).2 := by
  have hhead : ((IterOrder.memberFirst m).members S).head? = some m := by
    simp [IterOrder.memberFirst, hm]
  rw [popMembers, hhead]
  intro h
  exact (ExtTreeSet.mem_erase.mp (mem_of_mem_popMembers h)).1 compare_self

theorem kept_last {m : Bytes} {S : ExtTreeSet Bytes} (hm : m ∈ S) {n : ℕ} (hn : n < S.size) :
    m ∈ (popMembers (IterOrder.memberLast m) n S).2 := by
  induction n generalizing S with
  | zero => exact hm
  | succ n ih =>
    have hmembers : (IterOrder.memberLast m).members S = (S.erase m).toList ++ [m] := by
      simp [IterOrder.memberLast, hm]
    have hsize : (S.erase m).toList.length = S.size - 1 := by
      rw [ExtTreeSet.length_toList, ExtTreeSet.size_erase, ExtTreeSet.contains_iff_mem.mpr hm,
        if_pos rfl]
    obtain ⟨x, rest, hx⟩ : ∃ x rest, (S.erase m).toList = x :: rest := by
      cases he : (S.erase m).toList with
      | nil =>
        rw [he, List.length_nil] at hsize
        omega
      | cons x rest => exact ⟨x, rest, rfl⟩
    obtain ⟨hne, hxS⟩ := ExtTreeSet.mem_erase_toList.mp (by rw [hx]; exact List.mem_cons_self .. :
      x ∈ (S.erase m).toList)
    have hhead : ((IterOrder.memberLast m).members S).head? = some x := by
      rw [hmembers, hx]
      rfl
    rw [popMembers, hhead]
    apply ih
    · exact ExtTreeSet.mem_erase.mpr ⟨fun h => hne (compare_eq_iff_eq.mp h).symm, hm⟩
    · rw [ExtTreeSet.size_erase, ExtTreeSet.contains_iff_mem.mpr hxS, if_pos rfl]
      omega

/-- What SPOP leaves is the same in every order exactly if it takes nothing or
everything. -/
theorem popMembers_order (n : ℕ) (S : ExtTreeSet Bytes) :
    (∀ ord ord' : IterOrder, (popMembers ord n S).2 = (popMembers ord' n S).2) ↔
      n = 0 ∨ S.size ≤ n := by
  constructor
  · intro h
    by_contra hn
    obtain ⟨hpos, hlt⟩ := not_or.mp hn
    obtain ⟨k, rfl⟩ := Nat.exists_eq_succ_of_ne_zero hpos
    obtain ⟨m, hm⟩ := (ExtTreeSet.isEmpty_eq_false_iff_exists S).mp (by
      rw [ExtTreeSet.isEmpty_eq_size_beq_zero, beq_eq_false_iff_ne]
      omega)
    apply popped_first hm k
    rw [h _ (IterOrder.memberLast m)]
    exact kept_last hm (by omega)
  · rintro (rfl | hle) ord ord'
    · rfl
    · have hempty : ∀ ord : IterOrder, (popMembers ord n S).2 = ∅ := by
        intro ord
        rw [ExtTreeSet.eq_empty_iff_size_eq_zero, size_popMembers]
        omega
      rw [hempty, hempty]

end Store

/-! ### Runs on one key -/

/-- SADD and SREM. -/
inductive SetEdit where
  | add (members : List Bytes)
  | remove (members : List Bytes)

namespace SetEdit

def command (key : Str) : SetEdit → Command
  | add members => .sAdd key members
  | remove members => .sRem key members

def apply : SetEdit → ExtTreeSet Bytes → ExtTreeSet Bytes
  | add members, S => (Store.insertMembers members S).2
  | remove members, S => (Store.removeMembers members S).2

end SetEdit

/-- The set that SADD and SREM commands build from nothing. -/
def builtSet (edits : List SetEdit) : ExtTreeSet Bytes := edits.foldl (fun S e => e.apply S) ∅

/-- What a key without a deadline holds, given its set: an empty one is removed. -/
structure HoldsSet (key : Str) (S : ExtTreeSet Bytes) (s : Store) : Prop where
  value : s.data[key]? = if S.isEmpty then none else some (.set S)
  deadline : s.expirations[key]? = none

section Runs

variable {key : Str} {S : ExtTreeSet Bytes} {s : Store}

theorem HoldsSet.live (h : HoldsSet key S s) (t : Instant) :
    s.live t key = if S.isEmpty then none else some ⟨.set S, none⟩ := by
  rw [Store.live, h.value, h.deadline]
  split <;> rfl

theorem HoldsSet.type (h : HoldsSet key S s) (t : Instant) (e : Entry)
    (he : s.live t key = some e) : Store.typeName e.value = Str.lit "set" := by
  rw [h.live] at he
  split at he
  · cases he
  · rw [← Option.some.inj he]
    rfl

theorem HoldsSet.set_eq {S' : ExtTreeSet Bytes} {s' : Store} (h : HoldsSet key S s)
    (h' : HoldsSet key S' s') (t : Instant) (hlive : s.live t key = s'.live t key) : S = S' := by
  rw [h.live, h'.live] at hlive
  split at hlive
  · rename_i hS
    split at hlive
    · rename_i hS'
      rw [ExtTreeSet.isEmpty_iff.mp hS, ExtTreeSet.isEmpty_iff.mp hS']
    · cases hlive
  · split at hlive
    · cases hlive
    · exact StoredValue.set.inj (congrArg Entry.value (Option.some.inj hlive))

variable (hs : s.Inv fun _ => True) (h : HoldsSet key S s) (now : Reading)
include hs h

theorem handleSAdd_set {members : List Bytes} (hne : members ≠ []) :
    ∃ reply s', (handleSAdd key members).runAt now s = (.ok reply, s') ∧
      HoldsSet key (Store.insertMembers members S).2 s' := by
  have hsome : (Store.insertMembers members S).2.isEmpty = false := by
    obtain ⟨m, rest, rfl⟩ := List.exists_cons_of_ne_nil hne
    rw [ExtTreeSet.isEmpty_eq_false_iff_exists]
    exact ⟨m, (Store.mem_insertMembers (m :: rest) S m).mpr (Or.inl (List.mem_cons_self ..))⟩
  have hvalue : Store.addToSet members (((s.live now.instant key).map Entry.value).getD (.set ∅)) =
      ((Store.insertMembers members S).1, .set (Store.insertMembers members S).2) := by
    rw [h.live]
    split
    · rename_i hS
      rw [ExtTreeSet.isEmpty_iff.mp hS]
      rfl
    · rfl
  have hdeadline : (s.live now.instant key).bind Entry.deadline = none := by
    rw [h.live]
    split <;> rfl
  have hupsert := Store.upsert_run (Store.inv_touch hs now.instant key) now key (.set ∅)
    (Store.addToSet members)
  rw [Store.live_touch, hvalue, hdeadline] at hupsert
  refine ⟨count (Store.insertMembers members S).1, (s.touch now.instant key).put key
    (some (.set (Store.insertMembers members S).2)) none, ?_, ?_⟩
  · rw [handleSAdd, withType_match hs now key "set" _ (h.type now.instant), Store.sAdd,
      runAt_bind_ok now hupsert]
    rfl
  · constructor <;> simp [hsome]

theorem handleTake_set {α : Type} (absent : α) (f : StoredValue → α × StoredValue × Bool)
    (take : ExtTreeSet Bytes → ExtTreeSet Bytes)
    (hf : ∀ S, (f (.set S)).2 = (.set (take S), (take S).isEmpty)) (hempty : take ∅ = ∅)
    (reply : α → Value) : ∃ v s',
      (withType key "set" (Store.amend key absent f >>= fun a => pure (reply a))).runAt now s =
        (.ok v, s') ∧ HoldsSet key (take S) s' := by
  have hamend := Store.amend_run (Store.inv_touch hs now.instant key) now key absent f
  rw [Store.live_touch, h.live] at hamend
  rw [withType_match hs now key "set" _ (h.type now.instant)]
  by_cases hS : S.isEmpty = true
  · rw [if_pos hS] at hamend
    refine ⟨_, _, runAt_bind_ok now hamend, ?_⟩
    rw [ExtTreeSet.isEmpty_iff.mp hS, hempty]
    constructor <;> simp
  · rw [if_neg hS] at hamend
    dsimp only at hamend
    rw [hf S] at hamend
    by_cases htake : (take S).isEmpty = true
    · rw [if_pos htake] at hamend
      refine ⟨_, _, runAt_bind_ok now hamend, ?_⟩
      constructor <;> simp [htake]
    · rw [if_neg htake] at hamend
      refine ⟨_, _, runAt_bind_ok now hamend, ?_⟩
      constructor <;> simp [htake]

end Runs

/-! ### A log with an SPOP at its end -/

section Log

variable {F : FloatText} {key : Str}

/-- The members that SPOP leaves. -/
def popped (ord : IterOrder) (n : Option ℕ) (S : ExtTreeSet Bytes) : ExtTreeSet Bytes :=
  (Store.popMembers ord (n.getD 1) S).2

theorem foldl_erase_empty (members : List Bytes) :
    members.foldl (fun S m => S.erase m) (∅ : ExtTreeSet Bytes) = ∅ := by
  induction members with
  | nil => rfl
  | cons m members ih => rw [List.foldl_cons, ExtTreeSet.erase_empty, ih]

theorem edit_run {t : Turn} {edit : SetEdit} (ht : ParsesTo F t.frame (edit.command key))
    {S : ExtTreeSet Bytes} {s : Store} (hs : s.Inv fun _ => True) (h : HoldsSet key S s) :
    HoldsSet key (edit.apply S) (t.run F s).2 := by
  rw [run_parsed F ht]
  cases edit with
  | add members =>
    have hne : members ≠ [] := by
      rintro rfl
      obtain ⟨args, -, hparse⟩ := ht
      exact (tryFrom_named hparse).1 key rfl
    obtain ⟨reply, s', hrun, hset⟩ := handleSAdd_set hs h t.now hne
    rw [SetEdit.command, Command.execute, hrun]
    exact hset
  | remove members =>
    have hempty : (Store.removeMembers members ∅).2 = ∅ := by
      rw [Store.removeMembers, snd_foldl _ (fun S m => S.erase m) fun _ _ _ => rfl]
      exact foldl_erase_empty members
    obtain ⟨reply, s', hrun, hset⟩ := handleTake_set hs h t.now 0
      (Store.removeFromSet members) (fun S => (Store.removeMembers members S).2) (fun _ => rfl)
      hempty count
    rw [SetEdit.command, Command.execute]
    exact (congrArg Prod.snd hrun) ▸ hset

theorem pop_run {t : Turn} {n : Option ℕ} (ht : ParsesTo F t.frame (.sPop key n))
    {S : ExtTreeSet Bytes} {s : Store} (hs : s.Inv fun _ => True) (h : HoldsSet key S s) :
    HoldsSet key (popped t.ord n S) (t.run F s).2 := by
  have hempty : ∀ n, (Store.popMembers t.ord n ∅).2 = ∅ := by
    intro n
    rw [ExtTreeSet.eq_empty_iff_size_eq_zero, Store.size_popMembers, ExtTreeSet.size_empty,
      Nat.zero_sub]
  have htake : ∀ n (reply : List Bytes → Value), ∃ v s',
      (withType key "set" (Store.sPop t.ord key n >>= fun a => pure (reply a))).runAt t.now s =
        (.ok v, s') ∧ HoldsSet key (Store.popMembers t.ord n S).2 s' := fun n reply =>
    handleTake_set hs h t.now [] (Store.popFromSet t.ord n)
      (fun S => (Store.popMembers t.ord n S).2) (fun _ => rfl) (hempty n) reply
  rw [run_parsed F ht]
  cases n with
  | none =>
    obtain ⟨v, s', hrun, hset⟩ := htake 1 fun members => bulkOrNull members.getLast?
    exact (congrArg Prod.snd hrun) ▸ hset
  | some n =>
    obtain ⟨v, s', hrun, hset⟩ := htake n bulkArray
    exact (congrArg Prod.snd hrun) ▸ hset

theorem edits_run {turns : List Turn} {edits : List SetEdit}
    (hedits : List.Forall₂ (fun t e => ParsesTo F t.frame (e.command key)) turns edits)
    {S : ExtTreeSet Bytes} {s : Store} (hs : s.Inv fun _ => True) (h : HoldsSet key S s) :
    HoldsSet key (edits.foldl (fun S e => e.apply S) S) (runTurns F turns s) := by
  induction hedits generalizing S s with
  | nil => exact h
  | cons ht _ ih => exact ih (inv_run F _ hs) (edit_run ht hs h)

theorem logged_edits {frames : List Value} {edits : List SetEdit}
    (hedits : List.Forall₂ (fun frame e => ParsesTo F frame (e.command key)) frames edits) :
    ∀ v ∈ frames, logEntry v = some v := by
  induction hedits with
  | nil => exact nofun
  | @cons frame e frames edits hframe _ ih =>
    have hw : (e.command key).isLogged = true := by cases e <;> rfl
    exact List.forall_mem_cons.mpr ⟨logEntry_of_parses F hframe hw, ih⟩

theorem log_run {turns : List Turn} {edits : List SetEdit} {n : Option ℕ} {frames : List Value}
    {pop : Value} (hframes : turns.map Turn.frame = frames ++ [pop])
    (hedits : List.Forall₂ (fun frame e => ParsesTo F frame (e.command key)) frames edits)
    (hpop : ParsesTo F pop (.sPop key n)) :
    ∃ ord, ord ∈ turns.map Turn.ord ∧
      HoldsSet key (popped ord n (builtSet edits)) (runTurns F turns Store.empty) := by
  obtain ⟨before, last, rfl, hbefore, hlast⟩ := List.map_eq_append_iff.mp hframes
  obtain ⟨t, rest, rfl, ht, hnil⟩ := List.map_eq_cons_iff.mp hlast
  rw [List.map_eq_nil_iff.mp hnil, runTurns_append]
  have hempty : HoldsSet key ∅ Store.empty := by constructor <;> simp [Store.empty]
  have hturns : List.Forall₂ (fun t e => ParsesTo F t.frame (e.command key)) before edits := by
    rw [← hbefore] at hedits
    exact List.forall₂_map_left_iff.mp hedits
  have hbuilt := edits_run hturns (Store.inv_empty _) hempty
  have hinv := inv_runTurns F before (Store.inv_empty _)
  refine ⟨t.ord, by simp, ?_⟩
  exact pop_run (ht ▸ hpop) hinv hbuilt

/-- The replay of a log that ends with an SPOP leaves the live run's set, in all
iteration orders of both, exactly if the SPOP took nothing or everything. -/
theorem spop_replay (F : FloatText) (key : Str) (edits : List SetEdit) (n : Option ℕ)
    (frames : List Value) (pop : Value)
    (hedits : List.Forall₂ (fun frame e => ParsesTo F frame (e.command key)) frames edits)
    (hpop : ParsesTo F pop (.sPop key n)) (hwire : ∀ v ∈ frames ++ [pop], v.Wire)
    (path : PathBuf) (fs : FileSystem) (hempty : ∀ bytes, fs.read path = some bytes → bytes = []) :
    (∀ (turns : List Turn) (ord' : IterOrder) (info' : Bytes) (now' : Reading),
      turns.map Turn.frame = frames ++ [pop] →
      let fs' := (AofWriter.new path fs).1.appendAll (turnsLog turns) (AofWriter.new path fs).2
      ∃ m s, (replay F ord' info' fs' path).runAt now' Store.empty = (.ok m, s) ∧
        ∀ t, s.live t key = (runTurns F turns Store.empty).live t key) ↔
      n.getD 1 = 0 ∨ (builtSet edits).size ≤ n.getD 1 := by
  have hlog : ∀ v ∈ frames ++ [pop], logEntry v = some v := by
    intro v hv
    rcases List.mem_append.mp hv with hv | hv
    · exact logged_edits hedits v hv
    · rw [List.mem_singleton.mp hv]
      exact logEntry_of_parses F hpop rfl
  -- The replay is the run of the same requests in the order of the other process.
  have hreplay : ∀ (turns : List Turn) ord' info' now', turns.map Turn.frame = frames ++ [pop] →
      (replay F ord' info' ((AofWriter.new path fs).1.appendAll (turnsLog turns)
        (AofWriter.new path fs).2) path).runAt now' Store.empty =
        (.ok (frames ++ [pop]).length,
          runTurns F (replayTurns ord' info' now' (frames ++ [pop])) Store.empty) := by
    intro turns ord' info' now' hframes
    rw [turnsLog_eq hframes hlog]
    exact replay_turns F ord' info' now' hwire hlog (AofWriter.read_appendAll path hempty _)
  have hframes : ∀ ord info now,
      (replayTurns ord info now (frames ++ [pop])).map Turn.frame = frames ++ [pop] := by
    intro ord info now
    rw [replayTurns, List.map_map]
    exact List.map_id _
  have hrun : ∀ ord info now, HoldsSet key (popped ord n (builtSet edits))
      (runTurns F (replayTurns ord info now (frames ++ [pop])) Store.empty) := by
    intro ord info now
    obtain ⟨ord₀, hord, hset⟩ := log_run (hframes ord info now) hedits hpop
    obtain ⟨t, ht, rfl⟩ := List.mem_map.mp hord
    obtain ⟨v, -, rfl⟩ := List.mem_map.mp ht
    exact hset
  rw [← Store.popMembers_order]
  constructor
  · intro h ord ord'
    obtain ⟨m, s, hs, hlive⟩ := h _ ord' [] ⟨0, 0⟩ (hframes ord [] ⟨0, 0⟩)
    rw [hreplay _ ord' [] ⟨0, 0⟩ (hframes ord [] ⟨0, 0⟩)] at hs
    rw [← (Prod.mk.inj hs).2] at hlive
    exact ((hrun ord' [] ⟨0, 0⟩).set_eq (hrun ord [] ⟨0, 0⟩) 0 (hlive 0)).symm
  · intro h turns ord' info' now' hturns
    refine ⟨_, _, hreplay turns ord' info' now' hturns, fun t => ?_⟩
    obtain ⟨ord, -, hset⟩ := log_run hturns hedits hpop
    rw [(hrun ord' info' now').live, hset.live, popped, h ord' ord]
    rfl

/-- SPOP of both members, in two different orders. -/
theorem spop_replay_whole :
    let F : FloatText := noFloats
    let add := commandValue "SADD" [Str.utf8 "k", Str.utf8 "a", Str.utf8 "b"]
    let pop := commandValue "SPOP" [Str.utf8 "k", Str.utf8 "2"]
    let turns := replayTurns (IterOrder.memberFirst (Str.utf8 "a")) [] ⟨0, 0⟩ [add, pop]
    let fs := (AofWriter.new (Str.utf8 "a.aof") .empty).1.appendAll (turnsLog turns)
      (AofWriter.new (Str.utf8 "a.aof") .empty).2
    ∃ m s, (replay F (IterOrder.memberLast (Str.utf8 "a")) [] fs (Str.utf8 "a.aof")).runAt ⟨9, 0⟩
        Store.empty = (.ok m, s) ∧
      ∀ t, s.live t (Str.lit "k") = (runTurns F turns Store.empty).live t (Str.lit "k") := by
  intro F add pop turns fs
  have hadd : ParsesTo F add ((SetEdit.add [Str.utf8 "a", Str.utf8 "b"]).command (Str.lit "k")) :=
    ⟨_, rfl, rfl⟩
  have hpop : ParsesTo F pop (.sPop (Str.lit "k") (some 2)) := ⟨_, rfl, rfl⟩
  refine (spop_replay F (Str.lit "k") [.add [Str.utf8 "a", Str.utf8 "b"]] (some 2) [add] pop
    (.cons hadd .nil) hpop ?_ (Str.utf8 "a.aof") .empty (fun bytes h => by cases h)).mpr
    (Or.inr (by decide)) turns _ [] ⟨9, 0⟩ rfl
  intro v hv
  simp only [List.singleton_append, List.mem_cons, List.not_mem_nil, or_false] at hv
  rcases hv with rfl | rfl <;>
    exact wire_commandValue _ _ (by decide) (by decide) (by decide)

/-- SPOP of one of two members: the live run keeps one, the replay the other. -/
theorem popped_member_comes_back :
    let F : FloatText := noFloats
    let log := [commandValue "SADD" [Str.utf8 "k", Str.utf8 "a", Str.utf8 "b"],
      commandValue "SPOP" [Str.utf8 "k"]]
    let turns := replayTurns (IterOrder.memberFirst (Str.utf8 "a")) [] ⟨0, 0⟩ log
    let fs := (AofWriter.new (Str.utf8 "a.aof") .empty).1.appendAll (turnsLog turns)
      (AofWriter.new (Str.utf8 "a.aof") .empty).2
    ∃ m s, (replay F (IterOrder.memberLast (Str.utf8 "a")) [] fs (Str.utf8 "a.aof")).runAt ⟨0, 0⟩
        Store.empty = (.ok m, s) ∧
      (runTurns F turns Store.empty).data[Str.lit "k"]? = some (.set {Str.utf8 "b"}) ∧
      s.data[Str.lit "k"]? = some (.set {Str.utf8 "a"}) ∧
      Str.utf8 "a" ∉ ({Str.utf8 "b"} : ExtTreeSet Bytes) := by
  intro F log turns fs
  have hwire : ∀ v ∈ log, v.Wire := by
    intro v hv
    simp only [log, List.mem_cons, List.not_mem_nil, or_false] at hv
    rcases hv with rfl | rfl <;>
      exact wire_commandValue _ _ (by decide) (by decide) (by decide)
  have hlog : ∀ v ∈ log, logEntry v = some v := by
    intro v hv
    simp only [log, List.mem_cons, List.not_mem_nil, or_false] at hv
    rcases hv with rfl | rfl <;> rfl
  have hread : fs.read (Str.utf8 "a.aof") = some (log.flatMap encode) :=
    AofWriter.read_appendAll _ (fun bytes h => by cases h) log
  refine ⟨_, _, replay_turns F _ [] ⟨0, 0⟩ hwire hlog hread, rfl, rfl, by decide⟩

end Log

end FireRedis
