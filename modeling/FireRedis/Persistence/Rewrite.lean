import FireRedis.Persistence.Reachable
import FireRedis.Persistence.Rebuild

/-!
# A rewritten log denotes the store

The file that a rewrite leaves holds, for each live key, the commands that give
it its value and deadline. Replayed into an empty store at the same clock
reading they give the live dataset again, with deadlines that are less than a
second late.
-/

namespace FireRedis
open Std

section Emit

variable (F : FloatText) (ord : IterOrder) (now : Reading)

/-- What is written for a key of a store without expired keys. -/
def keyCommands (D : Store) (item : Str × StoredValue) : List Value :=
  valueToCommands F ord item.1 item.2
    (D.expirations[item.1]?.map fun d => UInt64.ofNat (max (asMillis (d - now.instant)) 1))

def rewritten (D : Store) : List Value := (ord.data D.data).flatMap (keyCommands F ord now D)

theorem rewriteCommands_run (s : Store) : (rewriteCommands F ord).runAt now s =
    (.ok (rewritten F ord now (s.evicted now.instant)), s.evicted now.instant) := by
  generalize hD : s.evicted now.instant = D
  have hkeys := Store.keys_run (s := s) now ord
  rw [hD] at hkeys
  have hlisted : ∀ item ∈ ord.data D.data, D.data[item.1]? = some item.2 := by
    intro item hitem
    exact ExtTreeMap.mem_toList_iff_getElem?_eq_some.mp ((ord.data_perm D.data).mem_iff.mp hitem)
  rw [rewriteCommands, runAt_bind_ok now hkeys, List.foldlM_map, rewritten, List.flatMap_eq_foldl]
  apply runAt_foldlM
  intro commands item hitem
  have hget := hlisted item hitem
  rw [Store.getForRestore, runAt_bind, runAt_dataGet, hget]
  show StoreM.runAt (Store.ttlMsForPersistence item.1 >>= _) now D = _
  cases hd : D.expirations[item.1]? with
  | none => simp [Store.ttlMsForPersistence, runAt_bind, keyCommands, hd]
  | some d => simp [Store.ttlMsForPersistence, runAt_bind, keyCommands, hd, Except.map]

theorem rewriteAof_run (aofPath tempPath : PathBuf) (fs : FileSystem)
    (htemp : fs.names tempPath = none) (s : Store) :
    ∃ fs', (rewriteAof F ord aofPath tempPath fs).runAt now s =
        (.ok ((rewritten F ord now (s.evicted now.instant)).length, fs'),
          s.evicted now.instant) ∧
      fs'.read aofPath =
        some ((rewritten F ord now (s.evicted now.instant)).flatMap encode) ∧
      fs'.names aofPath = some fs.next := by
  have hopen : AofWriter.new tempPath fs = (⟨fs.next⟩, fs.make tempPath) := by
    rw [AofWriter.new, FileSystem.openAppend_of_none htemp]
  have hname : ∀ bytes, ((fs.make tempPath).write fs.next bytes).names tempPath = some fs.next := by
    intro bytes
    simp [FileSystem.make]
  rw [rewriteAof, hopen]
  show ∃ fs', StoreM.runAt (rewriteCommands F ord >>= _) now s = _ ∧ _
  rw [runAt_bind_ok now (rewriteCommands_run F ord now s)]
  refine ⟨_, rfl, ?_, ?_⟩
  · rw [AofWriter.appendAll_eq, FileSystem.read_rename _ (hname _), FileSystem.contents_write,
      if_pos rfl]
    simp [FileSystem.make]
  · rw [AofWriter.appendAll_eq, FileSystem.rename]
    simp only [if_true]
    exact hname _

end Emit

/-! ### Replaying it -/

/-- A deadline that is not early and less than a second late. -/
def WithinSecond (d d' : Instant) : Prop := d ≤ d' ∧ d' < d + 1000000000

theorem wire_of_fits {name : String} {args : List Bytes}
    (h : (commandValue name args).Fits) : (commandValue name args).Wire := by
  refine ⟨h, ?_, ?_⟩
  · rw [commandValue, Value.NoCrlf, Value.all_array]
    refine ⟨trivial, fun v hv => ?_⟩
    obtain ⟨b, -, rfl⟩ := List.mem_map.mp (List.map_cons.symm ▸ hv :
      v ∈ (Str.utf8 name :: args).map bulk)
    exact trivial
  · rw [commandValue, Value.Normal, Value.all_array]
    refine ⟨trivial, fun v hv => ?_⟩
    obtain ⟨b, -, rfl⟩ := List.mem_map.mp (List.map_cons.symm ▸ hv :
      v ∈ (Str.utf8 name :: args).map bulk)
    exact trivial

theorem commandValue_of_mem {F : FloatText} {ord : IterOrder} {key : Str} {v : StoredValue}
    {ttlMs : Option UInt64} {command : Value} (h : command ∈ valueToCommands F ord key v ttlMs) :
    ∃ name args, command = commandValue name args := by
  rw [valueToCommands.eq_def] at h
  rcases List.mem_append.mp h with h | h
  · cases v with
    | string b => exact ⟨_, _, List.mem_singleton.mp h⟩
    | _ =>
      rw [buildCommand] at h
      split at h
      · cases h
      · exact ⟨_, _, List.mem_singleton.mp h⟩
  · cases ttlMs with
    | none => cases h
    | some ms => exact ⟨_, _, List.mem_singleton.mp h⟩

theorem forM_flatMap {α β : Type} {m : Type → Type} [Monad m] [LawfulMonad m] (items : List α)
    (f : α → List β) (g : β → m Unit) :
    forM (items.flatMap f) g = forM items fun a => forM (f a) g := by
  induction items with
  | nil => rfl
  | cons a items ih => rw [List.flatMap_cons, List.forM_append, List.forM_cons, ih]

theorem rewritten_run (F : FloatText) (hF : F.RoundTrips) (ord ord' : IterOrder) (info : Bytes)
    (now : Reading) {s : Store} (hs : s.Inv StoredValue.WellFormed) :
    ∃ loaded, (forM (rewritten F ord now (s.evicted now.instant))
        (executeCommand F ord' info)).runAt now Store.empty = (.ok (), loaded) ∧
      Dataset.Related (fun d d' => d' = rewrittenDeadline now.instant d) (s.live now.instant)
        (loaded.live now.instant) := by
  have hperm := ord.data_perm (s.evicted now.instant).data
  rw [rewritten, forM_flatMap]
  apply fill_related now (fun d d' => d' = rewrittenDeadline now.instant d)
    (fun d d' _ hd => hd ▸ rewrittenDeadline_later now.instant d) _ hperm
  rintro ⟨key, v⟩ hitem s₀ hs₀ hnew
  obtain ⟨e, he, rfl⟩ := (mem_evicted hperm key v).mp hitem
  have hold : (s.evicted now.instant).expirations[key]? = e.deadline := by
    rw [Store.evicted_expirations hs, he]
    rfl
  obtain ⟨v', hsame, hrun⟩ := valueToCommands_run F ord' info now hs₀ hnew hF ord
    (Store.value_of_live hs he)
    (e.deadline.map fun d => UInt64.ofNat (max (asMillis (d - now.instant)) 1))
  rw [← hold] at hrun
  refine ⟨v', _, ⟨hsame, ?_⟩, hrun⟩
  rw [he, Option.bind_some, hold]
  cases e.deadline with
  | none => exact Option.Rel.none
  | some d => exact Option.Rel.some rfl

theorem related_withinSecond {t : Instant} {s : Store} {E : Dataset}
    (hwhole : ∀ key e d, s.live t key = some e → e.deadline = some d → 1000000 ∣ d - t)
    (httl : ∀ key e d, s.live t key = some e → e.deadline = some d →
      asMillis (d - t) ≤ 2 ^ 64 - 1 - 999)
    (h : Dataset.Related (fun d d' => d' = rewrittenDeadline t d) (s.live t) E) :
    Dataset.Related WithinSecond (s.live t) E := by
  apply h.imp
  rintro key e d d' he hd rfl
  have hmax := httl key e d he hd
  exact rewrittenDeadline_within ((liveOf_eq_some.mp he).2.2 d hd) (hwhole key e d he hd)
    (by omega)

/-- A log that was rewritten and appended to replays as the dataset at the rewrite. -/
theorem replay_rewritten (F : FloatText) (hF : F.RoundTrips) (ord ord' : IterOrder)
    (info : Bytes) (now : Reading) {s : Store} (hs : s.Inv StoredValue.WellFormed)
    {fs : FileSystem} {path : PathBuf}
    (hread : fs.read path =
      some ((rewritten F ord now (s.evicted now.instant)).flatMap encode))
    (hfits : ∀ v ∈ rewritten F ord now (s.evicted now.instant), v.Fits) :
    ∃ loaded, (replay F ord' info fs path).runAt now Store.empty =
        (.ok (rewritten F ord now (s.evicted now.instant)).length, loaded) ∧
      Dataset.Related (fun d d' => d' = rewrittenDeadline now.instant d) (s.live now.instant)
        (loaded.live now.instant) := by
  have hwire : ∀ v ∈ rewritten F ord now (s.evicted now.instant), v.Wire := by
    intro v hv
    obtain ⟨item, -, hmem⟩ := List.mem_flatMap.mp hv
    obtain ⟨name, args, rfl⟩ := commandValue_of_mem hmem
    exact wire_of_fits (hfits _ hv)
  obtain ⟨loaded, hloaded, hrelated⟩ := rewritten_run F hF ord ord' info now hs
  refine ⟨loaded, ?_, hrelated⟩
  rw [replay_log F ord' info fs path _ hwire hread, runAt_bind_ok now hloaded]
  rfl

/-- The file that a rewrite leaves replays as the store it was taken from, with
deadlines rounded up to whole seconds from now. -/
theorem rewrite_replay (F : FloatText) (hF : F.RoundTrips) (s : Store)
    (h : Reachable F WholeMillis s) (ord ord' : IterOrder) (info : Bytes)
    (aofPath tempPath : PathBuf) (fs : FileSystem) (htemp : fs.names tempPath = none)
    (now : Reading) (hnow : WholeMillis now)
    (httl : ∀ key e d, s.live now.instant key = some e → e.deadline = some d →
      asMillis (d - now.instant) ≤ 2 ^ 64 - 1 - 999) :
    ∃ log fs' s', (rewriteCommands F ord).runAt now s = (.ok log, s') ∧
      (rewriteAof F ord aofPath tempPath fs).runAt now s = (.ok (log.length, fs'), s') ∧
      ((∀ v ∈ log, v.Fits) → ∃ loaded,
        (replay F ord' info fs' aofPath).runAt now Store.empty = (.ok log.length, loaded) ∧
          Dataset.Related WithinSecond (s.live now.instant) (loaded.live now.instant)) := by
  have hs := reachable_inv h
  obtain ⟨fs', hrun, hread, -⟩ := rewriteAof_run F ord now aofPath tempPath fs htemp s
  refine ⟨_, fs', _, rewriteCommands_run F ord now s, hrun, fun hfits => ?_⟩
  obtain ⟨loaded, hload, hrelated⟩ :=
    replay_rewritten F hF ord ord' info now hs hread hfits
  exact ⟨loaded, hload, related_withinSecond (reachable_whole_live h hnow) httl hrelated⟩

/-- A string that expires in five milliseconds. -/
theorem rewrite_replay_string :
    let s := (((Command.set (Str.lit "k") (Str.utf8 "v") (some 5) .none).execute bitText .sorted
      []).runAt ⟨0, 0⟩ Store.empty).2
    let path := Str.utf8 "a.aof"
    ∃ log fs' s', (rewriteCommands bitText .sorted).runAt ⟨0, 0⟩ s = (.ok log, s') ∧
      (rewriteAof bitText .sorted path (Str.utf8 "a.aof.tmp") .empty).runAt ⟨0, 0⟩ s =
        (.ok (log.length, fs'), s') ∧
      ∃ loaded, (replay bitText .sorted [] fs' path).runAt ⟨0, 0⟩ Store.empty =
          (.ok log.length, loaded) ∧
        Dataset.Related WithinSecond (s.live 0) (loaded.live 0) := by
  intro s path
  obtain ⟨log, fs', s', hlog, hrun, hload⟩ := rewrite_replay bitText bitText_roundTrips s
    reachable_volatileString .sorted .sorted [] path (Str.utf8 "a.aof.tmp") .empty rfl ⟨0, 0⟩
    (Nat.dvd_zero _) (by
      intro key e d he hd
      rw [volatileString_deadline he hd]
      decide)
  have hcommands : ((rewriteCommands bitText .sorted).runAt ⟨0, 0⟩ s).1 =
      .ok [commandValue "SET" [(Str.lit "k").bytes, Str.utf8 "v"],
        commandValue "EXPIRE" [(Str.lit "k").bytes, Decimal.displayU64
          (ceilSeconds (UInt64.ofNat (max (asMillis (5000000 - 0)) 1)))]] := rfl
  obtain rfl : log = _ := Except.ok.inj ((congrArg Prod.fst hlog).symm.trans hcommands)
  refine ⟨_, fs', s', hlog, hrun, hload ?_⟩
  intro v hv
  rcases List.mem_cons.mp hv with rfl | hv
  · exact (wire_commandValue "SET" _ (by decide) (by decide) (by decide)).1
  · rw [List.mem_singleton.mp hv]
    exact (wire_commandValue "EXPIRE" _ (by decide) (by decide)
      (by decide +kernel)).1

end FireRedis
