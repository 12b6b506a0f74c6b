import FireRedis.Persistence.Manager
import FireRedis.Persistence.Rewrite

/-!
# What a restart finds

A manager that uses the log creates it before it looks for it, so that a missing
log hides the snapshot. After a rewrite the path names the new file and the
manager's handle the old one, so that what is appended later is not replayed.
-/

namespace FireRedis
open PersistenceManager

theorem Dataset.related_none {R : Instant → Instant → Prop} {D : Dataset} :
    Dataset.Related R D (fun _ => none) ↔ ∀ key, D key = none := by
  constructor
  · intro h key
    have hkey := h key
    cases he : D key with
    | none => rfl
    | some e =>
      rw [he] at hkey
      cases hkey
  · intro h key
    rw [h key]
    exact Option.Rel.none

/-! ### The fallback to the snapshot -/

section Fallback

variable (F : FloatText) (ord ord' : IterOrder) (info : Bytes) (now : Reading)

/-- With the log in use but missing, the snapshot is not loaded: a restart gives
the saved dataset back only if that is empty. -/
theorem startup_missing_log (s : Store) (hs : s.Inv fun _ => True) (path : PathBuf)
    (fs₀ : FileSystem) (rdbFile aofFile : PathBuf) :
    ∃ fs₁ s' bytes, (RdbSerializer.saveToFile F ord path fs₀).runAt now s = (.ok fs₁, s') ∧
      fs₁.read path = some bytes ∧
      ∀ fs : FileSystem, fs.names aofFile = none → fs.read rdbFile = some bytes →
        let opened := new ⟨true, rdbFile, true, aofFile⟩ fs
        ∃ loaded, (opened.1.loadOnStartup F ord' info opened.2).runAt now Store.empty =
            (.ok (.ok ()), loaded) ∧
          (Dataset.Related Eq (s.live now.instant) (loaded.live now.instant) ↔
            ∀ key, s.live now.instant key = none) := by
  obtain ⟨fs₁, hsave, hread, -⟩ := saveToFile_run F ord now hs path fs₀
  refine ⟨fs₁, _, _, hsave, hread, fun fs hmissing _ => ⟨Store.empty, ?_, ?_⟩⟩
  · rw [loadOnStartup_created F ord' info rfl hmissing]
    rfl
  · rw [Store.live_empty, Dataset.related_none]

/-- The snapshot of one string. -/
theorem startup_missing_log_string :
    let s := (((Command.set (Str.lit "k") (Str.utf8 "v") none .none).execute bitText .sorted
      []).runAt ⟨0, 77⟩ Store.empty).2
    ∃ fs₁ s' bytes, (RdbSerializer.saveToFile bitText .sorted (Str.utf8 "dump.rdb") .empty).runAt
        ⟨0, 77⟩ s = (.ok fs₁, s') ∧ fs₁.read (Str.utf8 "dump.rdb") = some bytes ∧
      let opened := new .withAof fs₁
      ∃ loaded, (opened.1.loadOnStartup bitText .sorted [] opened.2).runAt ⟨0, 77⟩ Store.empty =
          (.ok (.ok ()), loaded) ∧
        (Dataset.Related Eq (s.live 0) (loaded.live 0) ↔ ∀ key, s.live 0 key = none) := by
  intro s
  have hs : s.Inv fun _ => True := Store.inv_put (Store.inv_empty _) (Str.lit "k")
    (v := some (.string (Str.utf8 "v"))) (d := none) (fun _ _ => trivial) (by simp)
  obtain ⟨fs, hsave', -, hnames⟩ :=
    saveToFile_run bitText .sorted ⟨0, 77⟩ hs (Str.utf8 "dump.rdb") .empty
  obtain ⟨fs₁, s', bytes, hsave, hread, hstart⟩ := startup_missing_log bitText .sorted .sorted []
    ⟨0, 77⟩ s hs (Str.utf8 "dump.rdb") .empty (Str.utf8 "dump.rdb") (Str.utf8 "appendonly.aof")
  obtain rfl : fs₁ = fs := Except.ok.inj (Prod.mk.inj (hsave.symm.trans hsave')).1
  have hmissing : fs₁.names (Str.utf8 "appendonly.aof") = none :=
    hnames _ (by decide) (by decide +kernel)
  exact ⟨fs₁, s', bytes, hsave, hread, hstart fs₁ hmissing hread⟩

/-- A saved string that a restart with the log in use does not find. -/
theorem snapshot_not_loaded :
    let s := (((Command.set (Str.lit "k") (Str.utf8 "v") none .none).execute bitText .sorted
      []).runAt ⟨0, 77⟩ Store.empty).2
    let config := PersistenceConfig.withAof
    ∃ fs s', (RdbSerializer.saveToFile bitText .sorted config.rdbFile .empty).runAt ⟨0, 77⟩ s =
        (.ok fs, s') ∧ fs.names config.aofFile = none ∧
      ∃ loaded, ((new config fs).1.loadOnStartup bitText .sorted [] (new config fs).2).runAt
          ⟨0, 77⟩ Store.empty = (.ok (.ok ()), loaded) ∧
        ¬ Dataset.Related Eq (s.live 0) (loaded.live 0) := by
  intro s config
  have hs : s.Inv fun _ => True := Store.inv_put (Store.inv_empty _) (Str.lit "k")
    (v := some (.string (Str.utf8 "v"))) (d := none) (fun _ _ => trivial) (by simp)
  obtain ⟨fs, hsave, -, hnames⟩ := saveToFile_run bitText .sorted ⟨0, 77⟩ hs config.rdbFile .empty
  have hmissing : fs.names config.aofFile = none :=
    hnames config.aofFile (by decide) (by decide +kernel)
  refine ⟨fs, _, hsave, hmissing, Store.empty, ?_, ?_⟩
  · rw [loadOnStartup_created bitText .sorted [] rfl hmissing]
    rfl
  · rw [Store.live_empty, Dataset.related_none]
    intro h
    exact absurd (h (Str.lit "k")) (by decide +kernel)

end Fallback

/-! ### Writes after a rewrite -/

section Rewrite

variable (F : FloatText) (ord ord' : IterOrder) (info info' : Bytes) (now : Reading)

/-- Once a rewrite has renamed its file to the log, the log stays what the rewrite
wrote: the manager appends to the file that had the name before. -/
theorem rewriteAof_append (config : PersistenceConfig) (haof : config.aofEnabled = true)
    (fs : FileSystem) (htemp : fs.names (withExtension config.aofFile "aof.tmp") = none)
    (earlier : List Value) (s : Store) :
    let pm := (new config fs).1
    let log := rewritten F ord now (s.evicted now.instant)
    ∃ fs', (pm.rewriteAof F ord (pm.append earlier (new config fs).2)).runAt now s =
        (.ok (log.length, fs'), s.evicted now.instant) ∧
      ∀ later, (pm.append later fs').read config.aofFile = some (log.flatMap encode) := by
  intro pm log
  have hnew := new_aof haof fs
  generalize hw : (AofWriter.new config.aofFile fs).1 = w at hnew
  have hpm : pm = ⟨config, some w⟩ := by rw [show pm = (new config fs).1 from rfl, hnew]
  obtain ⟨hname, -⟩ := AofWriter.new_names config.aofFile fs
  rw [hw] at hname
  have htemp' : (pm.append earlier (new config fs).2).names pm.tempPath = none := by
    rw [names_append, hnew, hpm]
    exact (FileSystem.openAppend_names_ne fs (tempPath_ne ⟨config, some w⟩)).trans htemp
  obtain ⟨fs', hrun, hread, hnext⟩ :=
    FireRedis.rewriteAof_run F ord now config.aofFile pm.tempPath _ htemp' s
  -- The handle was given out before the rewrite took a new file.
  have hold : w.file < (pm.append earlier (new config fs).2).next := by
    rw [next_append, hnew]
    exact (AofWriter.new config.aofFile fs).2.fresh config.aofFile w.file hname
  have hne : fs'.names config.aofFile ≠ some w.file := by
    rw [hnext]
    intro h
    have heq := Option.some.inj h
    omega
  refine ⟨fs', ?_, fun later => ?_⟩
  · rw [rewriteAof, hpm] at *
    exact hrun
  · rw [hpm]
    show (w.appendAll later fs').read config.aofFile = _
    rw [AofWriter.appendAll_eq, FileSystem.read_write_ne fs' hne]
    exact hread

/-- Requests `W₁`, a rewrite and requests `W₂`, served by one manager: the log
replays as the dataset that the server ends with if and only if `W₂` changes
nothing, up to the rounding of deadlines. -/
theorem replay_after_rewrite (hF : F.RoundTrips) (config : PersistenceConfig)
    (haof : config.aofEnabled = true) (fs : FileSystem)
    (htemp : fs.names (withExtension config.aofFile "aof.tmp") = none) (s₀ : Store)
    (h : Reachable F (fun _ => True) s₀) (W₁ W₂ : List Value) :
    let pm := (new config fs).1
    let before := pm.serve F ord info now W₁ s₀ (new config fs).2
    ∃ log fs' s', (rewriteCommands F ord).runAt now before.1 = (.ok log, s') ∧
      (pm.rewriteAof F ord before.2).runAt now before.1 = (.ok (log.length, fs'), s') ∧
      let after := pm.serve F ord info now W₂ s' fs'
      ((∀ v ∈ log, v.Fits) → ∃ loaded,
        (replay F ord' info' after.2 config.aofFile).runAt now Store.empty =
            (.ok log.length, loaded) ∧
          (Dataset.Related WithinSecond (after.1.live now.instant) (loaded.live now.instant) ↔
            Dataset.Related (fun d₂ d₁ => WithinSecond d₂ (rewrittenDeadline now.instant d₁))
              (after.1.live now.instant) (before.1.live now.instant))) := by
  intro pm before
  have hbefore : before.1.Inv StoredValue.WellFormed :=
    reachable_inv (reachable_handleConnection ord info trivial W₁ h)
  obtain ⟨fs', hrun, hread⟩ := rewriteAof_append F ord now config haof fs htemp
    (handleConnection F ord info now W₁ s₀).logged before.1
  refine ⟨_, fs', _, rewriteCommands_run F ord now before.1, hrun, fun hfits => ?_⟩
  obtain ⟨loaded, hload, hrelated⟩ :=
    replay_rewritten F hF ord ord' info' now hbefore (hread _) hfits
  exact ⟨loaded, hload, Dataset.related_moved hrelated _⟩

/-- One key set before the rewrite, and set again to the same value after it. -/
theorem replay_after_rewrite_string :
    let config := PersistenceConfig.withAof
    let set := commandValue "SET" [Str.utf8 "a", Str.utf8 "1"]
    let pm := (new config .empty).1
    let before := pm.serve bitText .sorted [] ⟨0, 0⟩ [set] Store.empty (new config .empty).2
    ∃ log fs' s', (rewriteCommands bitText .sorted).runAt ⟨0, 0⟩ before.1 = (.ok log, s') ∧
      (pm.rewriteAof bitText .sorted before.2).runAt ⟨0, 0⟩ before.1 =
        (.ok (log.length, fs'), s') ∧
      let after := pm.serve bitText .sorted [] ⟨0, 0⟩ [set] s' fs'
      ∃ loaded, (replay bitText .sorted [] after.2 config.aofFile).runAt ⟨0, 0⟩ Store.empty =
          (.ok log.length, loaded) ∧
        (Dataset.Related WithinSecond (after.1.live 0) (loaded.live 0) ↔
          Dataset.Related (fun d₂ d₁ => WithinSecond d₂ (rewrittenDeadline 0 d₁))
            (after.1.live 0) (before.1.live 0)) := by
  intro config set pm before
  obtain ⟨log, fs', s', hlog, hrun, hload⟩ := replay_after_rewrite bitText .sorted .sorted [] []
    ⟨0, 0⟩ bitText_roundTrips config rfl .empty rfl Store.empty Reachable.empty [set] [set]
  have hcommands : ((rewriteCommands bitText .sorted).runAt ⟨0, 0⟩ before.1).1 =
      .ok [commandValue "SET" [(Str.lit "a").bytes, Str.utf8 "1"]] := rfl
  obtain rfl : log = _ := Except.ok.inj ((congrArg Prod.fst hlog).symm.trans hcommands)
  refine ⟨_, fs', s', hlog, hrun, hload fun v hv => ?_⟩
  rw [List.mem_singleton.mp hv]
  exact (wire_commandValue "SET" _ (by decide) (by decide) (by decide)).1

/-- A key set after a rewrite is not there after a restart. -/
theorem write_lost_after_rewrite :
    let config := PersistenceConfig.withAof
    let set := fun key => commandValue "SET" [Str.utf8 key, Str.utf8 "1"]
    let pm := (new config .empty).1
    let before := pm.serve bitText .sorted [] ⟨0, 0⟩ [set "a"] Store.empty (new config .empty).2
    ∃ n fs' s', (pm.rewriteAof bitText .sorted before.2).runAt ⟨0, 0⟩ before.1 =
        (.ok (n, fs'), s') ∧
      let after := pm.serve bitText .sorted [] ⟨0, 0⟩ [set "b"] s' fs'
      ∃ loaded, (replay bitText .sorted [] after.2 config.aofFile).runAt ⟨0, 0⟩ Store.empty =
          (.ok n, loaded) ∧
        ¬ Dataset.Related WithinSecond (after.1.live 0) (loaded.live 0) := by
  intro config set pm before
  have hreach : Reachable bitText (fun _ => True) before.1 :=
    reachable_handleConnection .sorted [] trivial [set "a"] .empty
  obtain ⟨fs', hrun, hread⟩ := rewriteAof_append bitText .sorted ⟨0, 0⟩ config rfl .empty rfl
    [set "a"] before.1
  have hcommands : rewritten bitText .sorted ⟨0, 0⟩ (before.1.evicted 0) =
      [commandValue "SET" [(Str.lit "a").bytes, Str.utf8 "1"]] := rfl
  obtain ⟨loaded, hload, hrelated⟩ := replay_rewritten bitText bitText_roundTrips .sorted
    .sorted [] ⟨0, 0⟩ (reachable_inv hreach) (hread [set "b"]) (by
      rw [hcommands]
      intro v hv
      rw [List.mem_singleton.mp hv]
      exact (wire_commandValue "SET" _ (by decide) (by decide) (by decide)).1)
  refine ⟨_, fs', _, hrun, loaded, hload, fun h => ?_⟩
  -- The key is live in the server, was not at the rewrite, and so is not in the log.
  have hafter := (h.comp hrelated.symm) (Str.lit "b")
  have hnone : before.1.live 0 (Str.lit "b") = none := rfl
  rw [hnone] at hafter
  cases hafter

end Rewrite

end FireRedis
