import FireRedis.Persistence.Replay

/-!
# Appending to a log that was cut

A restart opens the log as it finds it and appends behind its last byte. The
next replay executes the commands before the cut and then decodes what the cut
left of a command together with what was appended. Only where the cut left
nothing, or nothing was appended, are these the commands that were sent.
-/

namespace FireRedis
open Incremental

/-- Opens the log and appends the commands. -/
def AofWriter.reopen (path : PathBuf) (commands : List Value) (fs : FileSystem) : FileSystem :=
  let (writer, fs) := AofWriter.new path fs
  writer.appendAll commands fs

theorem AofWriter.read_reopen {path : PathBuf} {fs : FileSystem} {bytes : Bytes}
    (hfile : fs.read path = some bytes) (commands : List Value) :
    (AofWriter.reopen path commands fs).read path = some (bytes ++ commands.flatMap encode) := by
  obtain ⟨hname, hcontents⟩ := AofWriter.new_names path fs
  rw [hfile, Option.getD_some] at hcontents
  show ((AofWriter.new path fs).1.appendAll commands (AofWriter.new path fs).2).read path = _
  rw [AofWriter.appendAll_eq, FileSystem.read, FileSystem.names_write, hname, Option.map_some,
    FileSystem.contents_write, if_pos rfl, hcontents]

section Replay

variable {m : Type → Type} [Monad m] [LawfulMonad m] (execute : Value → m Unit)

theorem replayOutcome_add (n k : ℕ) (stop : Stop UInt8 RespFault) :
    replayOutcome (n + k) stop = (replayOutcome k stop).map (n + ·) := by
  rcases stop with rest | (msg | _) <;> rfl

theorem replayBytes_append (log : List Value) (hlog : ∀ v ∈ log, v.Wire) (rest : Bytes) :
    replayBytes execute (log.flatMap encode ++ rest) = do
      forM log execute
      return (← replayBytes execute rest).map (log.length + ·) := by
  rw [replayBytes_eq, replayBytes_eq, drain_encoded decode_lawful (by omega) inverts_wire log hlog]
  simp only [List.length_append, replayOutcome_add, List.forM_append, bind_assoc, pure_bind]

theorem replayBytes_torn (log : List Value) (hlog : ∀ v ∈ log, v.Wire) (n : ℕ)
    (further : List Value) :
    replayBytes execute ((log.flatMap encode).take n ++ further.flatMap encode) = do
      forM (log.take (wholeWithin encode log n)) execute
      return (← replayBytes execute (torn encode log n ++ further.flatMap encode)).map
        (wholeWithin encode log n + ·) := by
  have hwhole : ∀ v ∈ log.take (wholeWithin encode log n), v.Wire := fun v hv =>
    hlog v (List.mem_of_mem_take hv)
  rw [← whole_append_torn, List.append_assoc, replayBytes_append execute _ hwhole,
    List.length_take_of_le (wholeWithin_le encode log n)]

/-- Where nothing is torn, or nothing is appended, what was appended is executed. -/
theorem replayBytes_further (log : List Value) (hlog : ∀ v ∈ log, v.Wire) (n : ℕ)
    (further : List Value) (hfurther : ∀ v ∈ further, v.Wire)
    (h : torn encode log n = [] ∨ further = []) :
    replayBytes execute (torn encode log n ++ further.flatMap encode) = do
      forM further execute
      return .ok further.length := by
  rcases h with h | rfl
  · rw [h, List.nil_append, replayBytes_whole execute further hfurther]
  · obtain ⟨rest, hrest⟩ := drain_torn decode_lawful (by omega) inverts_wire log hlog n decode_nil
    rw [List.flatMap_nil, List.append_nil, replayBytes_eq, hrest]
    rfl

end Replay

/-- After a restart on a cut log, the commands before the cut are executed, then
what the torn bytes and the appended commands spell. -/
theorem replay_after_torn (F : FloatText) (ord : IterOrder) (info : Bytes) (path : PathBuf)
    (fs : FileSystem) (log further : List Value) (n : ℕ) (hlog : ∀ v ∈ log, v.Wire)
    (hfurther : ∀ v ∈ further, v.Wire)
    (hfile : fs.read path = some ((log.flatMap encode).take n)) :
    ∃ file, (AofWriter.reopen path further fs).read path = some file ∧
      let c := wholeWithin encode log n
      let rest := torn encode log n
      (∀ (m : Type → Type) [Monad m] [LawfulMonad m] (execute : Value → m Unit),
        replayBytes execute file = do
          forM (log.take c) execute
          return (← replayBytes execute (rest ++ further.flatMap encode)).map (c + ·)) ∧
      (rest = [] ∨ further = [] →
        (∀ (m : Type → Type) [Monad m] [LawfulMonad m] (execute : Value → m Unit),
          replayBytes execute file = do
            forM (log.take c ++ further) execute
            return .ok (c + further.length)) ∧
        replay F ord info (AofWriter.reopen path further fs) path = do
          forM (log.take c ++ further) (executeCommand F ord info)
          return c + further.length) := by
  refine ⟨_, AofWriter.read_reopen hfile further, fun m _ _ execute =>
    replayBytes_torn execute log hlog n further, fun h => ?_⟩
  have hbytes : ∀ (m : Type → Type) [Monad m] [LawfulMonad m] (execute : Value → m Unit),
      replayBytes execute ((log.flatMap encode).take n ++ further.flatMap encode) = do
        forM (log.take (wholeWithin encode log n) ++ further) execute
        return .ok (wholeWithin encode log n + further.length) := by
    intro m _ _ execute
    rw [replayBytes_torn execute log hlog,
      replayBytes_further execute log hlog n further hfurther h]
    simp only [List.forM_append, bind_assoc, pure_bind]
    rfl
  refine ⟨hbytes, ?_⟩
  rw [replay, AofWriter.read_reopen hfile further]
  simp only [hbytes, bind_assoc, pure_bind]

/-! ### A SET behind half a SET -/

namespace Torn

def aofPath : PathBuf := Str.utf8 "a.aof"

def set (key : String) : Value := commandValue "SET" [Str.utf8 key, Str.utf8 "1"]

theorem wire_set (key : String) (h : (Str.utf8 key).length ≤ 9) : ∀ v ∈ [set key], v.Wire := by
  intro v hv
  rw [List.mem_singleton.mp hv]
  have hlen : (2 + 1) * sizeOfValue ≤ isizeMax := by decide
  refine wire_commandValue "SET" [Str.utf8 key, Str.utf8 "1"] (by decide) hlen fun b hb => ?_
  rcases List.mem_cons.mp hb with rfl | hb
  · exact h.trans (by decide)
  · rw [List.mem_singleton.mp hb]
    decide

/-- A log of the commands, cut after `n` bytes. -/
def cutLog (commands : List Value) (n : ℕ) : FileSystem :=
  let created := FileSystem.empty.create aofPath
  created.2.write created.1 ((commands.flatMap encode).take n)

end Torn

open Torn

/-- A log of two commands, cut between them and appended to, and cut inside the
second. -/
theorem replay_after_torn_whole :
    let log := [Torn.set "a", Torn.set "c"]
    (replay noFloats .sorted [] (AofWriter.reopen Torn.aofPath [Torn.set "b"] (cutLog log 27))
        Torn.aofPath = do
      forM [Torn.set "a", Torn.set "b"] (executeCommand noFloats .sorted [])
      return 2) ∧
    torn encode log 40 ≠ [] ∧
    replay noFloats .sorted [] (AofWriter.reopen Torn.aofPath [] (cutLog log 40)) Torn.aofPath = do
      forM [Torn.set "a"] (executeCommand noFloats .sorted [])
      return 1 := by
  intro log
  have hwire : ∀ v ∈ log, v.Wire := by
    intro v hv
    rcases List.mem_cons.mp hv with rfl | hv
    · exact wire_set "a" (by decide) _ (List.mem_singleton_self _)
    · exact wire_set "c" (by decide) v hv
  have hcount : wholeWithin encode log 27 = 1 ∧ wholeWithin encode log 40 = 1 := by decide
  have hrest : torn encode log 27 = [] := by decide
  obtain ⟨_, -, -, hbetween⟩ := replay_after_torn noFloats .sorted [] Torn.aofPath (cutLog log 27)
    log [Torn.set "b"] 27 hwire (wire_set "b" (by decide)) rfl
  obtain ⟨_, -, -, hinside⟩ := replay_after_torn noFloats .sorted [] Torn.aofPath (cutLog log 40)
    log [] 40 hwire (fun v hv => absurd hv List.not_mem_nil) rfl
  have hreplay := (hbetween (Or.inl hrest)).2
  have hcut := (hinside (Or.inr rfl)).2
  rw [hcount.1] at hreplay
  rw [hcount.2] at hcut
  exact ⟨hreplay, by decide, hcut⟩

/-- Cut before the value of a SET, the log takes the start of the next SET for
that value, finds no CR LF behind it and ends there. -/
theorem appended_not_replayed : ¬ ∀ (F : FloatText) (ord : IterOrder) (info : Bytes)
    (path : PathBuf) (fs : FileSystem) (log further : List Value) (n : ℕ),
    (∀ v ∈ log, v.Wire) → (∀ v ∈ further, v.Wire) →
    fs.read path = some ((log.flatMap encode).take n) →
    replay F ord info (AofWriter.reopen path further fs) path = do
      forM (log.take (wholeWithin encode log n) ++ further) (executeCommand F ord info)
      return wholeWithin encode log n + further.length := by
  intro h
  have hall := h noFloats .sorted [] Torn.aofPath (cutLog [Torn.set "a"] 24) [Torn.set "a"]
    [Torn.set "b"] 24
    (wire_set "a" (by decide)) (wire_set "b" (by decide)) rfl
  have hrun := congrArg (fun prog => (prog.runAt ⟨0, 0⟩ Store.empty).1) hall
  have hreplayed : ((replay noFloats .sorted [] (AofWriter.reopen Torn.aofPath [Torn.set "b"]
      (cutLog [Torn.set "a"] 24)) Torn.aofPath).runAt ⟨0, 0⟩ Store.empty).1 = .ok 0 := rfl
  cases hreplayed.symm.trans hrun

end FireRedis
