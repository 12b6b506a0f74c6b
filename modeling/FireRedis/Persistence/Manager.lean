import FireRedis.Persistence.Reachable
import FireRedis.Server

/-!
# The persistence manager (persistence/manager.rs)

A manager opens the log when it is made and appends what it receives to the file
it opened. At startup it replays the log if there is one and loads the snapshot
otherwise. Its tasks run beside the requests: the AOF processor, the fsync policy
and shutdown are in Concurrency/Machine and Concurrency/Shutdown, the counter of
changes and the save conditions in Concurrency/Dirty and Keyspace/Autosave. The
statistics are left out.
-/

namespace FireRedis
open RdbDeserializer

structure PersistenceConfig where
  rdbEnabled : Bool
  rdbFile : PathBuf
  aofEnabled : Bool
  aofFile : PathBuf

namespace PersistenceConfig

def default : PersistenceConfig where
  rdbEnabled := true
  rdbFile := Str.utf8 "dump.rdb"
  aofEnabled := false
  aofFile := Str.utf8 "appendonly.aof"

def withAof : PersistenceConfig := { default with aofEnabled := true }

end PersistenceConfig

structure PersistenceManager where
  config : PersistenceConfig
  aofWriter : Option AofWriter

namespace PersistenceManager

def new (config : PersistenceConfig) (fs : FileSystem) : PersistenceManager × FileSystem :=
  if config.aofEnabled then
    let (writer, fs) := AofWriter.new config.aofFile fs
    (⟨config, some writer⟩, fs)
  else (⟨config, none⟩, fs)

/-- What `start_aof_processor` does with the commands it receives. -/
def append (pm : PersistenceManager) (commands : List Value) (fs : FileSystem) : FileSystem :=
  match pm.aofWriter with
  | some w => w.appendAll commands fs
  | none => fs

/-- The text in the `RedisError::Storage` that a file format error becomes. -/
def storageError (msg : Str) : Str := Str.lit "Invalid file format: " ++ msg

def loadOnStartup (pm : PersistenceManager) (F : FloatText) (ord : IterOrder) (info : Bytes)
    (fs : FileSystem) : StoreM (Except Str Unit) :=
  if pm.config.aofEnabled && fs.found pm.config.aofFile then do
    let _ ← replay F ord info fs pm.config.aofFile
    return .ok ()
  else if pm.config.rdbEnabled && fs.found pm.config.rdbFile then do
    match ← loadFromFile F fs pm.config.rdbFile with
    | .ok () => return .ok ()
    | .error msg => return .error (storageError msg)
  else return .ok ()

def tempPath (pm : PersistenceManager) : PathBuf := withExtension pm.config.aofFile "aof.tmp"

/-- `PersistenceManager::rewrite_aof`. The manager's writer stays what it was. -/
def rewriteAof (pm : PersistenceManager) (F : FloatText) (ord : IterOrder) (fs : FileSystem) :
    StoreM (ℕ × FileSystem) :=
  FireRedis.rewriteAof F ord pm.config.aofFile pm.tempPath fs

/-- Requests served one after the other, with their log appended. -/
def serve (pm : PersistenceManager) (F : FloatText) (ord : IterOrder) (info : Bytes)
    (now : Reading) (frames : List Value) (s : Store) (fs : FileSystem) : Store × FileSystem :=
  let served := handleConnection F ord info now frames s
  (served.store, pm.append served.logged fs)

/-! ### Opening and appending -/

theorem new_aof {config : PersistenceConfig} (haof : config.aofEnabled = true) (fs : FileSystem) :
    new config fs = (⟨config, some (AofWriter.new config.aofFile fs).1⟩,
      (AofWriter.new config.aofFile fs).2) := by
  rw [new, if_pos haof]

theorem names_append (pm : PersistenceManager) (commands : List Value) (fs : FileSystem)
    (path : PathBuf) : (pm.append commands fs).names path = fs.names path := by
  unfold append
  split
  · rw [AofWriter.appendAll_eq, FileSystem.names_write]
  · rfl

theorem next_append (pm : PersistenceManager) (commands : List Value) (fs : FileSystem) :
    (pm.append commands fs).next = fs.next := by
  unfold append
  split
  · rw [AofWriter.appendAll_eq]
    rfl
  · rfl

theorem tempPath_ne (pm : PersistenceManager) : pm.tempPath ≠ pm.config.aofFile :=
  withExtension_ne _ _ (by decide)

/-! ### Startup -/

variable (F : FloatText) (ord : IterOrder) (info : Bytes)

/-- A manager that uses the log never sees it missing: it was created with the
writer, and replaying it does nothing. -/
theorem loadOnStartup_created {config : PersistenceConfig} (haof : config.aofEnabled = true)
    {fs : FileSystem} (hmissing : fs.names config.aofFile = none) :
    (new config fs).1.loadOnStartup F ord info (new config fs).2 = pure (.ok ()) := by
  obtain ⟨hname, hempty⟩ := AofWriter.new_names config.aofFile fs
  have hnone : (fs.read config.aofFile).getD [] = [] := by
    rw [FileSystem.read, hmissing]
    rfl
  rw [hnone] at hempty
  have hfound : (config.aofEnabled &&
      (AofWriter.new config.aofFile fs).2.found config.aofFile) = true := by
    rw [haof, FileSystem.found, hname]
    rfl
  have hread : (AofWriter.new config.aofFile fs).2.read config.aofFile = some [] := by
    rw [FileSystem.read, hname, Option.map_some, hempty]
  have hreplay : replay F ord info (AofWriter.new config.aofFile fs).2 config.aofFile =
      pure 0 := by
    rw [replay, hread]
    rfl
  rw [new_aof haof, loadOnStartup, if_pos hfound, hreplay]
  rfl

theorem loadOnStartup_snapshot {pm : PersistenceManager} {fs : FileSystem}
    (haof : (pm.config.aofEnabled && fs.found pm.config.aofFile) = false)
    (hrdb : pm.config.rdbEnabled = true) {now : Reading} {loaded : Store}
    (hfound : fs.found pm.config.rdbFile = true)
    (hload : (loadFromFile F fs pm.config.rdbFile).runAt now Store.empty =
      (.ok (.ok ()), loaded)) :
    (pm.loadOnStartup F ord info fs).runAt now Store.empty = (.ok (.ok ()), loaded) := by
  have hrdb' : (pm.config.rdbEnabled && fs.found pm.config.rdbFile) = true := by
    rw [hrdb, hfound]
    rfl
  rw [loadOnStartup, haof, if_neg Bool.false_ne_true, if_pos hrdb', runAt_bind_ok now hload]
  rfl

end PersistenceManager

end FireRedis
