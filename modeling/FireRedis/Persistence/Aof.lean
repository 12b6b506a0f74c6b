import FireRedis.Base.Files
import FireRedis.Commands.Execute
import FireRedis.Resp.Parse

/-!
# The append-only file (persistence/aof.rs)

The writer appends encoded commands to the file it opened. Replay decodes the
file from the front and hands each command to execution, in any monad.
`rewriteAof` writes commands that denote the store to a temporary file and
renames it to the log.
-/

namespace FireRedis

/-! ### AofWriter -/

-- The fsync policy and the byte count are left out.
structure AofWriter where
  file : ℕ

namespace AofWriter

def new (path : PathBuf) (fs : FileSystem) : AofWriter × FileSystem :=
  let (file, fs) := fs.openAppend path
  (⟨file⟩, fs)

def append (w : AofWriter) (command : Value) (fs : FileSystem) : FileSystem :=
  fs.write w.file (encode command)

def appendAll (w : AofWriter) (commands : List Value) (fs : FileSystem) : FileSystem :=
  commands.foldl (fun fs command => w.append command fs) fs

theorem appendAll_eq (w : AofWriter) (commands : List Value) (fs : FileSystem) :
    w.appendAll commands fs = fs.write w.file (commands.flatMap encode) := by
  induction commands generalizing fs with
  | nil => simp [appendAll]
  | cons command commands ih =>
    show w.appendAll commands (w.append command fs) = _
    rw [ih, append, FileSystem.write_write, List.flatMap_cons]

theorem new_names (path : PathBuf) (fs : FileSystem) :
    (new path fs).2.names path = some (new path fs).1.file ∧
      (new path fs).2.contents (new path fs).1.file = (fs.read path).getD [] := by
  cases hn : fs.names path with
  | none => simp [new, FileSystem.openAppend, FileSystem.read, hn, FileSystem.make]
  | some i => simp [new, FileSystem.openAppend, FileSystem.read, hn]

/-- What is appended to a new or empty log is all that is in it. -/
theorem read_appendAll (path : PathBuf) {fs : FileSystem}
    (hempty : ∀ bytes, fs.read path = some bytes → bytes = []) (commands : List Value) :
    ((new path fs).1.appendAll commands (new path fs).2).read path =
      some (commands.flatMap encode) := by
  obtain ⟨hname, hfile⟩ := new_names path fs
  have hold : (fs.read path).getD [] = [] := by
    cases h : fs.read path with
    | none => rfl
    | some bytes => exact hempty bytes h
  rw [appendAll_eq, FileSystem.read, FileSystem.names_write, hname, Option.map_some,
    FileSystem.contents_write, if_pos rfl, hfile, hold]
  rfl

end AofWriter

/-! ### AofReplayer -/

section Replay

variable {m : Type → Type} [Monad m]

/-- The loop of `replay_with_metrics` over the bytes of the file (`fuel` bounds
it), with the commands counted so far; a panic of the decoder ends it. -/
def replayLoop (execute : Value → m Unit) : ℕ → Bytes → ℕ → m (Except Panic ℕ)
  | 0, _, commandCount => return .ok commandCount
  | fuel + 1, bytes, commandCount =>
    if bytes = [] then return .ok commandCount
    else
      match decode bytes with
      | (.ok (some value), rest) => do
        execute value
        replayLoop execute fuel rest (commandCount + 1)
      | (.ok none, _) => return .ok commandCount
      | (.error (.invalid _), _) => return .ok commandCount
      | (.error .capacityOverflow, _) => return .error .capacityOverflow

def replayBytes (execute : Value → m Unit) (bytes : Bytes) : m (Except Panic ℕ) :=
  replayLoop execute (bytes.length + 1) bytes 0

end Replay

/-- `AofReplayer::execute_command`. -/
def executeCommand (F : FloatText) (ord : IterOrder) (info : Bytes) : Value → StoreM Unit
  | .array (some args) =>
    match tryFrom F args with
    | .ok cmd => do
      let _ ← cmd.execute F ord info
    | .error _ => return ()
  | _ => return ()

/-- `AofReplayer::replay`: how many commands were executed. -/
def replay (F : FloatText) (ord : IterOrder) (info : Bytes) (fs : FileSystem) (path : PathBuf) :
    StoreM ℕ :=
  match fs.read path with
  | none => return 0
  | some bytes => do
    match ← replayBytes (executeCommand F ord info) bytes with
    | .ok commandCount => return commandCount
    | .error panic => .fault panic

/-! ### Rewrite -/

def bulk (b : Bytes) : Value := .bulkString (some b)

/-- A RESP array of bulk strings. -/
def commandValue (name : String) (args : List Bytes) : Value :=
  .array (some (bulk (Str.utf8 name) :: args.map bulk))

/-- The command that builds a value, if it holds anything. -/
def buildCommand (F : FloatText) (ord : IterOrder) (key : Str) : StoredValue → List Value
  | .string bytes => [commandValue "SET" [key.bytes, bytes]]
  | .list list => if list = [] then [] else [commandValue "RPUSH" (key.bytes :: list)]
  | .set set => if set.isEmpty then [] else [commandValue "SADD" (key.bytes :: ord.members set)]
  | .hash map =>
    if map.isEmpty then []
    else [commandValue "HSET"
      (key.bytes :: (ord.fields map).flatMap fun (field, value) => [field.bytes, value])]
  | .sortedSet z =>
    if z.scores.isEmpty then []
    else [commandValue "ZADD"
      (key.bytes :: (ord.scores z.scores).flatMap fun (member, score) =>
        [(F.toString score).bytes, member])]

/-- `(ms.div_ceil(1000)).max(1)`. -/
def ceilSeconds (ms : UInt64) : UInt64 := UInt64.ofNat (max ((ms.toNat + 999) / 1000) 1)

def valueToCommands (F : FloatText) (ord : IterOrder) (key : Str) (value : StoredValue)
    (ttlMs : Option UInt64) : List Value :=
  buildCommand F ord key value ++
    match ttlMs with
    | some ms => [commandValue "EXPIRE" [key.bytes, Decimal.displayU64 (ceilSeconds ms)]]
    | none => []

/-- The commands that `rewrite_aof` writes, in the order of the keys. -/
def rewriteCommands (F : FloatText) (ord : IterOrder) : StoreM (List Value) := do
  let keys ← Store.keys ord
  keys.foldlM (fun commands key => do
    match ← Store.getForRestore key with
    | some value =>
      let ttlMs ← Store.ttlMsForPersistence key
      return commands ++ valueToCommands F ord key value ttlMs
    | none => return commands) []

/-- `rewrite_aof`: the number of commands written, and the file system. -/
def rewriteAof (F : FloatText) (ord : IterOrder) (aofPath tempPath : PathBuf) (fs : FileSystem) :
    StoreM (ℕ × FileSystem) := do
  let (tempWriter, fs) := AofWriter.new tempPath fs
  let commands ← rewriteCommands F ord
  let fs := tempWriter.appendAll commands fs
  return (commands.length, fs.rename tempPath aofPath)

/-! ### What is logged -/

def readCommands : List String :=
  ["GET", "MGET", "EXISTS", "TTL", "PTTL", "TYPE", "KEYS", "SCAN", "LRANGE", "LLEN", "LINDEX",
    "SMEMBERS", "SCARD", "SISMEMBER", "SRANDMEMBER", "HGET", "HMGET", "HGETALL", "HKEYS",
    "HVALS", "HLEN", "HEXISTS", "ZRANGE", "ZREVRANGE", "ZRANGEBYSCORE", "ZREVRANGEBYSCORE",
    "ZCARD", "ZSCORE", "ZRANK", "ZREVRANK", "ZCOUNT", "PING", "ECHO", "INFO", "QUIT", "SELECT",
    "DBSIZE"]

def shouldLogToAof (commandName : Str) : Bool :=
  !readCommands.any fun r => Str.utf8 r = toAsciiUppercase commandName.bytes

end FireRedis
