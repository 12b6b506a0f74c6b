import FireRedis.Persistence.Aof

/-!
# Connections (server.rs)

`handle_connection` takes the decoded frames one by one: it logs a write
request, executes it and replies. A panic ends the connection's task.
Tracing and the dirty counter are left out; what the metrics record is in `Metrics`.
-/

namespace FireRedis

/-- The command name that decides about logging: empty unless the first
argument is a bulk string. -/
def commandName : List Value → Str
  | .bulkString (some b) :: _ => Str.fromUtf8Lossy b
  | _ => Str.lit ""

/-- What the connection sends on the AOF channel for a frame. -/
def logEntry : Value → Option Value
  | .array (some args) =>
    if args ≠ [] ∧ (commandName args).bytes ≠ [] ∧ shouldLogToAof (commandName args) then
      some (.array (some args))
    else none
  | _ => none

def respond (F : FloatText) (ord : IterOrder) (info : Bytes) : Value → StoreM Value
  | .array (some []) => return .error (Str.lit "ERR empty command")
  | .array (some args) =>
    match tryFrom F args with
    | .ok cmd => cmd.execute F ord info
    | .error e => return e
  | _ => return .error (Str.lit "ERR invalid request format")

structure Served where
  logged : List Value
  replies : List Value
  store : Store

/-- The requests of one connection, in order, while the clocks stand still.
QUIT closes nothing: `is_quit_command` is constantly false. -/
def handleConnection (F : FloatText) (ord : IterOrder) (info : Bytes) (now : Reading) :
    List Value → Store → Served
  | [], s => ⟨[], [], s⟩
  | frame :: frames, s =>
    match (respond F ord info frame).runAt now s with
    | (.ok reply, s') =>
      let rest := handleConnection F ord info now frames s'
      ⟨(logEntry frame).toList ++ rest.logged, reply :: rest.replies, rest.store⟩
    | (.error _, s') => ⟨(logEntry frame).toList, [], s'⟩

/-- A request with the moment at which it is executed. -/
structure Turn where
  frame : Value
  ord : IterOrder
  info : Bytes
  now : Reading

def Turn.run (F : FloatText) (t : Turn) (s : Store) : Except Panic Value × Store :=
  (respond F t.ord t.info t.frame).runAt t.now s

/-- The store after requests on any connections, one after the other. -/
def runTurns (F : FloatText) (turns : List Turn) (s : Store) : Store :=
  turns.foldl (fun s t => (t.run F s).2) s

/-- What the requests put on the AOF channel. -/
def turnsLog (turns : List Turn) : List Value := turns.filterMap fun t => logEntry t.frame

end FireRedis
