import FireRedis.Commands.Parse
import FireRedis.Store.Collections

/-!
# Command handlers (commands/data.rs, commands/conn.rs)

Every handler is a program over the store that ends with the reply. `withType`
is the `ensure_type` guard in front of a handler's body.
-/

namespace FireRedis

def bulkOrNull : Option Bytes → Value
  | some v => .bulkString (some v)
  | none => .bulkString none

def bulkArray (items : List Bytes) : Value :=
  .array (some (items.map fun b => .bulkString (some b)))

def intBool (value : Bool) : Value := .integer (if value then 1 else 0)

/-- `n as i64`. -/
def count (n : ℕ) : Value := .integer (Int64.ofNat n)

def wrongType : Value :=
  .error (Str.lit "WRONGTYPE Operation against a key holding the wrong kind of value")

def ok : Value := .simpleString (Str.lit "OK")

def ensureType (key expected : Str) : StoreM (Option Value) := do
  match ← Store.typeOf key with
  | some actual => return if actual ≠ expected then some wrongType else none
  | none => return none

def withType (key : Str) (expected : String) (body : StoreM Value) : StoreM Value := do
  match ← ensureType key (Str.lit expected) with
  | some err => return err
  | none => body

/-! ### Connection -/

def handlePing : Value := .simpleString (Str.lit "PONG")

def handleEcho (msg : Bytes) : Value := .bulkString (some msg)

def handleQuit : Value := ok

def handleInfo (info : Bytes) : Value := .bulkString (some info)

/-! ### Lists -/

def handleLPush (key : Str) (vals : List Bytes) : StoreM Value :=
  withType key "list" do
    if vals.isEmpty then
      return .integer 0
    else
      let len ← vals.reverse.foldlM (fun _ val => Store.lPush key val) 0
      return count len

def handleRPush (key : Str) (vals : List Bytes) : StoreM Value :=
  withType key "list" do
    if vals.isEmpty then
      return .integer 0
    else
      let len ← vals.foldlM (fun _ val => Store.rPush key val) 0
      return count len

def handleLPop (key : Str) : StoreM Value :=
  withType key "list" do return bulkOrNull (← Store.lPop key)

def handleRPop (key : Str) : StoreM Value :=
  withType key "list" do return bulkOrNull (← Store.rPop key)

def handleLLen (key : Str) : StoreM Value :=
  withType key "list" do return count (← Store.lLen key)

def handleLIndex (key : Str) (index : Int64) : StoreM Value :=
  withType key "list" do return bulkOrNull (← Store.lIndex key index)

def handleLRange (key : Str) (start stop : Int64) : StoreM Value :=
  withType key "list" do return bulkArray (← Store.lRange key start stop)

/-! ### Strings and keys -/

def handleGet (key : Str) : StoreM Value :=
  withType key "string" do return bulkOrNull (← Store.get key)

def handleSet (key : Str) (value : Bytes) (expire : Option UInt64) (condition : SetCondition) :
    StoreM Value := do
  let present ← Store.existsKey key
  if condition = .nx ∧ present then
    return .null
  else if condition = .xx ∧ !present then
    return .null
  else
    Store.set key value expire
    return ok

def handleAppend (key : Str) (value : Bytes) : StoreM Value :=
  withType key "string" do return count (← Store.append key value)

def handleStrlen (key : Str) : StoreM Value :=
  withType key "string" do return count (← Store.strlen key)

def handleType (key : Str) : StoreM Value := do
  return .simpleString ((← Store.typeOf key).getD (Str.lit "none"))

def handleKeys (ord : IterOrder) (pattern : Str) : StoreM Value := do
  if pattern ≠ Str.lit "*" then
    return .error (Str.lit "ERR only '*' pattern is currently supported")
  else
    let keys := (← Store.keys ord).mergeSort fun a b => (compare a b).isLE
    return bulkArray (keys.map Str.bytes)

def handleFlushall : StoreM Value := do
  Store.flushAll
  return ok

def handleExpire (key : Str) (expire : UInt64) : StoreM Value := do
  return if ← Store.expire key expire then .integer 1 else .integer 0

def handleTtl (key : Str) : StoreM Value := do return .integer (← Store.ttl key)

def handlePttl (key : Str) : StoreM Value := do return .integer (← Store.pttl key)

def counterReply : Except Str Int64 → Value
  | .ok v => .integer v
  | .error e => .error e

def handleIncr (key : Str) : StoreM Value := do return counterReply (← Store.incr key)

def handleDecr (key : Str) : StoreM Value := do return counterReply (← Store.decr key)

def handleMget (keys : List Str) : StoreM Value := do
  let items ← keys.mapM fun key => return bulkOrNull (← Store.get key)
  return .array (some items)

def handleMset (entries : List (Str × Bytes)) : StoreM Value := do
  entries.foldlM (fun _ entry => Store.set entry.1 entry.2 none) ()
  return ok

def handleExists (keys : List Str) : StoreM Value := do
  let n ← keys.foldlM (fun n key => return if ← Store.existsKey key then n + 1 else n) 0
  return count n

def handleDel (keys : List Str) : StoreM Value := do return count (← Store.del keys)

/-! ### Sets -/

def handleSAdd (key : Str) (members : List Bytes) : StoreM Value :=
  withType key "set" do return count (← Store.sAdd key members)

def handleSRem (key : Str) (members : List Bytes) : StoreM Value :=
  withType key "set" do return count (← Store.sRem key members)

def handleSMembers (ord : IterOrder) (key : Str) : StoreM Value :=
  withType key "set" do
    let members := (← Store.sMembers ord key).mergeSort fun a b => (compare a b).isLE
    return bulkArray members

def handleSIsMember (key : Str) (member : Bytes) : StoreM Value :=
  withType key "set" do return intBool (← Store.sIsMember key member)

def handleSCard (key : Str) : StoreM Value :=
  withType key "set" do return count (← Store.sCard key)

def handleSPop (ord : IterOrder) (key : Str) (n : Option ℕ) : StoreM Value :=
  withType key "set" do
    match n with
    | some c => return bulkArray (← Store.sPop ord key c)
    | none => return bulkOrNull (← Store.sPop ord key 1).getLast?

/-! ### Hashes -/

def handleHSet (key : Str) (fields : List (Str × Bytes)) : StoreM Value :=
  withType key "hash" do
    let added ← fields.foldlM
      (fun added entry => return if ← Store.hSet key entry.1 entry.2 then added + 1 else added) 0
    return .integer added

def handleHGet (key field : Str) : StoreM Value :=
  withType key "hash" do return bulkOrNull (← Store.hGet key field)

def handleHDel (key : Str) (fields : List Str) : StoreM Value :=
  withType key "hash" do return count (← Store.hDel key fields)

def handleHLen (key : Str) : StoreM Value :=
  withType key "hash" do return count (← Store.hLen key)

def handleHExists (key field : Str) : StoreM Value :=
  withType key "hash" do return intBool (← Store.hExists key field)

def handleHKeys (ord : IterOrder) (key : Str) : StoreM Value :=
  withType key "hash" do return bulkArray ((← Store.hKeys ord key).map Str.bytes)

def handleHVals (ord : IterOrder) (key : Str) : StoreM Value :=
  withType key "hash" do return bulkArray (← Store.hVals ord key)

def handleHGetAll (ord : IterOrder) (key : Str) : StoreM Value :=
  withType key "hash" do
    let pairs := (← Store.hGetAll ord key).mergeSort fun a b => (compare a.1 b.1).isLE
    return bulkArray (pairs.flatMap fun p => [p.1.bytes, p.2])

/-! ### Sorted sets -/

def handleZAdd (key : Str) (entries : List (F64 × Bytes)) : StoreM Value :=
  withType key "zset" do
    let changed ← entries.foldlM
      (fun changed entry =>
        return if ← Store.zAdd key entry.1 entry.2 then changed + 1 else changed) 0
    return .integer changed

def handleZRange (ord : IterOrder) (key : Str) (start stop : Int64) : StoreM Value :=
  withType key "zset" do return bulkArray ((← Store.zRange ord key start stop).map Prod.fst)

def handleZRevRange (ord : IterOrder) (key : Str) (start stop : Int64) : StoreM Value :=
  withType key "zset" do return bulkArray ((← Store.zRevRange ord key start stop).map Prod.fst)

def handleZScore (F : FloatText) (key : Str) (member : Bytes) : StoreM Value :=
  withType key "zset" do
    return bulkOrNull ((← Store.zScore key member).map fun score => (F.toString score).bytes)

def handleZRem (key : Str) (members : List Bytes) : StoreM Value :=
  withType key "zset" do return count (← Store.zRem key members)

def handleZCard (key : Str) : StoreM Value :=
  withType key "zset" do return count (← Store.zCard key)

def handleZCount (key : Str) (minScore maxScore : F64) : StoreM Value :=
  withType key "zset" do return count (← Store.zCount key minScore maxScore)

/-! ### Dispatch -/

/-- `Command::execute`; `info` is the text of the metrics. -/
def Command.execute (F : FloatText) (ord : IterOrder) (info : Bytes) : Command → StoreM Value
  | .ping => return handlePing
  | .echo msg => return handleEcho msg
  | .quit => return handleQuit
  | .info => return handleInfo info
  | .get k => handleGet k
  | .set k v px condition => handleSet k v px condition
  | .del ks => handleDel ks
  | .exists ks => handleExists ks
  | .expire k ms => handleExpire k ms
  | .ttl k => handleTtl k
  | .pttl k => handlePttl k
  | .incr k => handleIncr k
  | .decr k => handleDecr k
  | .mGet ks => handleMget ks
  | .mSet entries => handleMset entries
  | .append k v => handleAppend k v
  | .strLen k => handleStrlen k
  | .type k => handleType k
  | .keys pattern => handleKeys ord pattern
  | .flushAll => handleFlushall
  | .lPush k vals => handleLPush k vals
  | .rPush k vals => handleRPush k vals
  | .lPop k => handleLPop k
  | .rPop k => handleRPop k
  | .lLen k => handleLLen k
  | .lIndex k idx => handleLIndex k idx
  | .lRange k start stop => handleLRange k start stop
  | .sAdd k members => handleSAdd k members
  | .sRem k members => handleSRem k members
  | .sMembers k => handleSMembers ord k
  | .sIsMember k member => handleSIsMember k member
  | .sCard k => handleSCard k
  | .sPop k n => handleSPop ord k n
  | .hSet k fields => handleHSet k fields
  | .hGet k field => handleHGet k field
  | .hDel k fields => handleHDel k fields
  | .hLen k => handleHLen k
  | .hExists k field => handleHExists k field
  | .hKeys k => handleHKeys ord k
  | .hVals k => handleHVals ord k
  | .hGetAll k => handleHGetAll ord k
  | .zAdd k entries => handleZAdd k entries
  | .zRange k start stop => handleZRange ord k start stop
  | .zRevRange k start stop => handleZRevRange ord k start stop
  | .zScore k member => handleZScore F k member
  | .zRem k members => handleZRem k members
  | .zCard k => handleZCard k
  | .zCount k minScore maxScore => handleZCount k minScore maxScore

end FireRedis
