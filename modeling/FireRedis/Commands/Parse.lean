import FireRedis.Base.Float64
import FireRedis.Resp.Value

/-!
# Commands and their arguments (commands/mod.rs)

`tryFrom` reads a command from an argument vector, as `Command::try_from` does.
Parsers of the same shape share one definition over the command they build.
-/

namespace FireRedis

inductive SetCondition where
  | none
  | nx
  | xx
  deriving DecidableEq

inductive Command where
  | ping
  | echo (msg : Bytes)
  | quit
  | info
  | get (key : Str)
  | set (key : Str) (value : Bytes) (px : Option UInt64) (condition : SetCondition)
  | del (keys : List Str)
  | «exists» (keys : List Str)
  | expire (key : Str) (ttlMs : UInt64)
  | ttl (key : Str)
  | pttl (key : Str)
  | incr (key : Str)
  | decr (key : Str)
  | mGet (keys : List Str)
  | mSet (entries : List (Str × Bytes))
  | append (key : Str) (value : Bytes)
  | strLen (key : Str)
  | type (key : Str)
  | keys (pattern : Str)
  | flushAll
  | lPush (key : Str) (vals : List Bytes)
  | rPush (key : Str) (vals : List Bytes)
  | lPop (key : Str)
  | rPop (key : Str)
  | lLen (key : Str)
  | lIndex (key : Str) (index : Int64)
  | lRange (key : Str) (start stop : Int64)
  | sAdd (key : Str) (members : List Bytes)
  | sRem (key : Str) (members : List Bytes)
  | sMembers (key : Str)
  | sIsMember (key : Str) (member : Bytes)
  | sCard (key : Str)
  | sPop (key : Str) (count : Option ℕ)
  | hSet (key : Str) (fields : List (Str × Bytes))
  | hGet (key field : Str)
  | hDel (key : Str) (fields : List Str)
  | hLen (key : Str)
  | hExists (key field : Str)
  | hKeys (key : Str)
  | hVals (key : Str)
  | hGetAll (key : Str)
  | zAdd (key : Str) (entries : List (F64 × Bytes))
  | zRange (key : Str) (start stop : Int64)
  | zRevRange (key : Str) (start stop : Int64)
  | zScore (key : Str) (member : Bytes)
  | zRem (key : Str) (members : List Bytes)
  | zCard (key : Str)
  | zCount (key : Str) (minScore maxScore : F64)

abbrev Parsed (α : Type) := Except Value α

def reject {α : Type} (text : String) : Parsed α := .error (.error (Str.lit text))

/-! ### Single arguments -/

def bulkToString : Value → Parsed Str
  | .bulkString (some b) => return Str.fromUtf8Lossy b
  | _ => reject "ERR value is not string"

def bulkToBytes : Value → Parsed Bytes
  | .bulkString (some b) => return b
  | _ => reject "ERR value is not string"

def bulkToU64 : Value → Parsed UInt64
  | .bulkString (some b) =>
    match Decimal.parseU64 (Str.fromUtf8Lossy b).bytes with
    | some n => return n
    | none => reject "ERR value is not integer"
  | .integer i => if 0 ≤ i then return i.toUInt64 else reject "ERR value is not integer"
  | _ => reject "ERR value is not integer"

def bulkToI64 : Value → Parsed Int64
  | .bulkString (some b) =>
    match Decimal.parseI64 (Str.fromUtf8Lossy b).bytes with
    | some n => return n
    | none => reject "ERR value is not integer"
  | .integer i => return i
  | _ => reject "ERR value is not integer"

def bulkToF64 (F : FloatText) : Value → Parsed F64
  | .bulkString (some b) =>
    match F.parse (Str.fromUtf8Lossy b) with
    | some x => return x
    | none => reject "ERR value is not float"
  | .integer i => return F64.ofI64 i
  | _ => reject "ERR value is not float"

/-! ### Shapes of argument vectors -/

abbrev ArgParser := List Value → Parsed Command

def wrongArity {α : Type} : Parsed α := reject "ERR wrong number of arguments"

def parseNullary (cmd : Command) : ArgParser
  | [_] => return cmd
  | _ => wrongArity

def parseKey (make : Str → Command) : ArgParser
  | [_, key] => return make (← bulkToString key)
  | _ => wrongArity

def parseKeyAnd {α : Type} (read : Value → Parsed α) (make : Str → α → Command) : ArgParser
  | [_, key, arg] => do
    let key ← bulkToString key
    return make key (← read arg)
  | _ => wrongArity

def parseKeyAndTwo {α : Type} (read : Value → Parsed α) (make : Str → α → α → Command) :
    ArgParser
  | [_, key, arg₁, arg₂] => do
    let key ← bulkToString key
    let arg₁ ← read arg₁
    return make key arg₁ (← read arg₂)
  | _ => wrongArity

def parseKeys (make : List Str → Command) : ArgParser
  | _ :: key :: keys => return make (← (key :: keys).mapM bulkToString)
  | _ => wrongArity

def parseKeyAndMany {α : Type} (read : Value → Parsed α) (make : Str → List α → Command) :
    ArgParser
  | _ :: key :: arg :: args => do
    let key ← bulkToString key
    return make key (← (arg :: args).mapM read)
  | _ => wrongArity

/-- The arguments two by two, as `chunks(2)` of an even number of them. -/
def readPairs {α β : Type} (read₁ : Value → Parsed α) (read₂ : Value → Parsed β) :
    List Value → Parsed (List (α × β))
  | arg₁ :: arg₂ :: args => do
    let a ← read₁ arg₁
    let b ← read₂ arg₂
    return (a, b) :: (← readPairs read₁ read₂ args)
  | _ => return []

def parseKeyAndPairs {α β : Type} (read₁ : Value → Parsed α) (read₂ : Value → Parsed β)
    (make : Str → List (α × β) → Command) : ArgParser
  | _ :: key :: args =>
    if args.length < 2 ∨ args.length % 2 ≠ 0 then wrongArity
    else do
      let key ← bulkToString key
      return make key (← readPairs read₁ read₂ args)
  | _ => wrongArity

/-! ### Parsers -/

def parseEcho : ArgParser
  | [_, .bulkString (some b)] => return .echo b
  | [_, _] => reject "ERR value is not string"
  | _ => wrongArity

def parseGet : ArgParser
  | [_, key] => return .get (← bulkToString key)
  | _ => reject "ERR wrong number of arguments for 'get'"

/-- The option loop of `parse_set`, with what it has found so far. -/
def parseSetOptions : List Value → Option UInt64 → SetCondition →
    Parsed (Option UInt64 × SetCondition)
  | [], px, condition => return (px, condition)
  | opt :: args, px, condition => do
    let opt := toAsciiUppercase (← bulkToString opt).bytes
    if opt = Str.utf8 "EX" ∨ opt = Str.utf8 "PX" then
      match args with
      | [] => reject "ERR syntax error"
      | arg :: args =>
        if px.isSome then reject "ERR syntax error"
        else
          let ttl ← bulkToU64 arg
          if opt = Str.utf8 "EX" then
            if ttl.toNat * 1000 < 2 ^ 64 then parseSetOptions args (some (ttl * 1000)) condition
            else reject "ERR invalid expire time in 'set' command"
          else parseSetOptions args (some ttl) condition
    else if opt = Str.utf8 "NX" then
      if condition ≠ .none then reject "ERR syntax error"
      else parseSetOptions args px .nx
    else if opt = Str.utf8 "XX" then
      if condition ≠ .none then reject "ERR syntax error"
      else parseSetOptions args px .xx
    else reject "ERR syntax error"

def parseSet : ArgParser
  | _ :: key :: val :: opts => do
    let key ← bulkToString key
    let val ← bulkToBytes val
    let (px, condition) ← parseSetOptions opts none .none
    return .set key val px condition
  | _ => reject "ERR wrong number of arguments for 'set'"

def parseDel : ArgParser := parseKeys .del
def parseExists : ArgParser := parseKeys .exists

-- The product wraps around in a release build.
def parseExpire : ArgParser
  | [_, key, secs] => do
    let key ← bulkToString key
    let ttlMs := (← bulkToU64 secs) * 1000
    return .expire key ttlMs
  | _ => wrongArity

def parseTtl : ArgParser := parseKey .ttl
def parsePttl : ArgParser := parseKey .pttl
def parseIncr : ArgParser := parseKey .incr
def parseDecr : ArgParser := parseKey .decr
def parseMget : ArgParser := parseKeys .mGet

def parseMset : ArgParser
  | _ :: args =>
    if args.length < 2 ∨ args.length % 2 ≠ 0 then wrongArity
    else return .mSet (← readPairs bulkToString bulkToBytes args)
  | [] => wrongArity

def parseAppend : ArgParser := parseKeyAnd bulkToBytes .append
def parseStrlen : ArgParser := parseKey .strLen
def parseType : ArgParser := parseKey .type
def parseKeysCmd : ArgParser := parseKey .keys
def parseFlushall : ArgParser := parseNullary .flushAll

def parseLPush : ArgParser := parseKeyAndMany bulkToBytes .lPush
def parseRPush : ArgParser := parseKeyAndMany bulkToBytes .rPush
def parseLPop : ArgParser := parseKey .lPop
def parseRPop : ArgParser := parseKey .rPop
def parseLLen : ArgParser := parseKey .lLen
def parseLIndex : ArgParser := parseKeyAnd bulkToI64 .lIndex
def parseLRange : ArgParser := parseKeyAndTwo bulkToI64 .lRange

def parseSAdd : ArgParser := parseKeyAndMany bulkToBytes .sAdd
def parseSRem : ArgParser := parseKeyAndMany bulkToBytes .sRem
def parseSMembers : ArgParser := parseKey .sMembers
def parseSIsMember : ArgParser := parseKeyAnd bulkToBytes .sIsMember
def parseSCard : ArgParser := parseKey .sCard

def parseSPop : ArgParser
  | [_, key] => return .sPop (← bulkToString key) none
  | [_, key, count] => do
    let key ← bulkToString key
    return .sPop key (some (← bulkToU64 count).toNat)
  | _ => wrongArity

def parseHSet : ArgParser := parseKeyAndPairs bulkToString bulkToBytes .hSet
def parseHGet : ArgParser := parseKeyAnd bulkToString .hGet
def parseHDel : ArgParser := parseKeyAndMany bulkToString .hDel
def parseHLen : ArgParser := parseKey .hLen
def parseHExists : ArgParser := parseKeyAnd bulkToString .hExists
def parseHKeys : ArgParser := parseKey .hKeys
def parseHVals : ArgParser := parseKey .hVals
def parseHGetAll : ArgParser := parseKey .hGetAll

def parseZAdd (F : FloatText) : ArgParser := parseKeyAndPairs (bulkToF64 F) bulkToBytes .zAdd
def parseZRange : ArgParser := parseKeyAndTwo bulkToI64 .zRange
def parseZRevRange : ArgParser := parseKeyAndTwo bulkToI64 .zRevRange
def parseZScore : ArgParser := parseKeyAnd bulkToBytes .zScore
def parseZRem : ArgParser := parseKeyAndMany bulkToBytes .zRem
def parseZCard : ArgParser := parseKey .zCard
def parseZCount (F : FloatText) : ArgParser := parseKeyAndTwo (bulkToF64 F) .zCount

/-! ### Names -/

def parsers (F : FloatText) : List (String × ArgParser) :=
  [("PING", fun _ => return .ping), ("ECHO", parseEcho), ("INFO", fun _ => return .info),
    ("GET", parseGet), ("SET", parseSet), ("DEL", parseDel), ("EXISTS", parseExists),
    ("EXPIRE", parseExpire), ("TTL", parseTtl), ("PTTL", parsePttl), ("INCR", parseIncr),
    ("DECR", parseDecr), ("MGET", parseMget), ("MSET", parseMset), ("APPEND", parseAppend),
    ("STRLEN", parseStrlen), ("TYPE", parseType), ("KEYS", parseKeysCmd),
    ("QUIT", fun _ => return .quit), ("FLUSHALL", parseFlushall), ("LPUSH", parseLPush),
    ("RPUSH", parseRPush), ("LPOP", parseLPop), ("RPOP", parseRPop), ("LLEN", parseLLen),
    ("LINDEX", parseLIndex), ("LRANGE", parseLRange), ("SADD", parseSAdd), ("SREM", parseSRem),
    ("SMEMBERS", parseSMembers), ("SISMEMBER", parseSIsMember), ("SCARD", parseSCard),
    ("SPOP", parseSPop), ("HSET", parseHSet), ("HGET", parseHGet), ("HDEL", parseHDel),
    ("HLEN", parseHLen), ("HEXISTS", parseHExists), ("HKEYS", parseHKeys),
    ("HVALS", parseHVals), ("HGETALL", parseHGetAll), ("ZADD", parseZAdd F),
    ("ZRANGE", parseZRange), ("ZREVRANGE", parseZRevRange), ("ZSCORE", parseZScore),
    ("ZREM", parseZRem), ("ZCARD", parseZCard), ("ZCOUNT", parseZCount F)]

def findParser (F : FloatText) (cmd : Bytes) : Option ArgParser :=
  ((parsers F).find? fun p => Str.utf8 p.1 = cmd).map Prod.snd

def tryFrom (F : FloatText) (args : List Value) : Parsed Command :=
  match args with
  | [] => reject "ERR empty command"
  | .bulkString (some b) :: _ =>
    match findParser F (toAsciiUppercase b) with
    | some parse => parse args
    | none => .error (.error (Str.lit "ERR unknown command '" ++
        Str.fromUtf8Lossy (toAsciiUppercase b) ++ Str.lit "'"))
  | _ => reject "ERR invalid command"

end FireRedis
