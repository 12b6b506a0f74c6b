import FireRedis.Base.Files
import FireRedis.Base.Reader
import FireRedis.Base.Words
import FireRedis.Store.Collections

/-!
# The snapshot file (persistence/rdb.rs)

The serializer writes a header, one record for each key and a trailer to a
temporary file, which it renames. The deserializer reads the file into a buffer
and goes through it one opcode at a time: `loadStep` reads a record and says
what becomes of it, `loadLoop` acts on the store.
-/

namespace FireRedis
open Std

abbrev rdbMagic : Bytes := Str.utf8 "REDIS"
abbrev rdbVersion : Bytes := Str.utf8 "0011"

abbrev opEof : UInt8 := 0xFF
abbrev opSelectDb : UInt8 := 0xFE
abbrev opExpireTimeMs : UInt8 := 0xFC
abbrev opExpireTime : UInt8 := 0xFD
abbrev opResizeDb : UInt8 := 0xFB
abbrev opAux : UInt8 := 0xFA

abbrev typeString : UInt8 := 0
abbrev typeList : UInt8 := 1
abbrev typeSet : UInt8 := 2
abbrev typeZset : UInt8 := 3
abbrev typeHash : UInt8 := 4

/-! ### RdbSerializer -/

namespace RdbSerializer

def writeLength (len : UInt64) : Bytes :=
  if len < 64 then [len.toUInt8]
  else if len < 16384 then (toBeBytes ((1 : UInt64) <<< 14 ||| len)).drop 6
  else 0x80 :: toBeBytes len

/-- `write_string` and `write_bytes`. -/
def writeBytes (bytes : Bytes) : Bytes := writeLength (UInt64.ofNat bytes.length) ++ bytes

def writeAux (key value : Bytes) : Bytes := opAux :: writeBytes key ++ writeBytes value

def valueType : StoredValue → UInt8
  | .string _ => typeString
  | .list _ => typeList
  | .set _ => typeSet
  | .hash _ => typeHash
  | .sortedSet _ => typeZset

/-- The count of a collection and its items. -/
def writeItems {α : Type} (count : ℕ) (write : α → Bytes) (items : List α) : Bytes :=
  writeLength (UInt64.ofNat count) ++ items.flatMap write

def writeField (e : Str × Bytes) : Bytes := writeBytes e.1.bytes ++ writeBytes e.2

def writeScore (F : FloatText) (e : Bytes × F64) : Bytes :=
  writeBytes (F.toString e.2).bytes ++ writeBytes e.1

def writeValue (F : FloatText) (ord : IterOrder) : StoredValue → Bytes
  | .string s => writeBytes s
  | .list list => writeItems list.length writeBytes list
  | .set set => writeItems set.size writeBytes (ord.members set)
  | .hash map => writeItems map.size writeField (ord.fields map)
  | .sortedSet z => writeItems z.scores.size (writeScore F) (ord.scores z.scores)

def writeExpiry : Option UInt64 → Bytes
  | some expireAtMs => opExpireTimeMs :: toLeBytes expireAtMs
  | none => []

/-- A key with its value and, in Unix milliseconds, its deadline. -/
structure Record where
  key : Str
  value : StoredValue
  expireAtMs : Option UInt64

def writeRecord (F : FloatText) (ord : IterOrder) (r : Record) : Bytes :=
  writeExpiry r.expireAtMs ++ valueType r.value :: writeBytes r.key.bytes ++
    writeValue F ord r.value

/-- Everything before the number of keys. -/
def header (ctime : UInt64) : Bytes :=
  rdbMagic ++ rdbVersion ++ writeAux (Str.utf8 "redis-ver") (Str.utf8 "7.0.0") ++
    writeAux (Str.utf8 "redis-bits") (Str.utf8 "64") ++
    writeAux (Str.utf8 "ctime") (Decimal.displayU64 ctime) ++ opSelectDb :: writeLength 0

def resize (keys expiring : ℕ) : Bytes :=
  opResizeDb :: writeLength (UInt64.ofNat keys) ++ writeLength (UInt64.ofNat expiring)

def trailer : Bytes := opEof :: List.replicate 8 0

/-- The record written for a key of the snapshot, none if it has expired. -/
def record (expirations : ExtTreeMap Str Instant) (key : Str) (value : StoredValue) :
    StoreM (Option Record) := do
  match expirations[key]? with
  | some expireAt =>
    let now ← instantNow
    if expireAt ≤ now then
      return none
    let ttlMs := UInt64.ofNat (asMillis (expireAt - now))
    return some ⟨key, value, some ((← unixNow) + ttlMs)⟩
  | none => return some ⟨key, value, none⟩

/-- What `save_to_file` writes. -/
def save (F : FloatText) (ord : IterOrder) : StoreM Bytes := do
  let head := header ((← unixNow) / 1000)
  let (data, expirations) ← Store.snapshot
  let records ← (ord.data data).mapM fun (key, value) => record expirations key value
  return head ++ resize data.size expirations.size ++
    (records.filterMap id).flatMap (writeRecord F ord) ++ trailer

def saveToFile (F : FloatText) (ord : IterOrder) (path : PathBuf) (fs : FileSystem) :
    StoreM FileSystem := do
  let tempPath := withExtension path "tmp"
  let (file, fs) := fs.create tempPath
  let bytes ← save F ord
  return (fs.write file bytes).rename tempPath path

end RdbSerializer

/-! ### RdbDeserializer -/

/-- `PersistenceError::InvalidFormat`, or a panic. -/
inductive LoadFault where
  | invalidFormat (msg : Str)
  | panic (p : Panic)

namespace RdbDeserializer

def invalid (msg : String) : LoadFault := .invalidFormat (Str.lit msg)

def readLength : Reader LoadFault UInt64 := do
  let first ← Reader.byteOr (invalid "Unexpected end of file")
  let encType := (first &&& 0xC0) >>> 6
  if encType = 0 then
    return first.toUInt64 &&& 0x3F
  else if encType = 1 then
    let second ← Reader.byteOr (invalid "Truncated length")
    return (first.toUInt64 &&& 0x3F) <<< 8 ||| second.toUInt64
  else if encType = 2 then
    return fromBeBytes (← Reader.takeOr 8 (invalid "Truncated length"))
  else
    Reader.fail (invalid "Invalid length encoding")

/-- The slice after a length; if `pos + len` overflows `usize`, the addition or
the slice panics. -/
def slice (len : ℕ) : Reader LoadFault Bytes := fun buf pos =>
  if pos + len ≥ 2 ^ 64 then .error (.panic .rangeOutOfBounds)
  else Reader.takeOr len (invalid "Truncated string") buf pos

def readStringBytes : Reader LoadFault Bytes := do
  let len ← readLength
  slice len.toNat

/-- `Vec::with_capacity` and its kin, for an allocation of so many bytes. -/
def allocate (bytes : ℕ) : Reader LoadFault Unit :=
  if bytes > isizeMax then Reader.fail (.panic .capacityOverflow) else return ()

/-- The buckets, control bytes, trailing group and alignment of a hash table. -/
def hashTableBytes (entrySize capacity : ℕ) : ℕ :=
  let buckets :=
    if capacity < 4 then 4
    else if capacity < 8 then 8
    else if capacity < 15 then 16
    else (capacity * 8 / 7).nextPowerOfTwo
  buckets * entrySize + buckets + 16 + 15

def sizeOfBytes : ℕ := 32
def sizeOfString : ℕ := 24
def sizeOfF64 : ℕ := 8

/-- A count, the allocation for so many items, and the items. -/
def readItems {α : Type} (bytes : ℕ → ℕ) (item : Reader LoadFault α) :
    Reader LoadFault (List α) := do
  let len ← readLength
  allocate (bytes len.toNat)
  Reader.many item len.toNat

def readField : Reader LoadFault (Str × Bytes) := do
  let k ← readStringBytes
  let v ← readStringBytes
  return (Str.fromUtf8Lossy k, v)

def readScore (F : FloatText) : Reader LoadFault (Bytes × F64) := do
  let scoreBytes ← readStringBytes
  match F.parse (Str.fromUtf8Lossy scoreBytes) with
  | some score =>
    let member ← readStringBytes
    return (member, score)
  | none => Reader.fail (invalid "Invalid score")

def insertScore (z : SortedSet) (e : Bytes × F64) : SortedSet where
  scores := z.scores.insert e.1 e.2
  tree := Store.linkMember e.1 e.2 z.tree

def readValue (F : FloatText) (valueType : UInt8) : Reader LoadFault StoredValue :=
  if valueType = typeString then do
    return .string (← readStringBytes)
  else if valueType = typeList then do
    return .list (← readItems (· * sizeOfBytes) readStringBytes)
  else if valueType = typeSet then do
    let items ← readItems (hashTableBytes sizeOfBytes) readStringBytes
    return .set (items.foldl (fun set item => set.insert item) ∅)
  else if valueType = typeHash then do
    let items ← readItems (hashTableBytes (sizeOfString + sizeOfBytes)) readField
    return .hash (items.foldl (fun map e => map.insert e.1 e.2) ∅)
  else if valueType = typeZset then do
    let items ← readItems (hashTableBytes (sizeOfBytes + sizeOfF64)) (readScore F)
    return .sortedSet (items.foldl insertScore ⟨∅, ∅⟩)
  else
    Reader.fail (.invalidFormat
      (Str.lit "Unknown value type: " ++ Str.fromUtf8Lossy (Decimal.decimal valueType.toNat)))

/-- What an opcode and what follows it make the loader do. -/
inductive LoadStep where
  | eof
  | skip
  | restore (key : Str) (value : StoredValue)
  | setWithTtl (key : Str) (value : StoredValue) (ttlMs : UInt64)

def LoadStep.act : LoadStep → StoreM Unit
  | .restore key value => Store.restore key value
  | .setWithTtl key value ttlMs => Store.setWithTtl key value ttlMs
  | _ => return ()

def readEntry (F : FloatText) (valueType : UInt8) : Reader LoadFault (Str × StoredValue) := do
  let keyBytes ← readStringBytes
  let value ← readValue F valueType
  return (Str.fromUtf8Lossy keyBytes, value)

/-- A record behind an expiration time. -/
def readExpiring (F : FloatText) (currentTime expireMs : UInt64) :
    Reader LoadFault LoadStep := do
  let valueType ← Reader.byteOr (.panic .indexOutOfBounds)
  let (key, value) ← readEntry F valueType
  return if expireMs > currentTime then .setWithTtl key value (expireMs - currentTime) else .skip

def loadOpcode (F : FloatText) (currentTime : UInt64) (opcode : UInt8) :
    Reader LoadFault LoadStep :=
  if opcode = opEof then
    return .eof
  else if opcode = opSelectDb then do
    let _ ← readLength
    return .skip
  else if opcode = opResizeDb then do
    let _ ← readLength
    let _ ← readLength
    return .skip
  else if opcode = opAux then do
    let _ ← readStringBytes
    let _ ← readStringBytes
    return .skip
  else if opcode = opExpireTimeMs then do
    let time ← Reader.takeOr 8 (invalid "Truncated expire time")
    readExpiring F currentTime (fromLeBytes time)
  else if opcode = opExpireTime then do
    let time ← Reader.takeOr 4 (invalid "Truncated expire time")
    readExpiring F currentTime (fromLeBytes time * 1000)
  else do
    let (key, value) ← readEntry F opcode
    return .restore key value

/-- One turn of the loop, up to the call on the store. -/
def loadStep (F : FloatText) (currentTime : UInt64) : Reader LoadFault LoadStep := do
  -- The loop has checked that there is a byte.
  let opcode ← Reader.byteOr (.panic .indexOutOfBounds)
  loadOpcode F currentTime opcode

/-- The loop over the buffer (`fuel` bounds it). -/
def loadLoop (F : FloatText) (currentTime : UInt64) (buf : Bytes) :
    ℕ → ℕ → StoreM (Except Str Unit)
  | 0, _ => return .ok ()
  | fuel + 1, pos =>
    if pos ≥ buf.length then return .ok ()
    else
      match (loadStep F currentTime).runAt buf pos with
      | .error (.panic p) => .fault p
      | .error (.invalidFormat msg) => return .error msg
      | .ok (.eof, _) => return .ok ()
      | .ok (step, pos) => do
        step.act
        loadLoop F currentTime buf fuel pos

def load (F : FloatText) (buf : Bytes) : StoreM (Except Str Unit) := do
  if buf.length < 9 ∨ buf.take 5 ≠ rdbMagic then
    return .error (Str.lit "Invalid RDB magic number")
  let currentTime ← unixNow
  loadLoop F currentTime buf (buf.length + 1) 9

def loadFromFile (F : FloatText) (fs : FileSystem) (path : PathBuf) :
    StoreM (Except Str Unit) :=
  match fs.read path with
  | none => return .ok ()
  | some buf => load F buf

end RdbDeserializer

end FireRedis
