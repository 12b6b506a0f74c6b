import FireRedis.Base.Decimal
import FireRedis.Store.Keyspace

/-!
# Values of the five types (store/string.rs, list.rs, set.rs, hash.rs, sorted_set.rs)

Each method is one of the shapes of `Keyspace` around a function on the value.
A value of another type is left as it is and gives the method's neutral result.
-/

namespace FireRedis
open Std

namespace Store

/-! ### Strings -/

/-- `i64::checked_add`. -/
def checkedAdd (a b : Int64) : Option Int64 :=
  let sum := a.toInt + b.toInt
  if -2 ^ 63 ≤ sum ∧ sum < 2 ^ 63 then some (Int64.ofInt sum) else none

def addToString (delta : Int64) : StoredValue → Except Str Int64 × StoredValue
  | .string b =>
    match Str.fromUtf8 b with
    | none => (.error (Str.lit "Value is not a valid UTF-8 string"), .string b)
    | some current =>
      match Decimal.parseI64 current.bytes with
      | none => (.error (Str.lit "Value is not an integer"), .string b)
      | some n =>
        match checkedAdd n delta with
        | none => (.error (Str.lit "Integer overflow"), .string b)
        | some n => (.ok n, .string (Decimal.displayI64 n))
  | v => (.error (Str.lit "Key does not hold a string value"), v)

def adjustCounter (key : Str) (delta : Int64) : StoreM (Except Str Int64) :=
  upsert key (.string (Str.utf8 "0")) (addToString delta)

def get (key : Str) : StoreM (Option Bytes) :=
  view key none fun
    | .string b => return some b
    | _ => return none

def set (key : Str) (value : Bytes) (expireMs : Option UInt64) : StoreM Unit := do
  let _ ← dataInsert key (.string value)
  setExpiration key expireMs

def appendBytes (value : Bytes) : StoredValue → ℕ × StoredValue
  | .string existing => ((existing ++ value).length, .string (existing ++ value))
  | v => (0, v)

def append (key : Str) (value : Bytes) : StoreM ℕ := upsert key (.string []) (appendBytes value)

def strlen (key : Str) : StoreM ℕ :=
  view key 0 fun
    | .string b => return b.length
    | _ => return 0

def incr (key : Str) : StoreM (Except Str Int64) := adjustCounter key 1

def decr (key : Str) : StoreM (Except Str Int64) := adjustCounter key (-1)

/-! ### Lists -/

def pushFront (value : Bytes) : StoredValue → ℕ × StoredValue
  | .list items => (items.length + 1, .list (value :: items))
  | v => (0, v)

def pushBack (value : Bytes) : StoredValue → ℕ × StoredValue
  | .list items => (items.length + 1, .list (items ++ [value]))
  | v => (0, v)

def popFront : StoredValue → Option Bytes × StoredValue × Bool
  | .list items => (items.head?, .list items.tail, items.tail.isEmpty)
  | v => (none, v, false)

def popBack : StoredValue → Option Bytes × StoredValue × Bool
  | .list items => (items.getLast?, .list items.dropLast, items.dropLast.isEmpty)
  | v => (none, v, false)

def lPush (key : Str) (value : Bytes) : StoreM ℕ := upsert key (.list []) (pushFront value)

def rPush (key : Str) (value : Bytes) : StoreM ℕ := upsert key (.list []) (pushBack value)

def lPop (key : Str) : StoreM (Option Bytes) := amend key none popFront

def rPop (key : Str) : StoreM (Option Bytes) := amend key none popBack

/-- `i as usize`: a negative index becomes huge. -/
def asUsize (i : Int64) : ℕ := i.toUInt64.toNat

/-- The two ends of a range over `len` elements, as LRANGE and ZRANGE compute them. -/
def rangeEnds (len : ℕ) (start stop : Int64) : ℕ × ℕ :=
  let n := Int64.ofNat len
  (asUsize (max (if start < 0 then n + start else start) 0),
    asUsize (min (if stop < 0 then n + stop else stop) (n - 1)))

/-- `VecDeque::range` panics on an end beyond the list. -/
def listRange (items : List Bytes) (start stop : Int64) : StoreM (List Bytes) :=
  let ends := rangeEnds items.length start stop
  if ends.1 > ends.2 ∨ ends.1 ≥ items.length then return []
  else if ends.2 ≥ items.length then .fault .rangeOutOfBounds
  else return (items.drop ends.1).take (ends.2 + 1 - ends.1)

def lRange (key : Str) (start stop : Int64) : StoreM (List Bytes) :=
  view key [] fun
    | .list items => listRange items start stop
    | _ => return []

def lLen (key : Str) : StoreM ℕ :=
  view key 0 fun
    | .list items => return items.length
    | _ => return 0

def lIndex (key : Str) (index : Int64) : StoreM (Option Bytes) :=
  view key none fun
    | .list items =>
      return items[asUsize (if index < 0 then Int64.ofNat items.length + index else index)]?
    | _ => return none

/-! ### Sets -/

def insertMembers (members : List Bytes) (S : ExtTreeSet Bytes) : ℕ × ExtTreeSet Bytes :=
  members.foldl (fun (added, S) m => (if S.contains m then added else added + 1, S.insert m)) (0, S)

def removeMembers (members : List Bytes) (S : ExtTreeSet Bytes) : ℕ × ExtTreeSet Bytes :=
  members.foldl (fun (removed, S) m =>
    (if S.contains m then removed + 1 else removed, S.erase m)) (0, S)

/-- Takes the first member in iteration order, up to `count` times. -/
def popMembers (ord : IterOrder) : ℕ → ExtTreeSet Bytes → List Bytes × ExtTreeSet Bytes
  | 0, S => ([], S)
  | count + 1, S =>
    match (ord.members S).head? with
    | some m =>
      let rest := popMembers ord count (S.erase m)
      (m :: rest.1, rest.2)
    | none => ([], S)

def addToSet (members : List Bytes) : StoredValue → ℕ × StoredValue
  | .set S => ((insertMembers members S).1, .set (insertMembers members S).2)
  | v => (0, v)

def removeFromSet (members : List Bytes) : StoredValue → ℕ × StoredValue × Bool
  | .set S =>
    let r := removeMembers members S
    (r.1, .set r.2, r.2.isEmpty)
  | v => (0, v, false)

def popFromSet (ord : IterOrder) (count : ℕ) : StoredValue → List Bytes × StoredValue × Bool
  | .set S =>
    let r := popMembers ord count S
    (r.1, .set r.2, r.2.isEmpty)
  | v => ([], v, false)

def sAdd (key : Str) (members : List Bytes) : StoreM ℕ := upsert key (.set ∅) (addToSet members)

def sRem (key : Str) (members : List Bytes) : StoreM ℕ := amend key 0 (removeFromSet members)

def sMembers (ord : IterOrder) (key : Str) : StoreM (List Bytes) :=
  view key [] fun
    | .set S => return ord.members S
    | _ => return []

def sIsMember (key : Str) (member : Bytes) : StoreM Bool :=
  view key false fun
    | .set S => return S.contains member
    | _ => return false

def sCard (key : Str) : StoreM ℕ :=
  view key 0 fun
    | .set S => return S.size
    | _ => return 0

def sPop (ord : IterOrder) (key : Str) (count : ℕ) : StoreM (List Bytes) :=
  amend key [] (popFromSet ord count)

/-! ### Hashes -/

def setField (field : Str) (value : Bytes) : StoredValue → Bool × StoredValue
  | .hash H => (!H.contains field, .hash (H.insert field value))
  | v => (false, v)

def removeFields (fields : List Str) (H : ExtTreeMap Str Bytes) : ℕ × ExtTreeMap Str Bytes :=
  fields.foldl (fun (removed, H) f =>
    (if H.contains f then removed + 1 else removed, H.erase f)) (0, H)

def removeFromHash (fields : List Str) : StoredValue → ℕ × StoredValue × Bool
  | .hash H =>
    let r := removeFields fields H
    (r.1, .hash r.2, r.2.isEmpty)
  | v => (0, v, false)

def hSet (key field : Str) (value : Bytes) : StoreM Bool :=
  upsert key (.hash ∅) (setField field value)

def hGet (key field : Str) : StoreM (Option Bytes) :=
  view key none fun
    | .hash H => return H[field]?
    | _ => return none

def hGetAll (ord : IterOrder) (key : Str) : StoreM (List (Str × Bytes)) :=
  view key [] fun
    | .hash H => return ord.fields H
    | _ => return []

def hDel (key : Str) (fields : List Str) : StoreM ℕ := amend key 0 (removeFromHash fields)

def hLen (key : Str) : StoreM ℕ :=
  view key 0 fun
    | .hash H => return H.size
    | _ => return 0

def hExists (key field : Str) : StoreM Bool :=
  view key false fun
    | .hash H => return H.contains field
    | _ => return false

def hKeys (ord : IterOrder) (key : Str) : StoreM (List Str) :=
  view key [] fun
    | .hash H => return (ord.fields H).map Prod.fst
    | _ => return []

def hVals (ord : IterOrder) (key : Str) : StoreM (List Bytes) :=
  view key [] fun
    | .hash H => return (ord.fields H).map Prod.snd
    | _ => return []

/-! ### Sorted sets -/

/-- Takes a member out of the bucket of its score, and the bucket out of the
tree when it becomes empty. -/
def unlinkMember (member : Bytes) (score : F64) (tree : ExtTreeMap F64 Bucket) :
    ExtTreeMap F64 Bucket :=
  match tree[score]? with
  | none => tree
  | some bucket =>
    let bucket := bucket.erase member
    if bucket.isEmpty then tree.erase score else tree.modify score fun _ => bucket

/-- `tree.entry(score).or_insert_with(..).insert(member)`: a score already in
the tree keeps its key. -/
def linkMember (member : Bytes) (score : F64) (tree : ExtTreeMap F64 Bucket) :
    ExtTreeMap F64 Bucket :=
  match tree[score]? with
  | none => tree.insert score {member}
  | some bucket => tree.modify score fun _ => bucket.insert member

def zInsert (score : F64) (member : Bytes) (z : SortedSet) : SortedSet where
  scores := z.scores.insert member score
  tree :=
    match z.scores[member]? with
    | some oldScore => linkMember member score (unlinkMember member oldScore z.tree)
    | none => linkMember member score z.tree

def zErase (z : SortedSet) (member : Bytes) : SortedSet where
  scores := z.scores.erase member
  tree :=
    match z.scores[member]? with
    | some score => unlinkMember member score z.tree
    | none => z.tree

def zEraseMembers (members : List Bytes) (z : SortedSet) : ℕ × SortedSet :=
  members.foldl (fun (removed, z) m =>
    (if z.scores.contains m then removed + 1 else removed, zErase z m)) (0, z)

def addToSortedSet (score : F64) (member : Bytes) : StoredValue → Bool × StoredValue
  | .sortedSet z => (!z.scores.contains member, .sortedSet (zInsert score member z))
  | v => (false, v)

def removeFromSortedSet (members : List Bytes) : StoredValue → ℕ × StoredValue × Bool
  | .sortedSet z =>
    let r := zEraseMembers members z
    (r.1, .sortedSet r.2, r.2.scores.isEmpty)
  | v => (0, v, false)

def zAdd (key : Str) (score : F64) (member : Bytes) : StoreM Bool :=
  upsert key (.sortedSet ⟨∅, ∅⟩) (addToSortedSet score member)

/-- The window of a listing that ZRANGE and ZREVRANGE return. -/
def sliceMembers (all : List (Bytes × F64)) (start stop : Int64) : List (Bytes × F64) :=
  let ends := rangeEnds all.length start stop
  if ends.1 > ends.2 ∨ ends.1 ≥ all.length then []
  else (all.drop ends.1).take (min ends.2 (all.length - 1) + 1 - ends.1)

def listBuckets (ord : IterOrder) (buckets : List (F64 × Bucket)) : List (Bytes × F64) :=
  buckets.flatMap fun (score, members) => (ord.members members).map fun m => (m, score)

def zRange (ord : IterOrder) (key : Str) (start stop : Int64) : StoreM (List (Bytes × F64)) :=
  view key [] fun
    | .sortedSet z => return sliceMembers (listBuckets ord z.tree.toList) start stop
    | _ => return []

def zRevRange (ord : IterOrder) (key : Str) (start stop : Int64) :
    StoreM (List (Bytes × F64)) :=
  view key [] fun
    | .sortedSet z => return sliceMembers (listBuckets ord z.tree.toList.reverse) start stop
    | _ => return []

def zScore (key : Str) (member : Bytes) : StoreM (Option F64) :=
  view key none fun
    | .sortedSet z => return z.scores[member]?
    | _ => return none

def zRem (key : Str) (members : List Bytes) : StoreM ℕ :=
  amend key 0 (removeFromSortedSet members)

def zCard (key : Str) : StoreM ℕ :=
  view key 0 fun
    | .sortedSet z => return z.scores.size
    | _ => return 0

/-- `BTreeMap::range` panics on a non-empty map when its start is beyond its end. -/
def countBetween (minScore maxScore : F64) (tree : ExtTreeMap F64 Bucket) : StoreM ℕ :=
  if !tree.isEmpty && maxScore.rank < minScore.rank then .fault .rangeOutOfBounds
  else
    let range := tree.toList.filter fun e => minScore.rank ≤ e.1.rank && e.1.rank ≤ maxScore.rank
    return (range.map fun e => e.2.size).sum

def zCount (key : Str) (minScore maxScore : F64) : StoreM ℕ :=
  view key 0 fun
    | .sortedSet z => countBetween minScore maxScore z.tree
    | _ => return 0

end Store

end FireRedis
