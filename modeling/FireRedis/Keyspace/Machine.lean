import FireRedis.Base.Windows
import FireRedis.Commands.Deque

/-!
# What the commands mean

A keyspace maps keys to texts, sequences, finite sets and finite maps, with
deadlines; an absent key is the empty collection. `Command.Does` says what a
command may reply there and what it leaves, without a word of how values are
stored, of clean-up or of the order in which hash maps are walked.
-/

namespace FireRedis
open Window

inductive Content where
  | string (b : Bytes)
  | list (items : List Bytes)
  | set (members : Finset Bytes)
  | hash (fields : Finmap fun _ : Str => Bytes)
  | zset (scores : Finmap fun _ : Bytes => F64)

def Content.typeName : Content → String
  | string _ => "string"
  | list _ => "list"
  | set _ => "set"
  | hash _ => "hash"
  | zset _ => "zset"

structure Item where
  content : Content
  deadline : Option Instant

/-- The item, unless its deadline has come. -/
def Item.still (t : Instant) (i : Item) : Option Item :=
  if i.deadline.all fun d => t < d then some i else none

abbrev Keyspace := Str → Option Item

namespace Keyspace

variable (D : Keyspace)

/-- What is left at a later moment. -/
def later (t : Instant) : Keyspace := fun key => (D key).bind (Item.still t)

def content (key : Str) : Option Content := (D key).map Item.content

/-- New content under a key keeps the deadline there; no content removes both. -/
def put (key : Str) (c : Option Content) : Keyspace :=
  Function.update D key (c.map fun c => ⟨c, (D key).bind Item.deadline⟩)

end Keyspace

/-! ### Commands of one type -/

/-- What the commands of a type see under a key, absent keys included, and leave
there. They see nothing under a key of another type. -/
structure Slot (α : Type) where
  sees : Option Content → Option α
  leaves : α → Option Content

namespace Slot

def string : Slot (Option Bytes) where
  sees
    | none => some none
    | some (.string b) => some (some b)
    | _ => none
  leaves b := b.map .string

def list : Slot (List Bytes) where
  sees
    | none => some []
    | some (.list items) => some items
    | _ => none
  leaves items := if items = [] then none else some (.list items)

def set : Slot (Finset Bytes) where
  sees
    | none => some ∅
    | some (.set members) => some members
    | _ => none
  leaves members := if members = ∅ then none else some (.set members)

def hash : Slot (Finmap fun _ : Str => Bytes) where
  sees
    | none => some ∅
    | some (.hash fields) => some fields
    | _ => none
  leaves fields := if fields.keys = ∅ then none else some (.hash fields)

def zset : Slot (Finmap fun _ : Bytes => F64) where
  sees
    | none => some ∅
    | some (.zset scores) => some scores
    | _ => none
  leaves scores := if scores.keys = ∅ then none else some (.zset scores)

end Slot

/-- The end of a command: a reply or a panic, and the keyspace it leaves. -/
abbrev Outcome := Except Panic Value × Keyspace

section Shapes

variable {α : Type} (L : Slot α) (D : Keyspace) (key : Str)

def Query (answer : α → Except Panic Value → Prop) (r : Outcome) : Prop :=
  r.2 = D ∧
    match L.sees (D.content key) with
    | some a => answer a r.1
    | none => r.1 = .ok wrongType

def Edit (op : α → Value → α → Prop) (r : Outcome) : Prop :=
  match L.sees (D.content key) with
  | some a => ∃ reply a', op a reply a' ∧ r = (.ok reply, D.put key (L.leaves a'))
  | none => r = (.ok wrongType, D)

end Shapes

/-! ### Listings -/

/-- In the order of the keys, each once. -/
def Ascending {α : Type} [Ord α] (items : List α) : Prop :=
  items.Pairwise fun a b => compare a b = .lt

/-- Every binding of the map once. -/
structure Enumerates {α β : Type} (M : Finmap fun _ : α => β) [DecidableEq α]
    (items : List (α × β)) : Prop where
  nodup : (items.map Prod.fst).Nodup
  mem : ∀ a b, (a, b) ∈ items ↔ M.lookup a = some b

/-- Every member once, scores in order. -/
structure Ranking (Z : Finmap fun _ : Bytes => F64) (le : ℤ → ℤ → Prop) (members : List Bytes) :
    Prop where
  nodup : members.Nodup
  keys : members.toFinset = Z.keys
  ordered : members.Pairwise fun m n => ∀ x y, Z.lookup m = some x → Z.lookup n = some y →
    le x.rank y.rank

/-- The members that a range asks for; a `stop` in front of the first is taken for
the last. -/
def rankedWindow (members : List Bytes) (start stop : Int64) : List Bytes :=
  window members (fromEnd members.length start.toInt)
    (if fromEnd members.length stop.toInt < 0 then members.length - 1
      else fromEnd members.length stop.toInt)

/-! ### Strings and keys -/

/-- A number in decimal, and an absent key as zero, is counted up unless it would
leave the 64 bits. Nothing else is changed. -/
def Counts (D : Keyspace) (key : Str) (delta : Int64) (r : Outcome) : Prop :=
  match D.content key with
  | none => r = (.ok (.integer delta), D.put key (some (.string (Decimal.displayI64 delta))))
  | some (.string b) =>
    match (Str.fromUtf8 b).map fun text => Decimal.parseI64 text.bytes with
    | none => r = (.ok (.error (Str.lit "Value is not a valid UTF-8 string")), D)
    | some none => r = (.ok (.error (Str.lit "Value is not an integer")), D)
    | some (some n) =>
      if -2 ^ 63 ≤ n.toInt + delta.toInt ∧ n.toInt + delta.toInt < 2 ^ 63 then
        r = (.ok (.integer (n + delta)),
          D.put key (some (.string (Decimal.displayI64 (n + delta)))))
      else r = (.ok (.error (Str.lit "Integer overflow")), D)
  | some _ => r = (.ok (.error (Str.lit "Key does not hold a string value")), D)

/-- The milliseconds left, or -1 without a deadline, or -2 without a key. -/
def remaining (t : Instant) : Option Item → Int64
  | none => -2
  | some ⟨_, none⟩ => -1
  | some ⟨_, some d⟩ => Int64.ofNat (asMillis (d - t))

def inSeconds (ms : Int64) : Int64 := if ms = -2 then -2 else if ms = -1 then -1 else ms / 1000

def textOf : Option Content → Option Bytes
  | some (.string b) => some b
  | _ => none

/-- The count of DEL may include names that expired without being cleaned up. -/
def Deletes (D : Keyspace) (ks : List Str) (r : Outcome) : Prop :=
  ∃ n, (ks.toFinset.filter fun k => (D k).isSome).card ≤ n ∧ n ≤ ks.toFinset.card ∧
    r = (.ok (count n), fun k => if k ∈ ks then none else D k)

/-! ### The commands -/

/-- What a command may do at an instant. A reply that a list or sorted set with
more elements than memory can hold would give is left open. -/
def Command.Does (F : FloatText) (t : Instant) (D : Keyspace) : Command → Outcome → Prop
  | .ping, r => r = (.ok (.simpleString (Str.lit "PONG")), D)
  | .echo msg, r => r = (.ok (.bulkString (some msg)), D)
  | .quit, r => r = (.ok ok, D)
  | .info, r => ∃ text, r = (.ok (.bulkString (some text)), D)
  | .get k, r => Query .string D k (fun b reply => reply = .ok (bulkOrNull b)) r
  | .set k v px condition, r =>
    if (condition = .nx ∧ (D k).isSome) ∨ (condition = .xx ∧ (D k).isNone) then r = (.ok .null, D)
    else r = (.ok ok, Function.update D k
      (Item.still t ⟨.string v, px.map fun ms => t + fromMillis ms⟩))
  | .del ks, r => Deletes D ks r
  | .exists ks, r => r = (.ok (count (ks.countP fun k => (D k).isSome)), D)
  | .expire k ms, r =>
    match D k with
    | none => r = (.ok (.integer 0), D)
    | some i => r = (.ok (.integer 1),
        Function.update D k (Item.still t ⟨i.content, some (t + fromMillis ms)⟩))
  | .ttl k, r => r = (.ok (.integer (inSeconds (remaining t (D k)))), D)
  | .pttl k, r => r = (.ok (.integer (remaining t (D k))), D)
  | .incr k, r => Counts D k 1 r
  | .decr k, r => Counts D k (-1) r
  | .mGet ks, r =>
    r = (.ok (.array (some (ks.map fun k => bulkOrNull (textOf (D.content k))))), D)
  | .mSet entries, r =>
    r = (.ok ok, entries.foldl (fun (D : Keyspace) e =>
      Function.update D e.1 (some ⟨.string e.2, none⟩)) D)
  | .append k v, r =>
    Edit .string D k (fun b reply b' => b' = some (b.getD [] ++ v) ∧
      reply = count (b.getD [] ++ v).length) r
  | .strLen k, r => Query .string D k (fun b reply => reply = .ok (count (b.getD []).length)) r
  | .type k, r =>
    r = (.ok (.simpleString (Str.lit (((D.content k).map Content.typeName).getD "none"))), D)
  | .keys pattern, r =>
    if pattern = Str.lit "*" then
      ∃ ks : List Str, Ascending ks ∧ (∀ k, k ∈ ks ↔ (D k).isSome) ∧
        r = (.ok (bulkArray (ks.map Str.bytes)), D)
    else r = (.ok (.error (Str.lit "ERR only '*' pattern is currently supported")), D)
  | .flushAll, r => r = (.ok ok, fun _ => none)
  | .lPush k vals, r =>
    Edit .list D k (fun q reply q' => q' = vals ++ q ∧ reply = count q'.length) r
  | .rPush k vals, r =>
    Edit .list D k (fun q reply q' => q' = q ++ vals ∧ reply = count q'.length) r
  | .lPop k, r => Edit .list D k (fun q reply q' => q' = q.tail ∧ reply = bulkOrNull q.head?) r
  | .rPop k, r =>
    Edit .list D k (fun q reply q' => q' = q.dropLast ∧ reply = bulkOrNull q.getLast?) r
  | .lLen k, r => Query .list D k (fun q reply => reply = .ok (count q.length)) r
  | .lIndex k index, r =>
    Query .list D k (fun q reply => q.length ≤ isizeMax →
      reply = .ok (bulkOrNull (elementAt q index.toInt))) r
  | .lRange k start stop, r =>
    Query .list D k (fun q reply => q.length ≤ isizeMax → reply =
      if q ≠ [] ∧ fromEnd q.length stop.toInt < 0 ∧ fromEnd q.length start.toInt < q.length then
        .error .rangeOutOfBounds
      else .ok (bulkArray (window q (fromEnd q.length start.toInt)
        (fromEnd q.length stop.toInt)))) r
  | .sAdd k members, r =>
    Edit .set D k (fun S reply S' => S' = S ∪ members.toFinset ∧
      reply = count (members.toFinset \ S).card) r
  | .sRem k members, r =>
    Edit .set D k (fun S reply S' => S' = S \ members.toFinset ∧
      reply = count (members.toFinset ∩ S).card) r
  | .sMembers k, r =>
    Query .set D k (fun S reply => ∃ members : List Bytes, Ascending members ∧
      members.toFinset = S ∧ reply = .ok (bulkArray members)) r
  | .sIsMember k member, r =>
    Query .set D k (fun S reply => reply = .ok (intBool (decide (member ∈ S)))) r
  | .sCard k, r => Query .set D k (fun S reply => reply = .ok (count S.card)) r
  | .sPop k none, r =>
    Edit .set D k (fun S reply S' => S = ∅ ∧ S' = ∅ ∧ reply = bulkOrNull none ∨
      ∃ m ∈ S, S' = S.erase m ∧ reply = bulkOrNull (some m)) r
  | .sPop k (some n), r =>
    Edit .set D k (fun S reply S' => ∃ taken : List Bytes, taken.Nodup ∧ taken.toFinset ⊆ S ∧
      taken.length = min n S.card ∧ S' = S \ taken.toFinset ∧ reply = bulkArray taken) r
  | .hSet k fields, r =>
    Edit .hash D k (fun H reply H' => H' = fields.foldl (fun H e => H.insert e.1 e.2) H ∧
      reply = count ((fields.map Prod.fst).toFinset \ H.keys).card) r
  | .hGet k field, r => Query .hash D k (fun H reply => reply = .ok (bulkOrNull (H.lookup field))) r
  | .hDel k fields, r =>
    Edit .hash D k (fun H reply H' => H' = fields.foldl (fun H f => H.erase f) H ∧
      reply = count (fields.toFinset ∩ H.keys).card) r
  | .hLen k, r => Query .hash D k (fun H reply => reply = .ok (count H.keys.card)) r
  | .hExists k field, r =>
    Query .hash D k (fun H reply => reply = .ok (intBool (decide (field ∈ H.keys)))) r
  | .hKeys k, r =>
    Query .hash D k (fun H reply => ∃ items, Enumerates H items ∧
      reply = .ok (bulkArray (items.map fun e => e.1.bytes))) r
  | .hVals k, r =>
    Query .hash D k (fun H reply => ∃ items, Enumerates H items ∧
      reply = .ok (bulkArray (items.map Prod.snd))) r
  | .hGetAll k, r =>
    Query .hash D k (fun H reply => ∃ items, Enumerates H items ∧ Ascending (items.map Prod.fst) ∧
      reply = .ok (bulkArray (items.flatMap fun e => [e.1.bytes, e.2]))) r
  | .zAdd k entries, r =>
    Edit .zset D k (fun Z reply Z' => Z' = entries.foldl (fun Z e => Z.insert e.2 e.1) Z ∧
      reply = count ((entries.map Prod.snd).toFinset \ Z.keys).card) r
  | .zRem k members, r =>
    Edit .zset D k (fun Z reply Z' => Z' = members.foldl (fun Z m => Z.erase m) Z ∧
      reply = count (members.toFinset ∩ Z.keys).card) r
  | .zCard k, r => Query .zset D k (fun Z reply => reply = .ok (count Z.keys.card)) r
  | .zScore k member, r =>
    Query .zset D k (fun Z reply =>
      reply = .ok (bulkOrNull ((Z.lookup member).map fun x => (F.toString x).bytes))) r
  | .zCount k minScore maxScore, r =>
    Query .zset D k (fun Z reply => reply =
      if Z.keys ≠ ∅ ∧ maxScore.rank < minScore.rank then .error .rangeOutOfBounds
      else .ok (count (Z.keys.filter fun m => (Z.lookup m).any fun x =>
        minScore.rank ≤ x.rank ∧ x.rank ≤ maxScore.rank).card)) r
  | .zRange k start stop, r =>
    Query .zset D k (fun Z reply => Z.keys.card ≤ isizeMax → ∃ members,
      Ranking Z (fun x y => x ≤ y) members ∧
        reply = .ok (bulkArray (rankedWindow members start stop))) r
  | .zRevRange k start stop, r =>
    Query .zset D k (fun Z reply => Z.keys.card ≤ isizeMax → ∃ members,
      Ranking Z (fun x y => y ≤ x) members ∧
        reply = .ok (bulkArray (rankedWindow members start stop))) r

end FireRedis
