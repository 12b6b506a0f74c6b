import FireRedis.Commands.Execute
import FireRedis.Store.Values
import FireRedis.Store.Whole

/-!
# What each command may do

The keys, the writes and the deadlines of every command that works on single
keys, and the derivation that its handler stays within them. DEL, KEYS and
FLUSHALL work on the whole store and are treated apart.
-/

namespace FireRedis
open Std

namespace Command

/-- The keys a command names. -/
def keyList : Command → List Str
  | .ping | .echo _ | .quit | .info | .keys _ | .flushAll => []
  | .del ks | .exists ks | .mGet ks => ks
  | .mSet entries => entries.map Prod.fst
  | .get k | .ttl k | .pttl k | .incr k | .decr k | .strLen k | .type k => [k]
  | .set k _ _ _ | .expire k _ | .append k _ => [k]
  | .lPush k _ | .rPush k _ | .lPop k | .rPop k | .lLen k | .lIndex k _ | .lRange k _ _ => [k]
  | .sAdd k _ | .sRem k _ | .sMembers k | .sIsMember k _ | .sCard k | .sPop k _ => [k]
  | .hSet k _ | .hGet k _ | .hDel k _ | .hLen k | .hExists k _ | .hKeys k | .hVals k => [k]
  | .hGetAll k | .zAdd k _ | .zRange k _ _ | .zRevRange k _ _ | .zScore k _ => [k]
  | .zRem k _ | .zCard k | .zCount k _ _ => [k]

def writes : Command → Bool
  | .set .. | .del _ | .expire .. | .incr _ | .decr _ | .mSet _ | .append .. | .flushAll => true
  | .lPush .. | .rPush .. | .lPop _ | .rPop _ | .sAdd .. | .sRem .. | .sPop .. => true
  | .hSet .. | .hDel .. | .zAdd .. | .zRem .. => true
  | _ => false

def setsDeadline : Command → Bool
  | .set _ _ px _ => px.isSome
  | .expire .. => true
  | _ => false

def mayPanic : Command → Bool
  | .lRange .. | .zCount .. => true
  | _ => false

/-- Whether the command goes through the whole store, past the expiry checks. -/
def isWhole : Command → Bool
  | .del _ | .keys _ | .flushAll => true
  | _ => false

def caps (P : StoredValue → Prop) (cmd : Command) : Caps where
  keys key := key ∈ cmd.keyList
  values := P
  writes := cmd.writes = true
  deadlines := cmd.setsDeadline = true
  panics := cmd.mayPanic = true

end Command

namespace Within

variable {c : Caps} {α : Type}

theorem view {key : Str} (hk : c.keys key) (absent : α) {f : StoredValue → StoreM α}
    (hf : ∀ v, Within c (f v)) : Within c (Store.view key absent f) := by
  apply bind (lookup key hk)
  intro value
  cases value with
  | none => exact pure absent
  | some v => exact hf v

theorem typeOf {key : Str} (hk : c.keys key) : Within c (Store.typeOf key) :=
  bind (lookup key hk) fun _ => pure _

theorem existsKey {key : Str} (hk : c.keys key) : Within c (Store.existsKey key) :=
  bind (lookup key hk) fun _ => pure _

theorem withType {key : Str} (hk : c.keys key) (expected : String) {body : StoreM Value}
    (hb : Within c body) : Within c (withType key expected body) := by
  apply bind
  · apply bind (typeOf hk)
    intro actual
    cases actual with
    | none => exact pure none
    | some actual => exact pure _
  · intro err
    cases err with
    | none => exact hb
    | some err => exact pure err

/-- A typed read whose reply is computed from what the method returns. -/
theorem read {key : Str} (hk : c.keys key) (expected : String) (absent : α)
    {f : StoredValue → StoreM α} (hf : ∀ v, Within c (f v)) (reply : α → Value) :
    Within c (FireRedis.withType key expected do return reply (← Store.view key absent f)) :=
  withType hk expected (bind (view hk absent hf) fun a => pure (reply a))

/-- A typed removal, whose reply is computed from what the method returns. -/
theorem remove {key : Str} (hk : c.keys key) (hw : c.writes) (expected : String) (absent : α)
    {f : StoredValue → α × StoredValue × Bool}
    (hf : ∀ v, c.values v → (f v).2.2 = false → c.values (f v).2.1) (reply : α → Value) :
    Within c (FireRedis.withType key expected do return reply (← Store.amend key absent f)) :=
  withType hk expected (bind (amend key absent f hk hw hf) fun a => pure (reply a))

theorem set_permanent {key : Str} (hk : c.keys key) (hw : c.writes) (value : Bytes)
    (hv : c.values (.string value)) : Within c (Store.set key value none) :=
  set key value none hk hw (fun h => absurd rfl h) hv

variable (hP : Closed c.values) {key : Str} (hk : c.keys key) (hw : c.writes)
include hP hk hw

theorem adjustCounter (delta : Int64) : Within c (Store.adjustCounter key delta) :=
  upsert key _ _ hk hw (hP.addToString delta _ (hP.string _)) (hP.addToString delta)

theorem append (value : Bytes) : Within c (Store.append key value) :=
  upsert key _ _ hk hw (hP.string _) (hP.appendBytes value)

theorem lPush (value : Bytes) : Within c (Store.lPush key value) :=
  upsert key _ _ hk hw (hP.list _ (by simp)) (hP.pushFront value)

theorem rPush (value : Bytes) : Within c (Store.rPush key value) :=
  upsert key _ _ hk hw (hP.list _ (by simp)) (hP.pushBack value)

theorem sAdd (members : List Bytes) (hm : members = [] → c.values (.set ∅)) :
    Within c (Store.sAdd key members) :=
  upsert key _ _ hk hw (hP.addToSet members hm _ (Or.inr rfl)) fun v hv =>
    hP.addToSet members hm v (Or.inl hv)

theorem hSet (field : Str) (value : Bytes) : Within c (Store.hSet key field value) :=
  upsert key _ _ hk hw (hP.setField field value _ (Or.inr rfl)) fun v hv =>
    hP.setField field value v (Or.inl hv)

theorem zAdd (score : F64) (member : Bytes) : Within c (Store.zAdd key score member) :=
  upsert key _ _ hk hw (hP.addToSortedSet score member _ (Or.inr rfl)) fun v hv =>
    hP.addToSortedSet score member v (Or.inl hv)

end Within

section Execute

variable {P : StoredValue → Prop} (hP : Closed P) (F : FloatText) (ord : IterOrder) (info : Bytes)
include hP

theorem within_execute (cmd : Command) (hwhole : cmd.isWhole = false)
    (hadd : ∀ k, cmd = .sAdd k [] → P (.set ∅)) :
    Within (cmd.caps P) (cmd.execute F ord info) := by
  have hself : ∀ k : Str, k ∈ [k] := List.mem_singleton_self
  cases cmd with
  | ping => exact .pure _
  | echo msg => exact .pure _
  | quit => exact .pure _
  | info => exact .pure _
  | get k =>
    exact Within.read (hself k) "string" none (fun v => by cases v <;> exact .pure _) _
  | set k v px condition =>
    refine (Within.existsKey (hself k)).bind fun present => ?_
    split
    · exact .pure _
    · split
      · exact .pure _
      · refine (Within.set k v px (hself k) rfl ?_ (hP.string v)).bind fun _ =>
          .pure _
        intro hpx
        exact Option.isSome_iff_ne_none.mpr hpx
  | del ks => cases hwhole
  | «exists» ks =>
    refine (Within.foldlM _ ks 0 fun n k hk => ?_).bind fun _ => .pure _
    exact (Within.existsKey hk).bind fun _ => .pure _
  | expire k ms =>
    exact (Within.expire k ms (hself k) rfl rfl).bind fun _ => .pure _
  | ttl k =>
    exact ((Within.pttl k (hself k)).bind fun _ => .pure _).bind fun _ => .pure _
  | pttl k => exact (Within.pttl k (hself k)).bind fun _ => .pure _
  | incr k =>
    exact (Within.adjustCounter hP (hself k) rfl 1).bind fun _ => .pure _
  | decr k =>
    exact (Within.adjustCounter hP (hself k) rfl (-1)).bind fun _ => .pure _
  | mGet ks =>
    refine (Within.mapM _ ks fun k hk => ?_).bind fun _ => .pure _
    exact (Within.view hk none fun v => by cases v <;> exact .pure _).bind fun _ => .pure _
  | mSet entries =>
    refine (Within.foldlM _ entries () fun _ entry he => ?_).bind fun _ => .pure _
    exact Within.set_permanent (List.mem_map_of_mem he) rfl entry.2 (hP.string entry.2)
  | append k v =>
    exact Within.withType (hself k) "string"
      ((Within.append hP (hself k) rfl v).bind fun _ => .pure _)
  | strLen k =>
    exact Within.read (hself k) "string" 0 (fun v => by cases v <;> exact .pure _) _
  | type k => exact (Within.typeOf (hself k)).bind fun _ => .pure _
  | keys pattern => cases hwhole
  | flushAll => cases hwhole
  | lPush k vals =>
    refine Within.withType (hself k) "list" ?_
    split
    · exact .pure _
    · exact (Within.foldlM _ vals.reverse 0 fun _ val _ =>
        Within.lPush hP (hself k) rfl val).bind fun _ => .pure _
  | rPush k vals =>
    refine Within.withType (hself k) "list" ?_
    split
    · exact .pure _
    · exact (Within.foldlM _ vals 0 fun _ val _ =>
        Within.rPush hP (hself k) rfl val).bind fun _ => .pure _
  | lPop k => exact Within.remove (hself k) rfl "list" none hP.popFront _
  | rPop k => exact Within.remove (hself k) rfl "list" none hP.popBack _
  | lLen k =>
    exact Within.read (hself k) "list" 0 (fun v => by cases v <;> exact .pure _) _
  | lIndex k idx =>
    exact Within.read (hself k) "list" none (fun v => by cases v <;> exact .pure _) _
  | lRange k start stop =>
    refine Within.read (hself k) "list" [] (fun v => ?_) _
    cases v with
    | list items =>
      show Within _ (Store.listRange items start stop)
      unfold Store.listRange
      dsimp only
      split
      · exact .pure _
      · split
        · exact .fault _ rfl
        · exact .pure _
    | _ => exact .pure _
  | sAdd k members =>
    refine Within.withType (hself k) "set"
      ((Within.sAdd hP (hself k) rfl members ?_).bind fun _ => .pure _)
    intro hm
    exact hadd k (by rw [hm])
  | sRem k members =>
    exact Within.remove (hself k) rfl "set" 0 (hP.removeFromSet members) _
  | sMembers k =>
    exact Within.read (hself k) "set" [] (fun v => by cases v <;> exact .pure _) _
  | sIsMember k member =>
    exact Within.read (hself k) "set" false (fun v => by cases v <;> exact .pure _) _
  | sCard k =>
    exact Within.read (hself k) "set" 0 (fun v => by cases v <;> exact .pure _) _
  | sPop k n =>
    cases n with
    | none => exact Within.remove (hself k) rfl "set" [] (hP.popFromSet ord 1) _
    | some n => exact Within.remove (hself k) rfl "set" [] (hP.popFromSet ord n) _
  | hSet k fields =>
    refine Within.withType (hself k) "hash" ?_
    refine (Within.foldlM _ fields 0 fun _ entry _ => ?_).bind fun _ => .pure _
    exact (Within.hSet hP (hself k) rfl entry.1 entry.2).bind fun _ => .pure _
  | hGet k field =>
    exact Within.read (hself k) "hash" none (fun v => by cases v <;> exact .pure _) _
  | hDel k fields =>
    exact Within.remove (hself k) rfl "hash" 0 (hP.removeFromHash fields) _
  | hLen k =>
    exact Within.read (hself k) "hash" 0 (fun v => by cases v <;> exact .pure _) _
  | hExists k field =>
    exact Within.read (hself k) "hash" false (fun v => by cases v <;> exact .pure _) _
  | hKeys k =>
    exact Within.read (hself k) "hash" [] (fun v => by cases v <;> exact .pure _) _
  | hVals k =>
    exact Within.read (hself k) "hash" [] (fun v => by cases v <;> exact .pure _) _
  | hGetAll k =>
    exact Within.read (hself k) "hash" [] (fun v => by cases v <;> exact .pure _) _
  | zAdd k entries =>
    refine Within.withType (hself k) "zset" ?_
    refine (Within.foldlM _ entries 0 fun _ entry _ => ?_).bind fun _ => .pure _
    exact (Within.zAdd hP (hself k) rfl entry.1 entry.2).bind fun _ => .pure _
  | zRange k start stop =>
    exact Within.read (hself k) "zset" [] (fun v => by cases v <;> exact .pure _) _
  | zRevRange k start stop =>
    exact Within.read (hself k) "zset" [] (fun v => by cases v <;> exact .pure _) _
  | zScore k member =>
    exact Within.read (hself k) "zset" none (fun v => by cases v <;> exact .pure _) _
  | zRem k members =>
    exact Within.remove (hself k) rfl "zset" 0 (hP.removeFromSortedSet members) _
  | zCard k =>
    exact Within.read (hself k) "zset" 0 (fun v => by cases v <;> exact .pure _) _
  | zCount k minScore maxScore =>
    refine Within.read (hself k) "zset" 0 (fun v => ?_) _
    cases v with
    | sortedSet z =>
      show Within _ (Store.countBetween minScore maxScore z.tree)
      unfold Store.countBetween
      split
      · exact .fault _ rfl
      · exact .pure _
    | _ => exact .pure _

end Execute

end FireRedis
