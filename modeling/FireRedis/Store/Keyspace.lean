import FireRedis.Store.State

/-!
# Keys and expiration (store/mod.rs)

The methods of the store that do not look into a value. The methods that do
have one of three shapes: `view` reads a key that has not expired, `upsert` is
`entry(key).or_insert_with(..)` after the expiry check, and `amend` is
`get_mut(key)`, with both maps cleared of a key whose value became empty.
-/

namespace FireRedis
open Std

/-- The order in which a process iterates over its hash maps and sets. -/
structure IterOrder where
  members : ExtTreeSet Bytes → List Bytes
  members_perm : ∀ S, (members S).Perm S.toList
  fields : ExtTreeMap Str Bytes → List (Str × Bytes)
  fields_perm : ∀ H, (fields H).Perm H.toList
  scores : ExtTreeMap Bytes F64 → List (Bytes × F64)
  scores_perm : ∀ M, (scores M).Perm M.toList
  data : ExtTreeMap Str StoredValue → List (Str × StoredValue)
  data_perm : ∀ D, (data D).Perm D.toList

def IterOrder.sorted : IterOrder where
  members := ExtTreeSet.toList
  members_perm _ := .refl _
  fields := ExtTreeMap.toList
  fields_perm _ := .refl _
  scores := ExtTreeMap.toList
  scores_perm _ := .refl _
  data := ExtTreeMap.toList
  data_perm _ := .refl _

namespace Store

def checkExpiration (key : Str) : StoreM Bool := do
  match ← expirationsGet key with
  | some expireAt =>
    if (← instantNow) ≥ expireAt then
      let _ ← dataRemove key
      let _ ← expirationsRemove key
      return true
    else
      return false
  | none => return false

def setExpiration (key : Str) : Option UInt64 → StoreM Unit
  | some ms => do
    let expireAt := (← instantNow) + fromMillis ms
    let _ ← expirationsInsert key expireAt
  | none => do
    let _ ← expirationsRemove key

-- The eviction counter of the metrics is left out.
def evictExpired : StoreM ℕ := do
  let now ← instantNow
  let entries ← expirationsIter
  let expiredKeys := (entries.toList.filter fun e => now ≥ e.2).map Prod.fst
  expiredKeys.foldlM (fun evicted key => do
    let removed ← dataRemove key
    let _ ← expirationsRemove key
    return if removed.isSome then evicted + 1 else evicted) 0

def snapshot : StoreM (ExtTreeMap Str StoredValue × ExtTreeMap Str Instant) := do
  let _ ← evictExpired
  return (← dataIter, ← expirationsIter)

def restore (key : Str) (value : StoredValue) : StoreM Unit := do
  let _ ← dataInsert key value

def setWithTtl (key : Str) (value : StoredValue) (ttlMs : UInt64) : StoreM Unit := do
  let _ ← dataInsert key value
  let expireAt := (← instantNow) + fromMillis ttlMs
  let _ ← expirationsInsert key expireAt

def getForRestore (key : Str) : StoreM (Option StoredValue) := dataGet key

def ttlMsForPersistence (key : Str) : StoreM (Option UInt64) := do
  match ← expirationsGet key with
  | some expireAt =>
    let now ← instantNow
    return some (UInt64.ofNat (max (asMillis (expireAt - now)) 1))
  | none => return none

/-! ### The three shapes -/

/-- `check_expiration`, then `data.get` of a key that has not expired. -/
def lookup (key : Str) : StoreM (Option StoredValue) := do
  if ← checkExpiration key then
    return none
  dataGet key

def view {α : Type} (key : Str) (absent : α) (f : StoredValue → StoreM α) : StoreM α := do
  match ← lookup key with
  | none => return absent
  | some value => f value

/-- `f` gives the result and the new value. -/
def upsert {α : Type} (key : Str) (init : StoredValue) (f : StoredValue → α × StoredValue) :
    StoreM α := do
  let _ ← checkExpiration key
  let old ← dataAlter key fun value => some (f (value.getD init)).2
  return (f (old.getD init)).1

/-- `f` gives the result, the new value and `should_remove`. -/
def amend {α : Type} (key : Str) (absent : α) (f : StoredValue → α × StoredValue × Bool) :
    StoreM α := do
  if ← checkExpiration key then
    return absent
  match ← dataAlter key fun value => value.map fun v => (f v).2.1 with
  | none => return absent
  | some value =>
    if (f value).2.2 then
      let _ ← dataRemove key
      let _ ← expirationsRemove key
      return (f value).1
    else
      return (f value).1

/-! ### Key commands -/

def del (keys : List Str) : StoreM ℕ :=
  keys.foldlM (fun count key => do
    let removed ← dataRemove key
    let _ ← expirationsRemove key
    return if removed.isSome then count + 1 else count) 0

def existsKey (key : Str) : StoreM Bool := do
  return (← lookup key).isSome

def typeName : StoredValue → Str
  | .string _ => Str.lit "string"
  | .list _ => Str.lit "list"
  | .set _ => Str.lit "set"
  | .hash _ => Str.lit "hash"
  | .sortedSet _ => Str.lit "zset"

def typeOf (key : Str) : StoreM (Option Str) := do
  return (← lookup key).map typeName

def keys (ord : IterOrder) : StoreM (List Str) := do
  let _ ← evictExpired
  return (ord.data (← dataIter)).map Prod.fst

def flushAll : StoreM Unit := do
  dataClear
  expirationsClear

def expire (key : Str) (expireMs : UInt64) : StoreM Bool := do
  match ← lookup key with
  | some _ =>
    setExpiration key (some expireMs)
    return true
  | none => return false

def pttl (key : Str) : StoreM Int64 := do
  if ← existsKey key then
    match ← expirationsGet key with
    | some expireAt => return Int64.ofNat (asMillis (expireAt - (← instantNow)))
    | none => return -1
  else
    return -2

def ttl (key : Str) : StoreM Int64 := do
  let ms ← pttl key
  return if ms = -2 then -2 else if ms = -1 then -1 else ms / 1000

end Store

end FireRedis
