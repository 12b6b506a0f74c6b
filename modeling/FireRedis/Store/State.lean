import FireRedis.Base.Float64
import FireRedis.Base.Program

/-!
# The store and the calls on it (store/mod.rs)

The store is two concurrent maps, values and deadlines. A `Call` is what one
`DashMap` call or entry guard does, or one reading of a clock; store methods
and command handlers are programs over these calls. `Call.run` answers them
while both clocks stand still.
-/

namespace FireRedis
open Std

abbrev Bucket := ExtTreeSet Bytes

structure SortedSet where
  scores : ExtTreeMap Bytes F64
  tree : ExtTreeMap F64 Bucket

inductive StoredValue where
  | string (b : Bytes)
  | list (items : List Bytes)
  | set (members : ExtTreeSet Bytes)
  | hash (fields : ExtTreeMap Str Bytes)
  | sortedSet (z : SortedSet)

/-- Nanoseconds since some origin. -/
abbrev Instant := ℕ

/-- `Duration::from_millis`. -/
def fromMillis (ms : UInt64) : ℕ := ms.toNat * 1000000

/-- `Duration::as_millis`. -/
def asMillis (d : ℕ) : ℕ := d / 1000000

theorem asMillis_exact {t d : ℕ} (hlt : t < d) (hwhole : 1000000 ∣ d - t) :
    0 < asMillis (d - t) ∧ t + asMillis (d - t) * 1000000 = d := by
  obtain ⟨k, hk⟩ := hwhole
  have hms : asMillis (d - t) = k := by
    rw [asMillis, hk]
    omega
  rw [hms]
  omega

structure Store where
  data : ExtTreeMap Str StoredValue
  expirations : ExtTreeMap Str Instant

def Store.empty : Store := ⟨∅, ∅⟩

/-- The monotonic clock and the Unix time in milliseconds. -/
structure Reading where
  instant : Instant
  unixMs : UInt64

/-- What stops the running task. -/
inductive Panic where
  | rangeOutOfBounds
  | capacityOverflow
  | indexOutOfBounds
  deriving DecidableEq

/-! ### Calls -/

/-- One call on a concurrent map. `alter` is an insertion, a removal or the
scope of an entry guard; it answers the value that was there. -/
inductive MapCall (V : Type) where
  | get (key : Str)
  | alter (key : Str) (f : Option V → Option V)
  | iter
  | clear

def MapCall.Answer (V : Type) : MapCall V → Type
  | .get _ => Option V
  | .alter _ _ => Option V
  | .iter => ExtTreeMap Str V
  | .clear => Unit

def MapCall.run {V : Type} : (c : MapCall V) → ExtTreeMap Str V → c.Answer V × ExtTreeMap Str V
  | .get key, m => (m[key]?, m)
  | .alter key f, m => (m[key]?, m.alter key f)
  | .iter, m => (m, m)
  | .clear, _ => ((), ∅)

inductive Call where
  | instantNow
  | unixNow
  | data (c : MapCall StoredValue)
  | expirations (c : MapCall Instant)

def Call.Answer : Call → Type
  | .instantNow => Instant
  | .unixNow => UInt64
  | .data c => c.Answer StoredValue
  | .expirations c => c.Answer Instant

def Call.run (now : Reading) : (c : Call) → Store → c.Answer × Store
  | .instantNow, s => (now.instant, s)
  | .unixNow, s => (now.unixMs, s)
  | .data c, s => ((c.run s.data).1, { s with data := (c.run s.data).2 })
  | .expirations c, s =>
    ((c.run s.expirations).1, { s with expirations := (c.run s.expirations).2 })

abbrev StoreM := Program Call Call.Answer Panic

def StoreM.runAt {α : Type} (m : StoreM α) (now : Reading) (s : Store) :
    Except Panic α × Store := m.exec (Call.run now) s

def call (c : Call) : StoreM c.Answer := Program.ask c

def instantNow : StoreM Instant := call .instantNow
def unixNow : StoreM UInt64 := call .unixNow
def dataGet (key : Str) : StoreM (Option StoredValue) := call (.data (.get key))
def dataAlter (key : Str) (f : Option StoredValue → Option StoredValue) :
    StoreM (Option StoredValue) := call (.data (.alter key f))
def dataInsert (key : Str) (value : StoredValue) : StoreM (Option StoredValue) :=
  dataAlter key fun _ => some value
def dataRemove (key : Str) : StoreM (Option StoredValue) := dataAlter key fun _ => none
def dataIter : StoreM (ExtTreeMap Str StoredValue) := call (.data .iter)
def dataClear : StoreM Unit := call (.data .clear)
def expirationsGet (key : Str) : StoreM (Option Instant) := call (.expirations (.get key))
def expirationsInsert (key : Str) (expireAt : Instant) : StoreM (Option Instant) :=
  call (.expirations (.alter key fun _ => some expireAt))
def expirationsRemove (key : Str) : StoreM (Option Instant) :=
  call (.expirations (.alter key fun _ => none))
def expirationsIter : StoreM (ExtTreeMap Str Instant) := call (.expirations .iter)
def expirationsClear : StoreM Unit := call (.expirations .clear)

/-! ### Running the calls -/

section Run

variable {α β : Type} (now : Reading) (s : Store)

@[simp] theorem runAt_pure (a : α) : (pure a : StoreM α).runAt now s = (.ok a, s) := rfl

@[simp] theorem runAt_fault (e : Panic) :
    StoreM.runAt (Program.fault e : StoreM α) now s = (.error e, s) := rfl

theorem runAt_bind (m : StoreM α) (f : α → StoreM β) :
    (m >>= f).runAt now s =
      match m.runAt now s with
      | (.ok a, s') => (f a).runAt now s'
      | (.error e, s') => (.error e, s') := by
  simp only [StoreM.runAt, Program.exec_bind]
  rcases m.exec (Call.run now) s with ⟨_ | _, _⟩ <;> rfl

@[simp] theorem runAt_map (f : α → β) (m : StoreM α) :
    (f <$> m).runAt now s = ((m.runAt now s).1.map f, (m.runAt now s).2) := by
  rw [map_eq_pure_bind, runAt_bind]
  rcases m.runAt now s with ⟨_ | _, _⟩ <;> rfl

theorem runAt_bind_ok {m : StoreM α} {f : α → StoreM β} {s s' : Store} {a : α}
    (h : m.runAt now s = (.ok a, s')) : (m >>= f).runAt now s = (f a).runAt now s' :=
  Program.exec_bind_ok _ h

/-! Loops that only read the store. -/

theorem runAt_mapM {f : α → StoreM β} {g : α → β} (items : List α)
    (h : ∀ a ∈ items, (f a).runAt now s = (.ok (g a), s)) :
    (items.mapM f).runAt now s = (.ok (items.map g), s) := by
  induction items with
  | nil => rfl
  | cons a items ih =>
    have htail := ih fun b hb => h b (List.mem_cons_of_mem _ hb)
    rw [List.mapM_cons, runAt_bind_ok now (h a (List.mem_cons_self ..)), runAt_bind_ok now htail]
    rfl

theorem runAt_foldlM {f : β → α → StoreM β} {g : β → α → β} (items : List α)
    (h : ∀ b, ∀ a ∈ items, (f b a).runAt now s = (.ok (g b a), s)) (init : β) :
    (items.foldlM f init).runAt now s = (.ok (items.foldl g init), s) := by
  induction items generalizing init with
  | nil => rfl
  | cons a items ih =>
    rw [List.foldlM_cons, runAt_bind_ok now (h init a (List.mem_cons_self ..)), List.foldl_cons]
    exact ih (fun b x hx => h b x (List.mem_cons_of_mem _ hx)) (g init a)

@[simp] theorem runAt_instantNow : instantNow.runAt now s = (.ok now.instant, s) := rfl

@[simp] theorem runAt_unixNow : unixNow.runAt now s = (.ok now.unixMs, s) := rfl

@[simp] theorem runAt_dataGet (key : Str) :
    (dataGet key).runAt now s = (.ok s.data[key]?, s) := rfl

@[simp] theorem runAt_dataAlter (key : Str) (f : Option StoredValue → Option StoredValue) :
    (dataAlter key f).runAt now s =
      (.ok s.data[key]?, { s with data := s.data.alter key f }) := rfl

@[simp] theorem runAt_dataIter : dataIter.runAt now s = (.ok s.data, s) := rfl

@[simp] theorem runAt_dataClear : dataClear.runAt now s = (.ok (), { s with data := ∅ }) := rfl

@[simp] theorem runAt_expirationsGet (key : Str) :
    (expirationsGet key).runAt now s = (.ok s.expirations[key]?, s) := rfl

@[simp] theorem runAt_expirationsInsert (key : Str) (d : Instant) :
    (expirationsInsert key d).runAt now s = (.ok s.expirations[key]?,
      { s with expirations := s.expirations.alter key fun _ => some d }) := rfl

@[simp] theorem runAt_expirationsRemove (key : Str) :
    (expirationsRemove key).runAt now s = (.ok s.expirations[key]?,
      { s with expirations := s.expirations.alter key fun _ => none }) := rfl

@[simp] theorem runAt_expirationsIter :
    expirationsIter.runAt now s = (.ok s.expirations, s) := rfl

@[simp] theorem runAt_expirationsClear :
    expirationsClear.runAt now s = (.ok (), { s with expirations := ∅ }) := rfl

end Run

end FireRedis
