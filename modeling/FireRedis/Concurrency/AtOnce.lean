import FireRedis.Base.Linearizable
import FireRedis.Concurrency.Machine

/-!
# Commands that take effect at once

Where no key has a deadline and every key holds values of one type, the checks in
front of a command change nothing and come out the same at any time. A command
that then makes one call on the data map is linearizable among others, and so is
a removal that leaves something under its key.
-/

namespace FireRedis
open Std
open Program (AtOnce)

/-- No deadlines, and under each key values of its type. -/
structure Calm (kind : Str → Str) (s : Store) : Prop where
  deadlines : s.expirations = ∅
  kinds : ∀ (key : Str) v, s.data[key]? = some v → Store.typeName v = kind key

def StoredValue.isEmpty : StoredValue → Bool
  | .string _ => false
  | .list items => items.isEmpty
  | .set S => S.isEmpty
  | .hash H => H.isEmpty
  | .sortedSet z => z.scores.isEmpty

namespace Command

/-- One call on the data map does all that the command does to a key of its type. -/
def Single (kind : Str → Str) : Command → Prop
  | .ping | .echo _ | .quit | .del [_] | .exists [_] | .mGet [_] | .ttl _ | .pttl _
  | .type _ => True
  | .get k | .strLen k | .incr k | .decr k | .append k _ | .set k _ none .none | .mSet [(k, _)] =>
    kind k = Str.lit "string"
  | .lPush k [_] | .rPush k [_] | .lPop k | .rPop k | .lLen k | .lIndex k _ | .lRange k _ _ =>
    kind k = Str.lit "list"
  | .sAdd k _ | .sRem k _ | .sMembers k | .sIsMember k _ | .sCard k | .sPop k _ =>
    kind k = Str.lit "set"
  | .hSet k [_] | .hGet k _ | .hDel k _ | .hLen k | .hExists k _ | .hKeys k | .hVals k
  | .hGetAll k => kind k = Str.lit "hash"
  | .zAdd k [_] | .zRange k _ _ | .zRevRange k _ _ | .zScore k _ | .zRem k _ | .zCard k
  | .zCount k _ _ => kind k = Str.lit "zset"
  | _ => False

/-- A removal has left something under its key. -/
def Leaves : Command → Store → Prop
  | .lPop k, s | .rPop k, s | .sRem k _, s | .sPop k _, s | .hDel k _, s | .zRem k _, s =>
    ∀ v, s.data[k]? = some v → v.isEmpty = false
  | _, _ => True

end Command

section Rules

variable (kind : Str → Str) (now : Reading) (P : Store → Prop)

/-- Among others the program takes effect at once, as it does alone. -/
def Quick {α : Type} (m : StoreM α) : Prop :=
  m.AtOnce Call.run (Calm kind) P (m.runAt now)

variable {kind now P} {α β : Type} {key : Str}

theorem Calm.expirations {s : Store} (hs : Calm kind s) (key : Str) :
    s.expirations[key]? = none := by
  rw [hs.deadlines]
  exact ExtTreeMap.getElem?_empty

theorem Calm.alter {s : Store} (hs : Calm kind s) {f : Option StoredValue → Option StoredValue}
    (hf : ∀ v, f s.data[key]? = some v → Store.typeName v = kind key) :
    Calm kind { s with data := s.data.alter key f } := by
  refine ⟨hs.deadlines, fun j v hv => ?_⟩
  by_cases hj : key = j
  · subst hj
    rw [show (Store.mk (s.data.alter key f) s.expirations).data = s.data.alter key f from rfl,
      ExtTreeMap.getElem?_alter_self] at hv
    exact hf v hv
  · exact hs.kinds j v ((ExtTreeMap.getElem?_alter_ne s.data f hj).symm.trans hv)

/-! ### Calls -/

theorem quick_pure (a : α) : Quick kind now P (pure a : StoreM α) := fun _ _ => rfl

theorem quick_expirationsGet {f : Option Instant → StoreM β} (hf : Quick kind now P (f none)) :
    Quick kind now P (expirationsGet key >>= f) := by
  show Quick kind now P (Program.call (.expirations (.get key)) f)
  exact AtOnce.silent (fun t s hs => ⟨rfl, congrArg f (hs.expirations key)⟩) hf

/-- A reading of the data map whose answer makes no difference. -/
theorem quick_dataGet {f : Option StoredValue → StoreM β} {m : StoreM β}
    (hf : ∀ v, (∀ value, v = some value → Store.typeName value = kind key) → f v = m)
    (hm : Quick kind now P m) : Quick kind now P (dataGet key >>= f) := by
  show Quick kind now P (Program.call (.data (.get key)) f)
  exact AtOnce.silent (fun t s hs => ⟨rfl, hf _ fun value hv => hs.kinds key value hv⟩) hm

/-- A reading of the data map that is all the program does. -/
theorem quick_read {f : Option StoredValue → StoreM β}
    (hf : ∀ v, ∃ r, (f v).Settled Call.run (Calm kind) r) :
    Quick kind now P (dataGet key >>= f) := by
  show Quick kind now P (Program.call (.data (.get key)) f)
  exact AtOnce.effect fun t s hs _ => ⟨rfl, hs, hf _⟩

theorem quick_alter {f : Option StoredValue → Option StoredValue}
    {g : Option StoredValue → StoreM β}
    (hkind : ∀ old v, (∀ value, old = some value → Store.typeName value = kind key) →
      f old = some v → Store.typeName v = kind key)
    (hg : ∀ s, Calm kind s → P { s with data := s.data.alter key f } →
      ∃ r, (g s.data[key]?).Settled Call.run (Calm kind) r) :
    Quick kind now P (dataAlter key f >>= g) := by
  show Quick kind now P (Program.call (.data (.alter key f)) g)
  refine AtOnce.effect fun t s hs hnext => ⟨rfl, ?_, hg s hs hnext⟩
  exact hs.alter fun v hv => hkind _ v (fun value hvalue => hs.kinds key value hvalue) hv

theorem settled_pure (a : α) : ∃ r, (pure a : StoreM α).Settled Call.run (Calm kind) r :=
  ⟨.ok a, rfl⟩

/-- A deadline that is not there is removed. -/
theorem settled_expirationsRemove {f : Option Instant → StoreM β}
    (hf : ∃ r, (f none).Settled Call.run (Calm kind) r) :
    ∃ r, (expirationsRemove key >>= f).Settled Call.run (Calm kind) r := by
  obtain ⟨r, hr⟩ := hf
  refine ⟨r, fun t s hs => ⟨?_, ?_⟩⟩
  · show Store.mk s.data (s.expirations.alter key fun _ => none) = s
    refine Store.ext (fun j => rfl) fun j => ?_
    by_cases hj : key = j
    · subst hj
      have hnone := hs.expirations key
      exact ExtTreeMap.getElem?_alter_self.trans hnone.symm
    · exact ExtTreeMap.getElem?_alter_ne s.expirations (fun _ => none) hj
  · show (f s.expirations[key]?).Settled Call.run (Calm kind) r
    rw [hs.expirations key]
    exact hr

theorem settled_expirationsGet {f : Option Instant → StoreM β}
    (hf : ∃ r, (f none).Settled Call.run (Calm kind) r) :
    ∃ r, (expirationsGet key >>= f).Settled Call.run (Calm kind) r := by
  obtain ⟨r, hr⟩ := hf
  refine ⟨r, fun t s hs => ⟨rfl, ?_⟩⟩
  show (f s.expirations[key]?).Settled Call.run (Calm kind) r
  rw [hs.expirations key]
  exact hr

/-! ### Store methods -/

theorem quick_check {f : Bool → StoreM β} (hf : Quick kind now P (f false)) :
    Quick kind now P (Store.checkExpiration key >>= f) := by
  rw [Store.checkExpiration, bind_assoc]
  exact quick_expirationsGet hf

theorem quick_lookup {f : Option StoredValue → StoreM β}
    (hf : ∀ v, ∃ r, (f v).Settled Call.run (Calm kind) r) :
    Quick kind now P (Store.lookup key >>= f) := by
  rw [Store.lookup, bind_assoc]
  exact quick_check (quick_read hf)

theorem quick_view {absent : α} {f : StoredValue → StoreM α} {g : α → StoreM β}
    (habsent : ∃ r, (g absent).Settled Call.run (Calm kind) r)
    (hf : ∀ v, ∃ r, (f v >>= g).Settled Call.run (Calm kind) r) :
    Quick kind now P (Store.view key absent f >>= g) := by
  rw [Store.view, bind_assoc]
  refine quick_lookup fun v => ?_
  cases v with
  | none => exact habsent
  | some v => exact hf v

theorem quick_upsert {init : StoredValue} {f : StoredValue → α × StoredValue} {g : α → Value}
    (hinit : Store.typeName init = kind key)
    (hf : ∀ v, Store.typeName (f v).2 = Store.typeName v) :
    Quick kind now P (Store.upsert key init f >>= fun a => pure (g a)) := by
  rw [Store.upsert, bind_assoc]
  refine quick_check ?_
  rw [bind_assoc]
  refine quick_alter (fun old v hold hv => ?_) fun s _ _ => settled_pure _
  rw [← Option.some.inj hv, hf]
  cases old with
  | none => exact hinit
  | some value => exact hold value rfl

theorem quick_amend {absent : α} {f : StoredValue → α × StoredValue × Bool} {g : α → Value}
    (hf : ∀ v, Store.typeName (f v).2.1 = Store.typeName v)
    (hleft : ∀ v, (f v).2.2 = true → (f v).2.1.isEmpty = true)
    (hP : ∀ s, P s → ∀ v, s.data[key]? = some v → v.isEmpty = false) :
    Quick kind now P (Store.amend key absent f >>= fun a => pure (g a)) := by
  rw [Store.amend, bind_assoc]
  refine quick_check ?_
  show Quick kind now P ((dataAlter key _ >>= _) >>= _)
  rw [bind_assoc]
  refine quick_alter (fun old v hold hv => ?_) fun s hs hnext => ?_
  · obtain ⟨value, hvalue, rfl⟩ := Option.map_eq_some_iff.mp hv
    rw [hf]
    exact hold value hvalue
  · cases hold : s.data[key]? with
    | none => exact settled_pure _
    | some value =>
      have hstays : (f value).2.2 = false := by
        by_contra hempty
        have hnew := hP _ hnext (f value).2.1 (by
          rw [show (Store.mk (s.data.alter key _) s.expirations).data = s.data.alter key _ from rfl,
            ExtTreeMap.getElem?_alter_self, hold]
          rfl)
        rw [hleft value (by simpa using hempty)] at hnew
        cases hnew
      refine ⟨.ok (g (f value).1), ?_⟩
      show (Program.bind (if (f value).2.2 then _ else _) _).Settled Call.run (Calm kind) _
      rw [hstays]
      rfl

theorem quick_typed {expected : String} {body : StoreM Value}
    (hkind : kind key = Str.lit expected) (hbody : Quick kind now P body) :
    Quick kind now P (withType key expected body) := by
  rw [withType, ensureType, Store.typeOf, Store.lookup]
  simp only [bind_assoc]
  refine quick_check ?_
  refine quick_dataGet (m := body) (fun v hv => ?_) hbody
  cases v with
  | none => rfl
  | some value =>
    have hactual : Store.typeName value = Str.lit expected := (hv value rfl).trans hkind
    simp [hactual]

/-- A typed read whose reply is computed from what the method returns. -/
theorem quick_typedRead {expected : String} {absent : α} {f : StoredValue → StoreM α}
    {reply : α → Value} (hkind : kind key = Str.lit expected)
    (hf : ∀ v, ∃ r, (f v >>= fun a => pure (reply a)).Settled Call.run (Calm kind) r) :
    Quick kind now P (withType key expected do return reply (← Store.view key absent f)) :=
  quick_typed hkind (quick_view (settled_pure _) hf)

theorem settled_fault (e : Panic) :
    ∃ r, (.fault e : StoreM α).Settled Call.run (Calm kind) r :=
  ⟨.error e, rfl⟩

theorem settled_listRange (items : List Bytes) (start stop : Int64) (g : List Bytes → Value) :
    ∃ r, (Store.listRange items start stop >>= fun a => pure (g a)).Settled Call.run
      (Calm kind) r := by
  simp only [Store.listRange]
  split
  · exact settled_pure _
  · split
    · exact settled_fault _
    · exact settled_pure _

theorem settled_countBetween (minScore maxScore : F64) (tree : ExtTreeMap F64 Bucket)
    (g : ℕ → Value) : ∃ r, (Store.countBetween minScore maxScore tree >>=
      fun a => pure (g a)).Settled Call.run (Calm kind) r := by
  rw [Store.countBetween]
  split
  · exact settled_fault _
  · exact settled_pure _

/-! ### Key commands -/

theorem quick_exists {g : Bool → StoreM β}
    (hg : ∀ b, ∃ r, (g b).Settled Call.run (Calm kind) r) :
    Quick kind now P (Store.existsKey key >>= g) := by
  rw [Store.existsKey, bind_assoc]
  exact quick_lookup fun v => hg v.isSome

theorem quick_set {value : Bytes} (hkind : kind key = Str.lit "string") {g : Unit → StoreM β}
    (hg : ∃ r, (g ()).Settled Call.run (Calm kind) r) :
    Quick kind now P (Store.set key value none >>= g) := by
  rw [Store.set, bind_assoc]
  refine quick_alter (fun old v _ hv => ?_) fun s _ _ => ?_
  · rw [← Option.some.inj hv]
    exact hkind.symm
  · rw [Store.setExpiration, bind_assoc]
    exact settled_expirationsRemove hg

theorem quick_plainSet (value : Bytes) (hkind : kind key = Str.lit "string") :
    Quick kind now P (handleSet key value none .none) := by
  rw [handleSet, Store.existsKey, Store.lookup]
  simp only [bind_assoc]
  refine quick_check ?_
  refine quick_dataGet (m := Store.set key value none >>= fun _ => pure ok) (fun v _ => ?_)
    (quick_set hkind (settled_pure _))
  simp

theorem quick_del : Quick kind now P (handleDel [key]) := by
  rw [handleDel, Store.del, List.foldlM_cons]
  simp only [bind_assoc]
  refine quick_alter (fun old v _ hv => ?_) fun s _ _ => ?_
  · cases hv
  · refine settled_expirationsRemove ?_
    rw [pure_bind, List.foldlM_nil, pure_bind]
    exact settled_pure _

theorem quick_pttl {g : Int64 → Value} :
    Quick kind now P (Store.pttl key >>= fun n => pure (g n)) := by
  rw [Store.pttl, bind_assoc]
  refine quick_exists fun present => ?_
  cases present with
  | false => exact settled_pure _
  | true =>
    show ∃ r, ((expirationsGet key >>= _) >>= _).Settled Call.run (Calm kind) r
    rw [bind_assoc]
    exact settled_expirationsGet (settled_pure _)

end Rules

/-! ### Types that stay -/

section Types

variable (v : StoredValue)

theorem typeName_addToString (delta : Int64) :
    Store.typeName (Store.addToString delta v).2 = Store.typeName v := by
  cases v with
  | string b =>
    rw [Store.addToString]
    split
    · rfl
    · split
      · rfl
      · split <;> rfl
  | _ => rfl

theorem typeName_appendBytes (value : Bytes) :
    Store.typeName (Store.appendBytes value v).2 = Store.typeName v := by cases v <;> rfl

theorem typeName_pushFront (value : Bytes) :
    Store.typeName (Store.pushFront value v).2 = Store.typeName v := by cases v <;> rfl

theorem typeName_pushBack (value : Bytes) :
    Store.typeName (Store.pushBack value v).2 = Store.typeName v := by cases v <;> rfl

theorem typeName_addToSet (members : List Bytes) :
    Store.typeName (Store.addToSet members v).2 = Store.typeName v := by cases v <;> rfl

theorem typeName_setField (field : Str) (value : Bytes) :
    Store.typeName (Store.setField field value v).2 = Store.typeName v := by cases v <;> rfl

theorem typeName_addToSortedSet (score : F64) (member : Bytes) :
    Store.typeName (Store.addToSortedSet score member v).2 = Store.typeName v := by cases v <;> rfl

end Types

/-- A removal keeps the type, and says that the key is to go only if nothing is left. -/
structure Removal {α : Type} (f : StoredValue → α × StoredValue × Bool) : Prop where
  typeName : ∀ v, Store.typeName (f v).2.1 = Store.typeName v
  gone : ∀ v, (f v).2.2 = true → (f v).2.1.isEmpty = true

theorem removal_popFront : Removal Store.popFront :=
  ⟨fun v => by cases v <;> rfl, fun v h => by cases v <;> first | exact h | cases h⟩

theorem removal_popBack : Removal Store.popBack :=
  ⟨fun v => by cases v <;> rfl, fun v h => by cases v <;> first | exact h | cases h⟩

theorem removal_removeFromSet (members : List Bytes) : Removal (Store.removeFromSet members) :=
  ⟨fun v => by cases v <;> rfl, fun v h => by cases v <;> first | exact h | cases h⟩

theorem removal_popFromSet (ord : IterOrder) (n : ℕ) : Removal (Store.popFromSet ord n) :=
  ⟨fun v => by cases v <;> rfl, fun v h => by cases v <;> first | exact h | cases h⟩

theorem removal_removeFromHash (fields : List Str) : Removal (Store.removeFromHash fields) :=
  ⟨fun v => by cases v <;> rfl, fun v h => by cases v <;> first | exact h | cases h⟩

theorem removal_removeFromSortedSet (members : List Bytes) :
    Removal (Store.removeFromSortedSet members) :=
  ⟨fun v => by cases v <;> rfl, fun v h => by cases v <;> first | exact h | cases h⟩

/-! ### Commands -/

section Execute

variable {kind : Str → Str} {now : Reading} {key : Str}

theorem quick_counter {P : Store → Prop} (delta : Int64) (hkind : kind key = Str.lit "string") :
    Quick kind now P (Store.adjustCounter key delta >>= fun r => pure (counterReply r)) :=
  quick_upsert hkind.symm fun v => typeName_addToString v delta

theorem quick_removal {α : Type} {expected : String} {absent : α}
    {f : StoredValue → α × StoredValue × Bool} (hf : Removal f) {reply : α → Value}
    (hkind : kind key = Str.lit expected) :
    Quick kind now (fun s => ∀ v, s.data[key]? = some v → v.isEmpty = false)
      (withType key expected do return reply (← Store.amend key absent f)) :=
  quick_typed hkind (quick_amend hf.typeName hf.gone fun _ h => h)

/-- An update in a loop over one item. -/
theorem quick_upsertOne {P : Store → Prop} {α : Type} {expected : String} (init : StoredValue)
    (f : StoredValue → α × StoredValue) (g : α → Value) {body : StoreM Value}
    (hkind : kind key = Str.lit expected) (hinit : Store.typeName init = kind key)
    (hf : ∀ v, Store.typeName (f v).2 = Store.typeName v)
    (hbody : body = Store.upsert key init f >>= fun a => pure (g a)) :
    Quick kind now P (withType key expected body) := by
  rw [hbody]
  exact quick_typed hkind (quick_upsert hinit hf)

/-- A typed read that always returns. -/
theorem quick_reading {P : Store → Prop} {α : Type} {expected : String} {absent : α}
    {f : StoredValue → StoreM α} {reply : α → Value} (hkind : kind key = Str.lit expected)
    (hf : ∀ v, ∃ a, f v = pure a) :
    Quick kind now P (withType key expected do return reply (← Store.view key absent f)) := by
  refine quick_typedRead hkind fun v => ?_
  obtain ⟨a, ha⟩ := hf v
  rw [ha, pure_bind]
  exact settled_pure _

theorem quick_execute (F : FloatText) (ord : IterOrder) (info : Bytes) (cmd : Command)
    (h : cmd.Single kind) : Quick kind now cmd.Leaves (cmd.execute F ord info) := by
  unfold Command.Single at h
  split at h
  · exact quick_pure _
  · exact quick_pure _
  · exact quick_pure _
  · exact quick_del
  · rw [Command.execute, handleExists, List.foldlM_cons, bind_assoc, bind_assoc]
    exact quick_exists fun b => settled_pure _
  · rw [Command.execute, handleMget, List.mapM_cons]
    simp only [bind_assoc]
    exact quick_view (settled_pure _) fun v => by cases v <;> exact settled_pure _
  · rw [Command.execute, handleTtl, Store.ttl, bind_assoc]
    exact quick_pttl
  · exact quick_pttl
  · rw [Command.execute, handleType, Store.typeOf, bind_assoc]
    exact quick_lookup fun v => settled_pure _
  · exact quick_reading h fun v => by cases v <;> exact ⟨_, rfl⟩
  · exact quick_reading h fun v => by cases v <;> exact ⟨_, rfl⟩
  · exact quick_counter 1 h
  · exact quick_counter (-1) h
  · exact quick_typed h (quick_upsert h.symm fun v => typeName_appendBytes v _)
  · exact quick_plainSet _ h
  · rw [Command.execute, handleMset, List.foldlM_cons, bind_assoc]
    exact quick_set h (settled_pure _)
  · rename_i k value
    exact quick_upsertOne (.list []) (Store.pushFront value) count h h.symm
      (fun v => typeName_pushFront v value) (by simp [Store.lPush])
  · rename_i k value
    exact quick_upsertOne (.list []) (Store.pushBack value) count h h.symm
      (fun v => typeName_pushBack v value) (by simp [Store.rPush])
  · exact quick_removal removal_popFront h
  · exact quick_removal removal_popBack h
  · exact quick_reading h fun v => by cases v <;> exact ⟨_, rfl⟩
  · exact quick_reading h fun v => by cases v <;> exact ⟨_, rfl⟩
  · refine quick_typedRead h fun v => ?_
    cases v with
    | list items => exact settled_listRange items _ _ _
    | _ => exact settled_pure _
  · exact quick_typed h (quick_upsert h.symm fun v => typeName_addToSet v _)
  · exact quick_removal (removal_removeFromSet _) h
  · exact quick_reading h fun v => by cases v <;> exact ⟨_, rfl⟩
  · exact quick_reading h fun v => by cases v <;> exact ⟨_, rfl⟩
  · exact quick_reading h fun v => by cases v <;> exact ⟨_, rfl⟩
  · rename_i n
    cases n with
    | some n => exact quick_removal (removal_popFromSet ord n) h
    | none => exact quick_removal (removal_popFromSet ord 1) h
  · rename_i k entry
    exact quick_upsertOne (.hash ∅) (Store.setField entry.1 entry.2)
      (fun new => .integer (if new then 1 else 0)) h h.symm (fun v => typeName_setField v _ _)
      (by simp [Store.hSet])
  · exact quick_reading h fun v => by cases v <;> exact ⟨_, rfl⟩
  · exact quick_removal (removal_removeFromHash _) h
  · exact quick_reading h fun v => by cases v <;> exact ⟨_, rfl⟩
  · exact quick_reading h fun v => by cases v <;> exact ⟨_, rfl⟩
  · exact quick_reading h fun v => by cases v <;> exact ⟨_, rfl⟩
  · exact quick_reading h fun v => by cases v <;> exact ⟨_, rfl⟩
  · exact quick_reading h fun v => by cases v <;> exact ⟨_, rfl⟩
  · rename_i k entry
    exact quick_upsertOne (.sortedSet ⟨∅, ∅⟩) (Store.addToSortedSet entry.1 entry.2)
      (fun new => .integer (if new then 1 else 0)) h h.symm
      (fun v => typeName_addToSortedSet v _ _) (by simp [Store.zAdd])
  · exact quick_reading h fun v => by cases v <;> exact ⟨_, rfl⟩
  · exact quick_reading h fun v => by cases v <;> exact ⟨_, rfl⟩
  · exact quick_reading h fun v => by cases v <;> exact ⟨_, rfl⟩
  · exact quick_removal (removal_removeFromSortedSet _) h
  · exact quick_reading h fun v => by cases v <;> exact ⟨_, rfl⟩
  · refine quick_typedRead h fun v => ?_
    cases v with
    | sortedSet z => exact settled_countBetween _ _ _ _
    | _ => exact settled_pure _
  · exact h.elim

end Execute

/-! ### Requests and evictions -/

/-- A request of a client, with the iteration order and the INFO text it meets, or
a turn of the background eviction. -/
inductive Job where
  | request (frame : Value) (ord : IterOrder) (info : Bytes)
  | eviction

namespace Job

def program (F : FloatText) : Job → StoreM Value
  | request frame ord info => respond F ord info frame
  | eviction => do return count (← Store.evictExpired)

def Fits (F : FloatText) (kind : Str → Str) : Job → Prop
  | request frame _ _ => ∀ cmd, ParsesTo F frame cmd → cmd.Single kind
  | eviction => True

def Leaves (F : FloatText) : Job → Store → Prop
  | request frame _ _, s => ∀ cmd, ParsesTo F frame cmd → cmd.Leaves s
  | eviction, _ => True

end Job

section Jobs

variable (F : FloatText) {kind : Str → Str} {now : Reading}

/-- Without deadlines there is nothing to evict. -/
theorem quick_eviction :
    Quick kind now (Job.Leaves F .eviction) (Job.program F .eviction) := by
  have hnothing : ∀ t : Instant, ((((∅ : ExtTreeMap Str Instant).toList.filter fun e =>
      t ≥ e.2).map Prod.fst).foldlM (fun evicted key => do
        let removed ← dataRemove key
        let _ ← expirationsRemove key
        return if removed.isSome then evicted + 1 else evicted) 0 : StoreM ℕ) = pure 0 := by
    intro t
    rfl
  have halone : ∀ s, Calm kind s →
      (Job.program F .eviction).runAt now s = (.ok (count 0), s) := by
    intro s hs
    rw [Job.program, runAt_bind, Store.evictExpired, runAt_bind, runAt_instantNow]
    simp only [runAt_bind, runAt_expirationsIter, hs.deadlines, hnothing, runAt_pure]
  intro t s hs _
  refine Or.inl ⟨rfl, fun t' s' hs' _ => Or.inl ⟨rfl, ?_⟩⟩
  show AtOnce Call.run (Calm kind) _ _ (Program.bind (((s'.expirations.toList.filter fun e =>
    t.instant ≥ e.2).map Prod.fst).foldlM _ 0) _)
  rw [hs'.deadlines, hnothing]
  exact halone

theorem quick_job (job : Job) (h : job.Fits F kind) :
    Quick kind now (job.Leaves F) (job.program F) := by
  cases job with
  | eviction => exact quick_eviction F
  | request frame ord info =>
    rcases request_cases F frame with ⟨args, cmd, rfl, hparse⟩ | ⟨reply, hrejected⟩
    · have hcmd : ParsesTo F (.array (some args)) cmd := ⟨args, rfl, hparse⟩
      rw [Job.program, respond_parsed F ord info hparse]
      exact (quick_execute F ord info cmd (h cmd hcmd)).mono fun s hs => hs cmd hcmd
    · rw [Job.program, hrejected.respond]
      exact quick_pure _

end Jobs

/-- In every run of clients and evictions whose calls mix in any order, on keys
without deadlines that are used for one type each, the replies are those of the
commands executed one by one, each between its request and its reply, as long as
no removal takes the last element. -/
theorem single_commands_linearizable {ι : Type} [DecidableEq ι] (F : FloatText)
    (kind : Str → Str) (now : Reading) (s₀ : Store) (hs₀ : Calm kind s₀)
    (m : Service ι Job Call Call.Answer Panic Value Store)
    (h : System.Runs (Service.step Call.run (Job.program F))
      (Service.guard Call.run (Job.Fits F kind) (Job.Leaves F)) (Service.start s₀) m) :
    Linearizable (fun job s => (job.program F).runAt now s) s₀ m.log m.state ∧
      Calm kind m.state :=
  Service.linearizable (fun job hjob => quick_job F job hjob) hs₀ h

namespace Job

def incrK : Job := .request (commandValue "INCR" [Str.utf8 "k"]) .sorted []

/-- Both clients check the deadline before one of them adds. -/
def mixed : List (Service.Turn Bool Job Reading) :=
  [.send false incrK, .send true incrK, .call false ⟨0, 0⟩, .call true ⟨0, 0⟩, .call true ⟨0, 0⟩,
    .call false ⟨0, 0⟩, .finish false, .finish true]

def mixedLog : List (Mark Bool Job (Except Panic Value)) :=
  [.sent false incrK, .sent true incrK, .ended false incrK (.ok (.integer 2)),
    .ended true incrK (.ok (.integer 1))]

theorem incrK_single {cmd : Command}
    (h : ParsesTo noFloats (commandValue "INCR" [Str.utf8 "k"]) cmd) :
    cmd = .incr (Str.lit "k") := by
  obtain ⟨args, hargs, hparse⟩ := h
  have hknown : tryFrom noFloats [bulk (Str.utf8 "INCR"), bulk (Str.utf8 "k")] =
      .ok (.incr (Str.lit "k")) := rfl
  cases hargs
  exact Except.ok.inj (hparse.symm.trans hknown)

end Job

open Job in
theorem single_commands_linearizable_mixed :
    ∃ m : Service Bool Job Call Call.Answer Panic Value Store, m.log = mixedLog ∧
      Linearizable (fun job s => (job.program noFloats).runAt ⟨0, 0⟩ s) Store.empty
        mixedLog m.state := by
  have hcalm : Calm (fun _ => Str.lit "string") Store.empty :=
    ⟨rfl, fun key v h => by simp [Store.empty] at h⟩
  have hfits : incrK.Fits noFloats fun _ => Str.lit "string" := by
    intro cmd hcmd
    rw [incrK_single hcmd]
    rfl
  have hleaves : ∀ s, incrK.Leaves noFloats s := by
    intro s cmd hcmd
    rw [incrK_single hcmd]
    trivial
  have hallowed : System.Allowed (Service.step Call.run (Job.program noFloats))
      (Service.guard Call.run (Job.Fits noFloats fun _ => Str.lit "string") (Job.Leaves noFloats))
      mixed (Service.start Store.empty) := by
    refine ⟨hfits, hfits, ?_, ?_, ?_, ?_, trivial, trivial, trivial⟩
    all_goals
      intro k c f hbusy
      cases hbusy
      exact hleaves _
  have hruns := System.runs_follow hallowed rfl
  have hlinear := (single_commands_linearizable noFloats _ ⟨0, 0⟩ _ hcalm _ hruns).1
  exact ⟨_, rfl, hlinear⟩

end FireRedis
