import FireRedis.Base.FiniteMaps
import FireRedis.Keyspace.Machine

/-!
# The keyspace of a store

Stored values are read as content, live entries as items. A handler that checks
the type of its key and then works on a collection does what a `Query` or an
`Edit` of the collection's slot says.
-/

namespace FireRedis
open Std Counted

def SortedSet.finmap (z : SortedSet) : Finmap fun _ : Bytes => F64 := z.scores.toFinmap

def StoredValue.content : StoredValue → Content
  | .string b => .string b
  | .list items => .list items
  | .set S => .set S.toFinset
  | .hash H => .hash H.toFinmap
  | .sortedSet z => .zset z.finmap

def Entry.item (e : Entry) : Item := ⟨e.value.content, e.deadline⟩

def Dataset.keyspace (D : Dataset) : Keyspace := fun key => (D key).map Entry.item

namespace Dataset

variable (D : Dataset) (key : Str)

theorem keyspace_update (e : Option Entry) :
    keyspace (Function.update D key e) = Function.update D.keyspace key (e.map Entry.item) := by
  funext j
  by_cases hj : j = key
  · rw [hj, keyspace, Function.update_self, Function.update_self]
  · rw [keyspace, Function.update_of_ne hj, Function.update_of_ne hj]
    rfl

theorem keyspace_content : D.keyspace.content key = (D key).map fun e => e.value.content := by
  rw [Keyspace.content, keyspace, Option.map_map]
  rfl

theorem keyspace_deadline : (D.keyspace key).bind Item.deadline = (D key).bind Entry.deadline := by
  rw [keyspace]
  cases D key <;> rfl

theorem isSome_keyspace : (D.keyspace key).isSome = (D key).isSome := by
  rw [keyspace, Option.isSome_map]

end Dataset

/-- What clients see of a store at an instant. -/
abbrev Store.keyspace (s : Store) (t : Instant) : Keyspace := (s.live t).keyspace

/-- How a program ended, seen as an outcome. -/
def outcome (t : Instant) (r : Except Panic Value × Store) : Outcome := (r.1, r.2.keyspace t)

theorem outcome_congr {t : Instant} {reply : Except Panic Value} {s s' : Store}
    (h : s'.live t = s.live t) : outcome t (reply, s') = (reply, s.keyspace t) := by
  rw [outcome, Store.keyspace, h]

/-! ### Stores with one key changed -/

section Put

variable {P : StoredValue → Prop} {s : Store} (hs : s.Inv P) (t : Instant) (key : Str)

theorem keyspace_removed : (s.put key none none).keyspace t = (s.keyspace t).put key none := by
  rw [Store.keyspace, Store.live_put, Dataset.keyspace_update]
  rfl

include hs

theorem keyspace_stored (v : StoredValue) :
    (s.put key (some v) (s.pending t key)).keyspace t =
      (s.keyspace t).put key (some v.content) := by
  have hlive : liveOf t (some v) (s.pending t key) = some ⟨v, s.pending t key⟩ :=
    Store.liveOf_pending t s.expirations[key]? v
  rw [Store.keyspace, Store.live_put, hlive, Dataset.keyspace_update, Keyspace.put,
    Dataset.keyspace_deadline, ← Store.pending_eq hs]
  rfl

theorem keyspace_kept {e : Entry} (he : s.live t key = some e) (v : StoredValue) :
    (s.put key (some v) e.deadline).keyspace t = (s.keyspace t).put key (some v.content) := by
  rw [← Store.pending_of_live he]
  exact keyspace_stored hs t key v

end Put

theorem Keyspace.put_absent {D : Keyspace} {key : Str} (h : D key = none) : D.put key none = D := by
  have hself := Function.update_eq_self key D
  rw [h] at hself
  exact hself

/-! ### Types of collections -/

/-- The slot shows the collections of the type through `f`. -/
structure Kind.Shown {σ α : Type} (K : Kind σ) (L : Slot α) (f : σ → α) : Prop where
  absent : L.sees none = some (f K.fresh)
  present : ∀ x, L.sees (some (K.wrap x).content) = some (f x)
  other : ∀ v, (∀ x, v ≠ K.wrap x) → L.sees (some v.content) = none
  leaves : ∀ x, L.leaves (f x) = if K.isEmpty x then none else some (K.wrap x).content

theorem list_shown : Kind.list.Shown .list id where
  absent := rfl
  present _ := rfl
  other v h := by
    cases v with
    | list items => exact absurd rfl (h items)
    | _ => rfl
  leaves items := by cases items <;> rfl

theorem set_shown : Kind.set.Shown .set ExtTreeSet.toFinset where
  absent := by
    show some ∅ = some (∅ : ExtTreeSet Bytes).toFinset
    rw [(ExtTreeSet.toFinset_eq_empty ∅).mpr rfl]
  present _ := rfl
  other v h := by
    cases v with
    | set S => exact absurd rfl (h S)
    | _ => rfl
  leaves S := by
    show (if S.toFinset = ∅ then none else some (Content.set S.toFinset)) =
      if S.isEmpty = true then none else some (Content.set S.toFinset)
    simp only [ExtTreeSet.toFinset_eq_empty]

theorem hash_shown : Kind.hash.Shown .hash ExtTreeMap.toFinmap where
  absent := by
    show some ∅ = some (∅ : ExtTreeMap Str Bytes).toFinmap
    rw [ExtTreeMap.toFinmap_empty]
  present _ := rfl
  other v h := by
    cases v with
    | hash H => exact absurd rfl (h H)
    | _ => rfl
  leaves H := by
    show (if H.toFinmap.keys = ∅ then none else some (Content.hash H.toFinmap)) =
      if H.isEmpty = true then none else some (Content.hash H.toFinmap)
    simp only [ExtTreeMap.keys_toFinmap_eq_empty]

theorem zset_shown : Kind.zset.Shown .zset SortedSet.finmap where
  absent := by
    show some ∅ = some (∅ : ExtTreeMap Bytes F64).toFinmap
    rw [ExtTreeMap.toFinmap_empty]
  present _ := rfl
  other v h := by
    cases v with
    | sortedSet z => exact absurd rfl (h z)
    | _ => rfl
  leaves z := by
    show (if z.scores.toFinmap.keys = ∅ then none else some (Content.zset z.finmap)) =
      if z.scores.isEmpty = true then none else some (Content.zset z.finmap)
    simp only [ExtTreeMap.keys_toFinmap_eq_empty]

namespace Kind.Shown

variable {σ α : Type} {K : Kind σ} {L : Slot α} {f : σ → α} (h : K.Shown L f)
  {P : StoredValue → Prop} {s : Store} (hs : s.Inv P) (now : Reading) (key : Str)
include h

theorem sees {t : Instant} {x : σ} (hx : K.Under s t key x) :
    L.sees ((s.keyspace t).content key) = some (f x) := by
  rw [Store.keyspace, Dataset.keyspace_content]
  unfold Kind.Under at hx
  cases he : s.live t key with
  | none =>
    rw [he] at hx
    rw [show x = K.fresh from hx]
    exact h.absent
  | some e =>
    rw [he] at hx
    rw [Option.map_some, show e.value = K.wrap x from hx]
    exact h.present x

theorem blind {t : Instant} {e : Entry} (he : s.live t key = some e)
    (hne : Store.typeName e.value ≠ Str.lit K.name) :
    L.sees ((s.keyspace t).content key) = none := by
  rw [Store.keyspace, Dataset.keyspace_content, he]
  exact h.other e.value fun x hx => hne ((K.named e.value).mpr ⟨x, hx⟩)

/-- A handler that does, on any collection of its type, what `op` says. -/
theorem edit {op : α → Value → α → Prop} {run body : StoreM Value}
    (hrun : run = withType key K.name body)
    (hok : ∀ x, K.Under s now.instant key x → ∃ reply x', op (f x) reply (f x') ∧
      outcome now.instant (run.runAt now s) =
        (.ok reply, (s.keyspace now.instant).put key (L.leaves (f x')))) :
    Edit L (s.keyspace now.instant) key op (outcome now.instant (run.runAt now s)) := by
  unfold Edit
  by_cases ht : Typed s now.instant key K.name
  · obtain ⟨x, hx⟩ := K.under_of_typed ht
    obtain ⟨reply, x', hop, hend⟩ := hok x hx
    rw [h.sees key hx]
    exact ⟨reply, f x', hop, hend⟩
  · obtain ⟨e, hne⟩ := not_forall.mp ht
    obtain ⟨he, hne⟩ := Classical.not_imp.mp hne
    rw [h.blind key he hne, hrun, withType_refuses s now key K.name body he hne]
    exact outcome_congr (Store.live_check s now.instant key)

/-- A read that replies what `answer` says for any collection of its type. -/
theorem query {answer : α → Except Panic Value → Prop} {run : StoreM Value} {β : Type}
    {absent : β} {g : StoredValue → StoreM β} {reply : β → Value}
    (hrun : run = withType key K.name (Store.view key absent g >>= fun a => pure (reply a)))
    (habsent : answer (f K.fresh) (.ok (reply absent)))
    (hpresent : ∀ e x, s.live now.instant key = some e → e.value = K.wrap x → ∀ s',
      answer (f x) ((g (K.wrap x) >>= fun a => pure (reply a)).runAt now s').1 ∧
        ((g (K.wrap x) >>= fun a => pure (reply a)).runAt now s').2 = s') :
    Query L (s.keyspace now.instant) key answer (outcome now.instant (run.runAt now s)) := by
  have hsame := Store.live_check s now.instant key
  rw [hrun, read_spec s now key K.name]
  unfold Query
  cases he : s.live now.instant key with
  | none =>
    have hx : K.Under s now.instant key K.fresh := by rw [Kind.Under, he]
    rw [h.sees key hx, outcome_congr hsame]
    exact ⟨rfl, habsent⟩
  | some e =>
    dsimp only
    by_cases htype : Store.typeName e.value = Str.lit K.name
    · obtain ⟨x, hvalue⟩ := (K.named e.value).mp htype
      have hx : K.Under s now.instant key x := by
        rw [Kind.Under, he]
        exact hvalue
      obtain ⟨hreply, hstore⟩ := hpresent e x he hvalue (s.check now.instant key)
      rw [if_pos htype, hvalue, h.sees key hx]
      refine ⟨?_, hreply⟩
      rw [outcome, hstore, Store.keyspace, hsame]
    · rw [if_neg htype, h.blind key he htype, outcome_congr hsame]
      exact ⟨rfl, rfl⟩

/-- A read of the collection as it is. -/
theorem views {answer : α → Except Panic Value → Prop} {run : StoreM Value} {β : Type}
    {absent : β} {g : StoredValue → StoreM β} {reply : β → Value} {value : σ → β}
    (hrun : run = withType key K.name (Store.view key absent g >>= fun a => pure (reply a)))
    (hg : ∀ x, g (K.wrap x) = pure (value x)) (hfresh : value K.fresh = absent)
    (hanswer : ∀ x, answer (f x) (.ok (reply (value x)))) :
    Query L (s.keyspace now.instant) key answer (outcome now.instant (run.runAt now s)) := by
  apply h.query now key hrun
  · rw [← hfresh]
    exact hanswer K.fresh
  · intro e x _ _ s'
    rw [hg]
    exact ⟨hanswer x, rfl⟩

include hs

theorem inserts {β : Type} {run : List β → StoreM Value} {hit : σ → β → Bool} {step : σ → β → σ}
    (hins : Inserts K key run hit step) {body : List β → StoreM Value}
    (hrun : ∀ items, run items = withType key K.name (body items))
    (hgrown : ∀ x a, K.isEmpty (step x a) = false) {items : List β} (hne : items ≠ [])
    {op : α → Value → α → Prop}
    (hop : ∀ x, op (f x) (count (counted hit step items x).1)
      (f (items.foldl step x))) :
    Edit L (s.keyspace now.instant) key op (outcome now.instant ((run items).runAt now s)) := by
  apply h.edit now key (hrun items)
  intro x hx
  refine ⟨_, items.foldl step x, hop x, ?_⟩
  have hfull : K.isEmpty (items.foldl step x) = false := by
    rcases List.eq_nil_or_concat items with hnil | ⟨init, last, rfl⟩
    · exact absurd hnil hne
    · rw [List.concat_eq_append, List.foldl_append]
      exact hgrown _ last
  rw [hins s now items x hne hx, counted_snd, outcome, h.leaves, hfull, keyspace_stored hs]
  rfl

/-- A method that changes the collection under its key, and drops a key that it
empties. -/
theorem amends {run : StoreM Value} {β : Type} {absent : β}
    {g : StoredValue → β × StoredValue × Bool} {reply : β → Value} {value : σ → β} {rest : σ → σ}
    (hrun : run = withType key K.name (Store.amend key absent g >>= fun b => pure (reply b)))
    (hg : ∀ x, g (K.wrap x) = (value x, K.wrap (rest x), K.isEmpty (rest x)))
    (hfresh : value K.fresh = absent) (hnothing : K.isEmpty (rest K.fresh) = true)
    {op : α → Value → α → Prop} (hop : ∀ x, op (f x) (reply (value x)) (f (rest x))) :
    Edit L (s.keyspace now.instant) key op (outcome now.instant (run.runAt now s)) := by
  apply h.edit now key hrun
  intro x hx
  refine ⟨_, rest x, hop x, ?_⟩
  have hamend := Store.amend_spec (s.check now.instant key) now key absent g
  rw [Store.live_check, Store.check_check] at hamend
  rw [hrun, guard_spec K now hx, runAt_bind, hamend, h.leaves]
  cases he : s.live now.instant key with
  | none =>
    obtain rfl : x = K.fresh := by rwa [Kind.Under, he] at hx
    have habsent : s.keyspace now.instant key = none := by
      rw [Store.keyspace, Dataset.keyspace, he]
      rfl
    rw [hfresh, hnothing, if_pos rfl, Keyspace.put_absent habsent]
    exact outcome_congr (Store.live_check s now.instant key)
  | some e =>
    have hvalue : e.value = K.wrap x := by rwa [Kind.Under, he] at hx
    dsimp only
    rw [hvalue, hg, Store.put_check, Store.put_check]
    cases K.isEmpty (rest x) with
    | true => exact congrArg (Prod.mk _) (keyspace_removed now.instant key)
    | false => exact congrArg (Prod.mk _) (keyspace_kept hs now.instant key he _)

end Kind.Shown

end FireRedis
