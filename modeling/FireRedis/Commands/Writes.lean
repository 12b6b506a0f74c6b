import FireRedis.Base.Counted
import FireRedis.Commands.Atomic

/-!
# Writes with many arguments (commands/data.rs)

A handler that inserts or removes each of its arguments is a counting fold on
the collection under its key. Insertions start from a new collection where the
key is absent; removals take the key away with its deadline when they leave
nothing. The store may be any, also one with deadlines that have no value.
-/

namespace FireRedis
open Std Counted

/-- A client sees no value under the key, or one of the type. -/
def Typed (s : Store) (t : Instant) (key : Str) (expected : String) : Prop :=
  ∀ e, s.live t key = some e → Store.typeName e.value = Str.lit expected

/-- A type of collections, as values and by its name. -/
structure Kind (σ : Type) where
  name : String
  wrap : σ → StoredValue
  fresh : σ
  isEmpty : σ → Bool
  named : ∀ v, Store.typeName v = Str.lit name ↔ ∃ x, v = wrap x

namespace Kind

def list : Kind (List Bytes) where
  name := "list"
  wrap := .list
  fresh := []
  isEmpty := List.isEmpty
  named v := by cases v <;> simp only [Store.typeName] <;> simp <;> decide

def set : Kind (ExtTreeSet Bytes) where
  name := "set"
  wrap := .set
  fresh := ∅
  isEmpty := ExtTreeSet.isEmpty
  named v := by cases v <;> simp only [Store.typeName] <;> simp <;> decide

def hash : Kind (ExtTreeMap Str Bytes) where
  name := "hash"
  wrap := .hash
  fresh := ∅
  isEmpty := ExtTreeMap.isEmpty
  named v := by cases v <;> simp only [Store.typeName] <;> simp <;> decide

def zset : Kind SortedSet where
  name := "zset"
  wrap := .sortedSet
  fresh := ⟨∅, ∅⟩
  isEmpty z := z.scores.isEmpty
  named v := by cases v <;> simp only [Store.typeName] <;> simp <;> decide

/-- The collection that a handler of the type finds under a key. -/
def Under {σ : Type} (K : Kind σ) (s : Store) (t : Instant) (key : Str) (x : σ) : Prop :=
  match s.live t key with
  | none => x = K.fresh
  | some e => e.value = K.wrap x

section Under

variable {σ : Type} (K : Kind σ) {s : Store} {t : Instant} {key : Str} {x : σ}

theorem under_of_typed (h : Typed s t key K.name) : ∃ x, K.Under s t key x := by
  unfold Under
  cases he : s.live t key with
  | none => exact ⟨K.fresh, rfl⟩
  | some e => exact (K.named e.value).mp (h e he)

theorem typed_of_under (h : K.Under s t key x) : Typed s t key K.name := by
  intro e he
  unfold Under at h
  rw [he] at h
  exact (K.named e.value).mpr ⟨x, h⟩

theorem value_of_under (h : K.Under s t key x) :
    ((s.live t key).map Entry.value).getD (K.wrap K.fresh) = K.wrap x := by
  unfold Under at h
  cases he : s.live t key with
  | none =>
    rw [he] at h
    rw [show x = K.fresh from h]
    rfl
  | some e =>
    rw [he] at h
    exact h

end Under

end Kind

/-! ### Insertions -/

theorem ofNat_iterate (n : ℕ) : (fun i : Int64 => i + 1)^[n] 0 = Int64.ofNat n := by
  induction n with
  | zero => rfl
  | succ n ih =>
    rw [Function.iterate_succ_apply', ih]
    exact (Int64.ofNat_add n 1).symm

section Specs

variable {σ α : Type} (K : Kind σ) {s : Store} (now : Reading) {key : Str} {x : σ}
  (hx : K.Under s now.instant key x) (hit : σ → α → Bool) (step : σ → α → σ)
include hx

theorem guard_spec (body : StoreM Value) :
    (withType key K.name body).runAt now s = body.runAt now (s.check now.instant key) :=
  withType_spec s now key K.name body (K.typed_of_under hx)

theorem under_check : K.Under (s.check now.instant key) now.instant key x := by
  unfold Kind.Under
  rw [Store.live_check]
  exact hx

/-- A loop of insertions that counts in 64 bits. -/
theorem insertLoop_spec (f : α → StoredValue → Bool × StoredValue)
    (hf : ∀ a x, f a (K.wrap x) = (hit x a, K.wrap (step x a))) {items : List α}
    (hne : items ≠ []) :
    (withType key K.name (do
      let n ← items.foldlM (fun (n : Int64) a =>
        return if ← Store.upsert key (K.wrap K.fresh) (f a) then n + 1 else n) 0
      return .integer n)).runAt now s =
      (.ok (count (counted hit step items x).1),
        s.put key (some (K.wrap (counted hit step items x).2)) (s.pending now.instant key)) := by
  have hloop := Store.upsertLoop_spec (s.check now.instant key) now key (K.wrap K.fresh) f
    (fun (n : Int64) c => if c then n + 1 else n) hne 0
  rw [K.value_of_under (under_check K now hx),
    foldl_wrap hit step K.wrap f hf (fun n : Int64 => n + 1) items 0 x, ofNat_iterate] at hloop
  dsimp only at hloop
  rw [Store.put_check, Store.pending_check] at hloop
  rw [guard_spec K now hx, runAt_bind_ok now hloop]
  rfl

theorem insertOnce_spec (f : StoredValue → ℕ × StoredValue) {items : List α}
    (hf : f (K.wrap x) =
      ((counted hit step items x).1, K.wrap (counted hit step items x).2)) :
    (withType key K.name (do
      return count (← Store.upsert key (K.wrap K.fresh) f))).runAt now s =
      (.ok (count (counted hit step items x).1),
        s.put key (some (K.wrap (counted hit step items x).2)) (s.pending now.instant key)) := by
  rw [guard_spec K now hx, runAt_bind_ok now (Store.upsert_spec ..),
    K.value_of_under (under_check K now hx), hf, Store.put_check, Store.pending_check]
  rfl

theorem removeOnce_spec (f : StoredValue → ℕ × StoredValue × Bool) {items : List α}
    (hf : f (K.wrap x) = ((counted hit step items x).1, K.wrap (counted hit step items x).2,
      K.isEmpty (counted hit step items x).2)) :
    (withType key K.name (do
      return count (← Store.amend key 0 f))).runAt now s =
      match s.live now.instant key with
      | none => (.ok (count 0), s.check now.instant key)
      | some e =>
        (.ok (count (counted hit step items x).1),
          if K.isEmpty (counted hit step items x).2 then s.put key none none
          else s.put key (some (K.wrap (counted hit step items x).2)) e.deadline) := by
  have hamend := Store.amend_spec (s.check now.instant key) now key 0 f
  rw [Store.live_check, Store.check_check] at hamend
  rw [guard_spec K now hx, runAt_bind, hamend]
  unfold Kind.Under at hx
  cases he : s.live now.instant key with
  | none => rfl
  | some e =>
    rw [he] at hx
    dsimp only at hx ⊢
    rw [hx, hf, Store.put_check, Store.put_check]
    cases K.isEmpty (counted hit step items x).2 with
    | true => rfl
    | false => rfl

end Specs

/-! ### Lists -/

theorem pushes_eq (f : Bytes → StoredValue → ℕ × StoredValue)
    (push : List Bytes → Bytes → List Bytes)
    (hf : ∀ v items, f v (.list items) = ((push items v).length, .list (push items v)))
    {vals : List Bytes} (hne : vals ≠ []) (b : ℕ) (items : List Bytes) :
    vals.foldl (fun r v => ((f v r.2).1, (f v r.2).2)) (b, StoredValue.list items) =
      ((vals.foldl push items).length, .list (vals.foldl push items)) := by
  induction vals generalizing b items with
  | nil => exact absurd rfl hne
  | cons v vals ih =>
    rw [List.foldl_cons, List.foldl_cons, hf]
    cases vals with
    | nil => rfl
    | cons v' vals => exact ih (List.cons_ne_nil v' vals) _ (push items v)

theorem foldl_pushBack (vals items : List Bytes) :
    vals.foldl (fun items v => items ++ [v]) items = items ++ vals := by
  induction vals generalizing items with
  | nil => simp
  | cons v vals ih =>
    rw [List.foldl_cons, ih, List.append_assoc]
    rfl

section Pushes

variable {s : Store} (now : Reading) {key : Str} {items : List Bytes}
  (hx : Kind.list.Under s now.instant key items)
include hx

theorem pushLoop_spec (f : Bytes → StoredValue → ℕ × StoredValue)
    (push : List Bytes → Bytes → List Bytes)
    (hf : ∀ v items, f v (.list items) = ((push items v).length, .list (push items v)))
    {vals : List Bytes} (hne : vals ≠ []) :
    (withType key "list" (do
      let len ← vals.foldlM (fun _ v => Store.upsert key (.list []) (f v)) 0
      return count len)).runAt now s =
      (.ok (count (vals.foldl push items).length),
        s.put key (some (.list (vals.foldl push items))) (s.pending now.instant key)) := by
  have hloop := Store.upsertLoop_spec (s.check now.instant key) now key (.list []) f
    (fun (_ : ℕ) c => c) hne 0
  have hvalue := Kind.list.value_of_under (under_check Kind.list now hx)
  have hstart : (((s.check now.instant key).live now.instant key).map Entry.value).getD
      (.list []) = .list items := hvalue
  rw [hstart, pushes_eq f push hf hne] at hloop
  simp only [bind_pure] at hloop
  rw [Store.put_check, Store.pending_check] at hloop
  have hguard := guard_spec Kind.list now hx (do
    let len ← vals.foldlM (fun _ v => Store.upsert key (.list []) (f v)) 0
    return count len)
  rw [runAt_bind_ok now hloop] at hguard
  exact hguard

theorem rPush_spec {vals : List Bytes} (hne : vals ≠ []) :
    (handleRPush key vals).runAt now s = (.ok (count (items.length + vals.length)),
      s.put key (some (.list (items ++ vals))) (s.pending now.instant key)) := by
  have hrun := pushLoop_spec now hx Store.pushBack (fun items v => items ++ [v])
    (fun v items => by rw [List.length_append]; rfl) hne
  rw [foldl_pushBack, List.length_append] at hrun
  rw [handleRPush, if_neg (by simpa using hne)]
  exact hrun

/-- The last value is pushed first. -/
theorem lPush_spec {vals : List Bytes} (hne : vals ≠ []) :
    (handleLPush key vals).runAt now s = (.ok (count (items.length + vals.length)),
      s.put key (some (.list (vals ++ items))) (s.pending now.instant key)) := by
  have hrun := pushLoop_spec now hx Store.pushFront (fun items v => v :: items)
    (fun _ _ => rfl) (List.reverse_ne_nil_iff.mpr hne)
  rw [List.foldl_reverse, List.foldr_cons_eq_append, List.map_id', List.length_append,
    Nat.add_comm] at hrun
  rw [handleLPush, if_neg (by simpa using hne)]
  exact hrun

end Pushes

/-! ### Empty collections -/

theorem set_empty (S : ExtTreeSet Bytes) (h : S.isEmpty = true) (m : Bytes) :
    S.contains m = false ∧ S.erase m = S := by
  rw [ExtTreeSet.isEmpty_iff.mp h]
  simp

theorem hash_empty (H : ExtTreeMap Str Bytes) (h : H.isEmpty = true) (f : Str) :
    H.contains f = false ∧ H.erase f = H := by
  rw [ExtTreeMap.isEmpty_iff.mp h]
  simp

theorem zset_empty (z : SortedSet) (h : z.scores.isEmpty = true) (m : Bytes) :
    z.scores.contains m = false ∧ Store.zErase z m = z := by
  obtain ⟨scores, tree⟩ := z
  obtain rfl : scores = ∅ := ExtTreeMap.isEmpty_iff.mp h
  simp [Store.zErase]

/-! ### Sets, hashes and sorted sets -/

/-- On a key of its type, `run` inserts its items one by one. -/
def Inserts {σ α : Type} (K : Kind σ) (key : Str) (run : List α → StoreM Value)
    (hit : σ → α → Bool) (step : σ → α → σ) : Prop :=
  ∀ (s : Store) (now : Reading) (items : List α) (x : σ), items ≠ [] →
    K.Under s now.instant key x →
    (run items).runAt now s = (.ok (count (counted hit step items x).1),
      s.put key (some (K.wrap (counted hit step items x).2)) (s.pending now.instant key))

/-- On a key of its type, `run` removes its items one by one, and then the key
if nothing is left. -/
def Removes {σ α : Type} (K : Kind σ) (key : Str) (run : List α → StoreM Value)
    (hit : σ → α → Bool) (step : σ → α → σ) : Prop :=
  ∀ (s : Store) (now : Reading) (items : List α) (x : σ), K.Under s now.instant key x →
    (run items).runAt now s =
      match s.live now.instant key with
      | none => (.ok (count 0), s.check now.instant key)
      | some e =>
        (.ok (count (counted hit step items x).1),
          if K.isEmpty (counted hit step items x).2 then s.put key none none
          else s.put key (some (K.wrap (counted hit step items x).2)) e.deadline)

theorem insertMembers_eq (members : List Bytes) (S : ExtTreeSet Bytes) :
    Store.insertMembers members S =
      counted (fun S m => !S.contains m) (fun S m => S.insert m) members S := by
  unfold Store.insertMembers counted
  congr 1
  funext ⟨n, S⟩ m
  cases hm : S.contains m <;> simp [hm]

theorem sAdd_inserts (key : Str) : Inserts .set key (handleSAdd key)
    (fun S m => !S.contains m) (fun S m => S.insert m) := by
  intro s now items x _ hx
  exact insertOnce_spec .set now hx _ _ (Store.addToSet items) (by
    rw [← insertMembers_eq]
    rfl)

theorem hSet_inserts (key : Str) : Inserts .hash key (handleHSet key)
    (fun H e => !H.contains e.1) (fun H e => H.insert e.1 e.2) := by
  intro s now items x hne hx
  have hrun := insertLoop_spec .hash now hx _ _ (fun e => Store.setField e.1 e.2)
    (fun _ _ => rfl) hne
  unfold handleHSet Store.hSet
  exact hrun

theorem zAdd_inserts (key : Str) : Inserts .zset key (handleZAdd key)
    (fun z e => !z.scores.contains e.2) (fun z e => Store.zInsert e.1 e.2 z) := by
  intro s now items x hne hx
  have hrun := insertLoop_spec .zset now hx _ _ (fun e => Store.addToSortedSet e.1 e.2)
    (fun _ _ => rfl) hne
  unfold handleZAdd Store.zAdd
  exact hrun

theorem sRem_removes (key : Str) : Removes .set key (handleSRem key)
    (fun S m => S.contains m) (fun S m => S.erase m) := by
  intro s now items x hx
  exact removeOnce_spec .set now hx _ _ (Store.removeFromSet items) rfl

theorem hDel_removes (key : Str) : Removes .hash key (handleHDel key)
    (fun H f => H.contains f) (fun H f => H.erase f) := by
  intro s now items x hx
  exact removeOnce_spec .hash now hx _ _ (Store.removeFromHash items) rfl

theorem zRem_removes (key : Str) : Removes .zset key (handleZRem key)
    (fun z m => z.scores.contains m) Store.zErase := by
  intro s now items x hx
  exact removeOnce_spec .zset now hx _ _ (Store.removeFromSortedSet items) rfl

end FireRedis
