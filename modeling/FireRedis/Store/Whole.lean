import FireRedis.Base.Counted
import FireRedis.Store.Access

/-!
# Methods on the whole store

DEL, KEYS, FLUSHALL and the evictor are no programs over single checked keys.
Their effect on the live dataset is stated here. After an eviction the two maps
hold exactly the live entries.
-/

namespace FireRedis
open Std Counted

namespace Store

def forget (s : Store) (keys : List Str) : Store := keys.foldl (fun s key => s.put key none none) s

/-- How many of the keys have a value when their turn comes. -/
def forgotten (s : Store) (keys : List Str) : ℕ :=
  (counted (fun s key => s.data[key]?.isSome) (fun s key => s.put key none none) keys s).1

theorem forget_append (s : Store) (xs ys : List Str) :
    s.forget (xs ++ ys) = (s.forget xs).forget ys := List.foldl_append

theorem forgotten_append (s : Store) (xs ys : List Str) :
    s.forgotten (xs ++ ys) = s.forgotten xs + (s.forget xs).forgotten ys := by
  rw [forgotten, counted_append, counted_snd]
  rfl

theorem forget_read {α : Type} (read : Store → Option α) (j : Str)
    (hput : ∀ s key, read (s.put key none none) = if key = j then none else read s) (s : Store)
    (keys : List Str) : read (s.forget keys) = if j ∈ keys then none else read s := by
  induction keys generalizing s with
  | nil => simp [forget]
  | cons key keys ih =>
    rw [forget, List.foldl_cons]
    show read ((s.put key none none).forget keys) = _
    rw [ih, hput]
    by_cases hj : key = j
    · simp [hj]
    · simp [hj, Ne.symm hj]

theorem forget_data (s : Store) (keys : List Str) (j : Str) :
    (s.forget keys).data[j]? = if j ∈ keys then none else s.data[j]? :=
  forget_read (fun s => s.data[j]?) j (fun _ _ => put_data ..) s keys

theorem forget_expirations (s : Store) (keys : List Str) (j : Str) :
    (s.forget keys).expirations[j]? = if j ∈ keys then none else s.expirations[j]? :=
  forget_read (fun s => s.expirations[j]?) j (fun _ _ => put_expirations ..) s keys

theorem live_forget (s : Store) (keys : List Str) (t : Instant) (j : Str) :
    (s.forget keys).live t j = if j ∈ keys then none else s.live t j := by
  rw [live, forget_data, forget_expirations]
  split <;> rfl

theorem inv_forget {P : StoredValue → Prop} {s : Store} (hs : s.Inv P) (keys : List Str) :
    (s.forget keys).Inv P where
  deadlines j := by
    rw [forget_data, forget_expirations]
    split
    · exact fun _ => rfl
    · exact hs.deadlines j
  values j value := by
    rw [forget_data]
    split
    · intro h
      cases h
    · exact hs.values j value

section Run

variable (now : Reading) (s : Store)

theorem removeLoop_run (keys : List Str) (n : ℕ) :
    (keys.foldlM (fun n key => do
      let removed ← dataRemove key
      let _ ← expirationsRemove key
      return if removed.isSome then n + 1 else n) n : StoreM ℕ).runAt now s =
      (.ok (n + s.forgotten keys), s.forget keys) := by
  induction keys generalizing n s with
  | nil => rfl
  | cons key keys ih =>
    have htail := ih (s.put key none none) (if s.data[key]?.isSome then n + 1 else n)
    have hcount : n + s.forgotten (key :: keys) =
        (if s.data[key]?.isSome then n + 1 else n) + (s.put key none none).forgotten keys := by
      rw [forgotten, counted_cons]
      change n + ((if s.data[key]?.isSome then 1 else 0) + (s.put key none none).forgotten keys) = _
      split <;> omega
    rw [List.foldlM_cons, hcount]
    simp only [runAt_bind, dataRemove, runAt_dataAlter, runAt_expirationsRemove, runAt_pure]
    exact htail

theorem del_run (keys : List Str) :
    (del keys).runAt now s = (.ok (s.forgotten keys), s.forget keys) := by
  rw [del, removeLoop_run, Nat.zero_add]

def expiredKeys (t : Instant) : List Str :=
  (s.expirations.toList.filter fun e => t ≥ e.2).map Prod.fst

theorem mem_expiredKeys (t : Instant) (key : Str) :
    key ∈ s.expiredKeys t ↔ ∃ d, s.expirations[key]? = some d ∧ d ≤ t := by
  simp [expiredKeys, ExtTreeMap.mem_toList_iff_getElem?_eq_some]

theorem evictExpired_run : ∃ m,
    evictExpired.runAt now s = (.ok m, s.forget (s.expiredKeys now.instant)) := by
  refine ⟨0 + s.forgotten (s.expiredKeys now.instant), ?_⟩
  rw [evictExpired, runAt_bind, runAt_instantNow]
  simp only [runAt_bind, runAt_expirationsIter]
  exact removeLoop_run now s (s.expiredKeys now.instant) 0

/-- The store after an eviction. -/
def evicted (t : Instant) : Store := s.forget (s.expiredKeys t)

theorem flushAll_run : flushAll.runAt now s = (.ok (), Store.empty) := rfl

theorem live_empty (t : Instant) : Store.empty.live t = fun _ => none := by
  funext key
  simp [live, Store.empty, liveOf]

variable {s} {P : StoredValue → Prop} (hs : s.Inv P)
include hs

omit hs in
theorem evicted_data (t : Instant) (key : Str) :
    (s.evicted t).data[key]? = (s.live t key).map Entry.value := by
  simp only [evicted, forget_data, mem_expiredKeys, live]
  cases hv : s.data[key]? with
  | none => simp [liveOf]
  | some value =>
    cases hd : s.expirations[key]? with
    | none => simp [liveOf]
    | some d => by_cases hle : d ≤ t <;> simp [liveOf, hle]

theorem evicted_expirations (t : Instant) (key : Str) :
    (s.evicted t).expirations[key]? = (s.live t key).bind Entry.deadline := by
  simp only [evicted, forget_expirations, mem_expiredKeys, live]
  cases hv : s.data[key]? with
  | none =>
    have hd := hs.deadlines key hv
    simp [liveOf, hd]
  | some value =>
    cases hd : s.expirations[key]? with
    | none => simp [liveOf]
    | some d => by_cases hle : d ≤ t <;> simp [liveOf, hle]

theorem live_evicted (t : Instant) : (s.evicted t).live t = s.live t := by
  funext key
  rw [live, evicted_data, evicted_expirations hs]
  exact liveOf_entry t _ _

theorem inv_evicted (t : Instant) : (s.evicted t).Inv P := inv_forget hs _

/-- Eviction brings stores with one live dataset to one state. -/
theorem evicted_eq {s' : Store} (hs' : s'.Inv P) {t : Instant} (h : s.live t = s'.live t) :
    s.evicted t = s'.evicted t := by
  ext key
  · rw [evicted_data, evicted_data, h]
  · rw [evicted_expirations hs, evicted_expirations hs', h]

omit hs in
theorem keys_run (ord : IterOrder) : (keys ord).runAt now s =
    (.ok ((ord.data (s.evicted now.instant).data).map Prod.fst), s.evicted now.instant) := by
  obtain ⟨m, hm⟩ := evictExpired_run now s
  rw [keys, runAt_bind_ok _ hm]
  rfl

end Run

end Store

end FireRedis
