import FireRedis.Store.Collections

/-!
# The live dataset

What a client can see of a store at an instant: the keys whose deadline is
absent or still to come. A store that keeps no deadline without a value is
changed one key at a time by `put`, and every method is given here as the reply
and the `put` that the live entry of its key determines.
-/

namespace FireRedis
open Std

structure Entry where
  value : StoredValue
  deadline : Option Instant

/-- The live keys with their values and deadlines. -/
abbrev Dataset := Str → Option Entry

/-- The entry that the two maps hold for a key, unless its deadline has passed. -/
def liveOf (t : Instant) : Option StoredValue → Option Instant → Option Entry
  | none, _ => none
  | some value, none => some ⟨value, none⟩
  | some value, some d => if d ≤ t then none else some ⟨value, some d⟩

theorem liveOf_eq_some {t : Instant} {v : Option StoredValue} {d : Option Instant} {e : Entry} :
    liveOf t v d = some e ↔
      v = some e.value ∧ d = e.deadline ∧ ∀ x, e.deadline = some x → t < x := by
  obtain ⟨value, deadline⟩ := e
  cases v with
  | none => simp [liveOf]
  | some w =>
    cases d with
    | none =>
      simp only [liveOf, Option.some.injEq, Entry.mk.injEq, and_congr_right_iff]
      rintro -
      constructor
      · rintro rfl
        simp
      · exact And.left
    | some d =>
      simp only [liveOf, Option.ite_none_left_eq_some, Option.some.injEq, Entry.mk.injEq,
        Nat.not_le]
      constructor
      · rintro ⟨hlt, rfl, rfl⟩
        exact ⟨rfl, rfl, fun x hx => Option.some.inj hx ▸ hlt⟩
      · rintro ⟨rfl, rfl, hlt⟩
        exact ⟨hlt d rfl, rfl, rfl⟩

theorem liveOf_ttl (t : Instant) (v : StoredValue) {ms : UInt64} (h : 0 < fromMillis ms) :
    liveOf t (some v) (some (t + fromMillis ms)) = some ⟨v, some (t + fromMillis ms)⟩ := by
  refine liveOf_eq_some.mpr ⟨rfl, rfl, fun d hd => ?_⟩
  rw [← Option.some.inj hd]
  exact Nat.lt_add_of_pos_right h

namespace Store

def live (s : Store) (t : Instant) : Dataset := fun key =>
  liveOf t s.data[key]? s.expirations[key]?

/-- Every key with a deadline has a value, and every value is one of `P`. -/
structure Inv (P : StoredValue → Prop) (s : Store) : Prop where
  deadlines : ∀ key : Str, s.data[key]? = none → s.expirations[key]? = none
  values : ∀ (key : Str) value, s.data[key]? = some value → P value

theorem inv_empty (P : StoredValue → Prop) : Store.empty.Inv P where
  deadlines key _ := by simp [Store.empty]
  values key value h := by simp [Store.empty] at h

@[ext] theorem ext {s s' : Store} (hd : ∀ key : Str, s.data[key]? = s'.data[key]?)
    (he : ∀ key : Str, s.expirations[key]? = s'.expirations[key]?) : s = s' := by
  cases s
  cases s'
  congr 1
  · exact ExtTreeMap.ext_getElem? hd
  · exact ExtTreeMap.ext_getElem? he

/-! ### Changing one key -/

def put (s : Store) (key : Str) (value : Option StoredValue) (deadline : Option Instant) :
    Store where
  data := s.data.alter key fun _ => value
  expirations := s.expirations.alter key fun _ => deadline

section Put

variable (s : Store) (key j : Str) (v w : Option StoredValue) (d e : Option Instant)

@[simp] theorem put_data : (s.put key v d).data[j]? = if key = j then v else s.data[j]? := by
  simp [put, ExtTreeMap.getElem?_alter]

@[simp] theorem put_expirations :
    (s.put key v d).expirations[j]? = if key = j then d else s.expirations[j]? := by
  simp [put, ExtTreeMap.getElem?_alter]

@[simp] theorem put_put : (s.put key v d).put key w e = s.put key w e := by
  ext j <;> by_cases hj : key = j <;> simp [hj]

theorem put_self : s.put key s.data[key]? s.expirations[key]? = s := by
  ext j
  · by_cases hj : key = j <;> simp [hj]
  · by_cases hj : key = j <;> simp [hj]

theorem live_put (t : Instant) :
    (s.put key v d).live t = Function.update (s.live t) key (liveOf t v d) := by
  funext j
  by_cases hj : key = j
  · subst hj
    simp [live]
  · simp [live, hj, Function.update_of_ne (Ne.symm hj)]

theorem live_put_self (t : Instant) : (s.put key v d).live t key = liveOf t v d := by
  rw [live_put, Function.update_self]

end Put

theorem inv_put {P : StoredValue → Prop} {s : Store} (hs : s.Inv P) (key : Str)
    {v : Option StoredValue} {d : Option Instant} (hv : ∀ value, v = some value → P value)
    (hd : v = none → d = none) : (s.put key v d).Inv P where
  deadlines j := by
    rw [put_data, put_expirations]
    split
    · exact hd
    · exact hs.deadlines j
  values j value := by
    rw [put_data]
    split
    · exact hv value
    · exact hs.values j value

/-! ### Checking one key -/

/-- What a live entry keeps in the two maps. -/
def touch (s : Store) (t : Instant) (key : Str) : Store :=
  s.put key ((s.live t key).map Entry.value) ((s.live t key).bind Entry.deadline)

theorem liveOf_entry (t : Instant) (v : Option StoredValue) (d : Option Instant) :
    liveOf t ((liveOf t v d).map Entry.value) ((liveOf t v d).bind Entry.deadline) =
      liveOf t v d := by
  cases v with
  | none => rfl
  | some value =>
    cases d with
    | none => rfl
    | some d =>
      by_cases hd : d ≤ t
      · simp [liveOf, hd]
      · simp [liveOf, hd]

theorem liveOf_deadline (t : Instant) (v : Option StoredValue) (d : Option Instant)
    (value : StoredValue) :
    liveOf t (some value) ((liveOf t v d).bind Entry.deadline) =
      some ⟨value, (liveOf t v d).bind Entry.deadline⟩ := by
  cases v with
  | none => rfl
  | some _ =>
    cases d with
    | none => rfl
    | some d =>
      by_cases hd : d ≤ t
      · simp [liveOf, hd]
      · simp [liveOf, hd]

theorem live_put_value {s : Store} {t : Instant} {key : Str} {e : Entry}
    (he : s.live t key = some e) (value : StoredValue) :
    (s.put key (some value) e.deadline).live t key = some ⟨value, e.deadline⟩ := by
  rw [live_put_self]
  exact liveOf_eq_some.mpr ⟨rfl, rfl, (liveOf_eq_some.mp he).2.2⟩

theorem live_touch (s : Store) (t : Instant) (key : Str) : (s.touch t key).live t = s.live t := by
  rw [touch, live_put, live, liveOf_entry]
  exact Function.update_eq_self key (s.live t)

theorem value_of_live {P : StoredValue → Prop} {s : Store} (hs : s.Inv P) {t : Instant}
    {key : Str} {e : Entry} (h : s.live t key = some e) : P e.value :=
  hs.values key e.value (liveOf_eq_some.mp h).1

theorem inv_touch {P : StoredValue → Prop} {s : Store} (hs : s.Inv P) (t : Instant) (key : Str) :
    (s.touch t key).Inv P := by
  apply inv_put hs
  · intro value hv
    obtain ⟨e, he, rfl⟩ := Option.map_eq_some_iff.mp hv
    exact value_of_live hs he
  · intro hv
    rw [Option.map_eq_none_iff.mp hv]
    rfl

/-! ### Checking one key whose deadline may have no value -/

/-- The deadline under a key, unless it has passed. -/
def pending (s : Store) (t : Instant) (key : Str) : Option Instant :=
  s.expirations[key]?.filter fun d => t < d

/-- What a check of a key leaves: its live entry, and a deadline still to come. -/
def check (s : Store) (t : Instant) (key : Str) : Store :=
  s.put key ((s.live t key).map Entry.value) (s.pending t key)

theorem liveOf_pending (t : Instant) (d : Option Instant) (value : StoredValue) :
    liveOf t (some value) (d.filter fun x => t < x) =
      some ⟨value, d.filter fun x => t < x⟩ := by
  cases d with
  | none => rfl
  | some d => by_cases hd : t < d <;> simp [liveOf, Option.filter, hd]

section Pending

variable (s : Store) (t : Instant) (key : Str)

theorem live_put_pending (value : StoredValue) :
    (s.put key (some value) (s.pending t key)).live t key = some ⟨value, s.pending t key⟩ := by
  rw [live_put_self]
  exact liveOf_pending t _ value

theorem pending_put (v : Option StoredValue) :
    (s.put key v (s.pending t key)).pending t key = s.pending t key := by
  rw [pending, put_expirations, if_pos rfl, pending]
  cases s.expirations[key]? with
  | none => rfl
  | some d => by_cases hd : t < d <;> simp [Option.filter, hd]

variable {s t key}

theorem pending_of_live {e : Entry} (he : s.live t key = some e) :
    s.pending t key = e.deadline := by
  obtain ⟨-, hd, hlater⟩ := liveOf_eq_some.mp he
  rw [pending, hd]
  cases hdl : e.deadline with
  | none => rfl
  | some d => simp [Option.filter, hlater d hdl]

theorem pending_eq {P : StoredValue → Prop} (hs : s.Inv P) :
    s.pending t key = (s.live t key).bind Entry.deadline := by
  cases he : s.live t key with
  | some e => exact pending_of_live he
  | none =>
    rw [pending]
    cases hd : s.expirations[key]? with
    | none => rfl
    | some d =>
      cases hv : s.data[key]? with
      | none => simp [hs.deadlines key hv] at hd
      | some value =>
        rw [live, hd, hv, liveOf] at he
        have hle : d ≤ t := by simpa using he
        simp [Option.filter, Nat.not_lt.mpr hle]

variable (s t key)

theorem live_check : (s.check t key).live t = s.live t := by
  have hkey : liveOf t ((s.live t key).map Entry.value) (s.pending t key) = s.live t key := by
    cases he : s.live t key with
    | none => rfl
    | some e =>
      rw [pending_of_live he]
      exact liveOf_eq_some.mpr ⟨rfl, rfl, (liveOf_eq_some.mp he).2.2⟩
  rw [check, live_put, hkey]
  exact Function.update_eq_self key (s.live t)

theorem put_check (v : Option StoredValue) (d : Option Instant) :
    (s.check t key).put key v d = s.put key v d := by rw [check, put_put]

theorem pending_check : (s.check t key).pending t key = s.pending t key := by
  rw [check, pending_put]

theorem check_check : (s.check t key).check t key = s.check t key := by
  rw [check, live_check, check, pending_put, put_put]

end Pending

/-! ### The methods on one key -/

section Setters

variable {s : Store} (now : Reading) (key : Str)

theorem setExpiration_run (expireMs : Option UInt64) :
    (setExpiration key expireMs).runAt now s =
      (.ok (), s.put key s.data[key]? (expireMs.map fun ms => now.instant + fromMillis ms)) := by
  cases expireMs with
  | none =>
    simp only [setExpiration, runAt_bind, runAt_expirationsRemove, runAt_pure]
    congr 1
    ext j <;> by_cases hj : key = j <;> simp [hj, ExtTreeMap.getElem?_alter]
  | some ms =>
    simp only [setExpiration, runAt_bind, runAt_instantNow, runAt_expirationsInsert, runAt_pure]
    congr 1
    ext j <;> by_cases hj : key = j <;> simp [hj, ExtTreeMap.getElem?_alter]

theorem set_run (value : Bytes) (expireMs : Option UInt64) :
    (set key value expireMs).runAt now s =
      (.ok (), s.put key (some (.string value))
        (expireMs.map fun ms => now.instant + fromMillis ms)) := by
  rw [set, dataInsert, runAt_bind, runAt_dataAlter]
  simp only [setExpiration_run]
  congr 1
  ext j <;> by_cases hj : key = j <;> simp [hj, ExtTreeMap.getElem?_alter]

theorem restore_run (value : StoredValue) : (restore key value).runAt now s =
    (.ok (), s.put key (some value) s.expirations[key]?) := by
  simp only [restore, dataInsert, runAt_bind, runAt_dataAlter, runAt_pure]
  congr 1
  ext j
  · by_cases hj : key = j <;> simp [hj, ExtTreeMap.getElem?_alter]
  · by_cases hj : key = j <;> simp [hj]

theorem setWithTtl_run (value : StoredValue) (ttlMs : UInt64) :
    (setWithTtl key value ttlMs).runAt now s =
      (.ok (), s.put key (some value) (some (now.instant + fromMillis ttlMs))) := rfl

end Setters

section Spec

variable (s : Store) (now : Reading) (key : Str)

theorem checkExpiration_spec : ∃ expired,
    (checkExpiration key).runAt now s = (.ok expired, s.check now.instant key) ∧
      (expired = true → s.live now.instant key = none) := by
  cases hd : s.expirations[key]? with
  | none =>
    refine ⟨false, ?_, nofun⟩
    have hmap : (s.live now.instant key).map Entry.value = s.data[key]? := by
      cases hv : s.data[key]? <;> simp [live, hd, hv, liveOf]
    have hself := put_self s key
    rw [hd] at hself
    simp [checkExpiration, runAt_bind, hd, check, pending, hmap, hself]
  | some d =>
    by_cases hle : d ≤ now.instant
    · have hnone : s.live now.instant key = none := by
        cases hv : s.data[key]? <;> simp [live, hd, hv, liveOf, hle]
      refine ⟨true, ?_, fun _ => hnone⟩
      simp [checkExpiration, runAt_bind, hd, hle, check, pending, hnone, dataRemove, put,
        Except.map, Option.filter, Nat.not_lt.mpr hle]
    · refine ⟨false, ?_, nofun⟩
      have hmap : (s.live now.instant key).map Entry.value = s.data[key]? := by
        cases hv : s.data[key]? <;> simp [live, hd, hv, liveOf, hle]
      have hself := put_self s key
      rw [hd] at hself
      simp [checkExpiration, runAt_bind, hd, hle, check, pending, hmap, hself, Option.filter,
        Nat.lt_of_not_le hle]

theorem lookup_spec : (lookup key).runAt now s =
    (.ok ((s.live now.instant key).map Entry.value), s.check now.instant key) := by
  obtain ⟨expired, hrun, hnone⟩ := checkExpiration_spec s now key
  rw [lookup, runAt_bind_ok _ hrun]
  cases expired with
  | true => simp [hnone rfl]
  | false => simp [check]

theorem view_spec {α : Type} (absent : α) (f : StoredValue → StoreM α) :
    (view key absent f).runAt now s =
      match s.live now.instant key with
      | none => (.ok absent, s.check now.instant key)
      | some e => (f e.value).runAt now (s.check now.instant key) := by
  rw [view, runAt_bind_ok _ (lookup_spec s now key)]
  cases s.live now.instant key with
  | none => rfl
  | some e => rfl

theorem upsert_spec {α : Type} (init : StoredValue) (f : StoredValue → α × StoredValue) :
    (upsert key init f).runAt now s =
      (.ok (f (((s.live now.instant key).map Entry.value).getD init)).1,
        s.put key (some (f (((s.live now.instant key).map Entry.value).getD init)).2)
          (s.pending now.instant key)) := by
  obtain ⟨expired, hrun, -⟩ := checkExpiration_spec s now key
  rw [upsert, runAt_bind_ok _ hrun]
  simp only [runAt_bind, runAt_dataAlter, runAt_pure, check, put_data, if_true]
  congr 1
  ext j
  · by_cases hj : key = j <;> simp [hj, ExtTreeMap.getElem?_alter]
  · by_cases hj : key = j <;> simp [hj]

theorem upsertLoop_spec {α β γ : Type} (init : StoredValue)
    (f : α → StoredValue → γ × StoredValue) (g : β → γ → β) {items : List α} (hne : items ≠ [])
    (b : β) :
    (items.foldlM (fun b a => do
      let c ← upsert key init (f a)
      return g b c) b : StoreM β).runAt now s =
      let r := items.foldl (fun r a => (g r.1 (f a r.2).1, (f a r.2).2))
        (b, ((s.live now.instant key).map Entry.value).getD init)
      (.ok r.1, s.put key (some r.2) (s.pending now.instant key)) := by
  induction items generalizing s b with
  | nil => exact absurd rfl hne
  | cons a items ih =>
    rw [List.foldlM_cons]
    simp only [bind_assoc, pure_bind]
    rw [runAt_bind_ok now (upsert_spec s now key init (f a)), List.foldl_cons]
    generalize ((s.live now.instant key).map Entry.value).getD init = v
    cases items with
    | nil => rfl
    | cons a' items =>
      rw [ih _ (List.cons_ne_nil a' items), live_put_pending, pending_put]
      dsimp only
      rw [put_put]
      rfl

theorem amend_spec {α : Type} (absent : α) (f : StoredValue → α × StoredValue × Bool) :
    (amend key absent f).runAt now s =
      match s.live now.instant key with
      | none => (.ok absent, s.check now.instant key)
      | some e =>
        if (f e.value).2.2 then (.ok (f e.value).1, s.put key none none)
        else (.ok (f e.value).1, s.put key (some (f e.value).2.1) e.deadline) := by
  obtain ⟨expired, hrun, hnone⟩ := checkExpiration_spec s now key
  rw [amend, runAt_bind_ok _ hrun]
  cases expired with
  | true => simp [hnone rfl]
  | false =>
    cases he : s.live now.instant key with
    | none =>
      simp only [Bool.false_eq_true, ite_false, runAt_bind, runAt_dataAlter, check, he,
        put_data, ite_true, Option.map_none, runAt_pure]
      congr 1
      ext j <;> by_cases hj : key = j <;> simp [hj, ExtTreeMap.getElem?_alter]
    | some e =>
      simp only [Bool.false_eq_true, ite_false, runAt_bind, runAt_dataAlter, check, he,
        put_data, ite_true, Option.map_some, pending_of_live he]
      split
      · simp only [runAt_bind, dataRemove, runAt_dataAlter, runAt_expirationsRemove, runAt_pure]
        congr 1
        ext j <;> by_cases hj : key = j <;> simp [hj, ExtTreeMap.getElem?_alter]
      · rw [runAt_pure]
        congr 1
        ext j <;> by_cases hj : key = j <;> simp [hj, ExtTreeMap.getElem?_alter]

theorem expire_spec (ms : UInt64) :
    (expire key ms).runAt now s =
      match s.live now.instant key with
      | none => (.ok false, s.check now.instant key)
      | some e => (.ok true, s.put key (some e.value) (some (now.instant + fromMillis ms))) := by
  rw [expire, runAt_bind_ok _ (lookup_spec s now key)]
  cases he : s.live now.instant key with
  | none => simp
  | some e => simp [setExpiration_run, check, he, Except.map]

/-- What PTTL replies for an entry. -/
def pttlOf (t : Instant) : Option Entry → Int64
  | none => -2
  | some ⟨_, none⟩ => -1
  | some ⟨_, some d⟩ => Int64.ofNat (asMillis (d - t))

theorem existsKey_spec : (existsKey key).runAt now s =
    (.ok (s.live now.instant key).isSome, s.check now.instant key) := by
  rw [existsKey, runAt_bind_ok _ (lookup_spec s now key)]
  simp

theorem pttl_spec : (pttl key).runAt now s =
    (.ok (pttlOf now.instant (s.live now.instant key)), s.check now.instant key) := by
  rw [pttl, runAt_bind_ok _ (existsKey_spec s now key)]
  cases he : s.live now.instant key with
  | none => simp [pttlOf]
  | some e =>
    obtain ⟨value, deadline⟩ := e
    cases deadline with
    | none => simp [runAt_bind, check, pending_of_live he, pttlOf]
    | some d => simp [runAt_bind, check, pending_of_live he, pttlOf, Except.map]

end Spec

/-! ### The methods on one key of a store in step -/

section Run

variable {P : StoredValue → Prop} {s : Store} (hs : s.Inv P) (now : Reading) (key : Str)
include hs

theorem check_eq (t : Instant) : s.check t key = s.touch t key := by
  rw [check, pending_eq hs, touch]

theorem lookup_run : (lookup key).runAt now s =
    (.ok ((s.live now.instant key).map Entry.value), s.touch now.instant key) := by
  rw [lookup_spec, check_eq hs]

theorem upsert_run {α : Type} (init : StoredValue) (f : StoredValue → α × StoredValue) :
    (upsert key init f).runAt now s =
      (.ok (f (((s.live now.instant key).map Entry.value).getD init)).1,
        s.put key (some (f (((s.live now.instant key).map Entry.value).getD init)).2)
          ((s.live now.instant key).bind Entry.deadline)) := by
  rw [upsert_spec, pending_eq hs]

theorem amend_run {α : Type} (absent : α) (f : StoredValue → α × StoredValue × Bool) :
    (amend key absent f).runAt now s =
      match s.live now.instant key with
      | none => (.ok absent, s.put key none none)
      | some e =>
        if (f e.value).2.2 then (.ok (f e.value).1, s.put key none none)
        else (.ok (f e.value).1, s.put key (some (f e.value).2.1) e.deadline) := by
  rw [amend_spec, check_eq hs]
  cases he : s.live now.instant key with
  | none => simp [touch, he]
  | some e => rfl

theorem expire_run (ms : UInt64) :
    (expire key ms).runAt now s =
      match s.live now.instant key with
      | none => (.ok false, s.put key none none)
      | some e => (.ok true, s.put key (some e.value) (some (now.instant + fromMillis ms))) := by
  rw [expire_spec, check_eq hs]
  cases he : s.live now.instant key with
  | none => simp [touch, he]
  | some e => rfl

theorem existsKey_run : (existsKey key).runAt now s =
    (.ok (s.live now.instant key).isSome, s.touch now.instant key) := by
  rw [existsKey_spec, check_eq hs]

theorem pttl_run : (pttl key).runAt now s =
    (.ok (pttlOf now.instant (s.live now.instant key)), s.touch now.instant key) := by
  rw [pttl_spec, check_eq hs]

end Run

end Store

end FireRedis
